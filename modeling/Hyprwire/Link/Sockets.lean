import Hyprwire.Link.Roundtrips
import Hyprwire.Link.Segments
import Hyprwire.Server.Session
import Hyprwire.Tracing.Framed
import Hyprwire.Wire.SocketHelpers

/-!
# The two ends and a socket

`Link.System` passes messages; the ends themselves pass bytes. `Sockets` has what is queued in
the two directions of a socket, a message whole as its one `sendmsg` puts it there, and the ends
read it with `parseFromFd` and dispatch what they have read, however much has arrived by then.
What an end has acted on is kept as well.

`Channel` is what holds of one direction: what is queued are the messages that were sent and not
read, and what has been acted on are those that were taken. `dispatchClient_framed` and
`dispatchEvents_framed` say what a read of messages that frame themselves comes to.
-/

set_option autoImplicit false

namespace Hyprwire.Link

open Cpp Wire Object Client Server

variable {α β : Type}

/-! ## The ends and the socket -/

/-- Both ends with their applications. -/
structure Peers (α β : Type) where
  client : Client.Config β
  server : Server.Config α

/-- What the ends are to the messages. -/
def Peers.link (peers : Peers α β) : Config :=
  ⟨peers.client.impls, peers.server.impls, peers.client.heap, peers.server.heap⟩

/-- Messages as they are queued in a socket. -/
def segments (messages : List Message) : List Segment :=
  messages.map fun message => ⟨message.data, message.fds⟩

/-- Both ends, what is queued between them, and what each has acted on. -/
structure Sockets (α β : Type) where
  client : ClientState β
  server : ServerState α
  toServer : List Segment
  toClient : List Segment
  serverGot : List Received := []
  clientGot : List Received := []

namespace Sockets

/-- The messages that the client has sent. -/
def upstream (s : Sockets α β) : List Message := s.client.client.sent.map Sent.message

/-- The messages that the server has sent. -/
def downstream (s : Sockets α β) : List Message := s.server.client.sent

/-- A client that has connected to a server. -/
def opened (memory : α) (memory' : β) : Sockets α β where
  client := ⟨.opened, memory'⟩
  server := ⟨{}, memory⟩
  toServer := segments [.hello]
  toClient := []

/-- The client has changed, and what it has sent is queued. -/
def withClient (s : Sockets α β) (client : ClientState β) : Sockets α β :=
  { s with
    client
    toServer := s.toServer ++
      segments ((client.client.sent.map Sent.message).drop s.upstream.length) }

/-- The server has changed, and what it has sent is queued. -/
def withServer (s : Sockets α β) (server : ServerState α) : Sockets α β :=
  { s with
    server
    toClient := s.toClient ++ segments (server.client.sent.drop s.downstream.length) }

end Sockets

/-- One step of the two ends. An end reads what has arrived, and more can be on the way. The
client reads nothing once it has an error. -/
inductive Sockets.Step (peers : Peers α β) (s : Sockets α β) : Sockets α β → Prop
  | clientActs {act : Client.Act} {client : CClientSocket} {memory : β}
      (own : (Event.client act).IsOwn)
      (acts : s.client.client.act peers.client.impls act = some (.ok client)) :
      Step peers s (s.withClient ⟨client, memory⟩)
  | clientReads {arrived later left : List Segment} {calls turns : Nat} {vector : ByteVec}
      {outside : Nat → Option UInt8} {fds : List Fd} {goesOn : Bool} {client : ClientState β}
      {handled : List Received} (queue : s.toClient = arrived ++ later)
      (clean : s.client.client.error = false)
      (read : parseFromFd recvmsg calls arrived = some (some ⟨vector.data, fds, left⟩))
      (dispatched : dispatchEvents peers.client turns
        (.readable (some ⟨vector.viewIn outside, fds⟩)) s.client =
          some (.ok (goesOn, client, handled))) :
      Step peers s { s.withClient client with
        toClient := left ++ later, clientGot := s.clientGot ++ handled }
  | serverActs {act : Server.Act} {server : CServerClient} {memory : α}
      (own : (Event.server act).IsOwn)
      (acts : s.server.client.act peers.server.impls act = some (.ok server)) :
      Step peers s (s.withServer ⟨server, memory⟩)
  | serverReads {arrived later left : List Segment} {calls turns : Nat} {vector : ByteVec}
      {outside : Nat → Option UInt8} {fds : List Fd} {server : ServerState α}
      {handled : List Received} (queue : s.toServer = arrived ++ later)
      (read : parseFromFd recvmsg calls arrived = some (some ⟨vector.data, fds, left⟩))
      (dispatched : dispatchClient peers.server turns (some ⟨vector.viewIn outside, fds⟩) s.server =
        some (.ok (server, handled))) :
      Step peers s { s.withServer server with
        toServer := left ++ later, serverGot := s.serverGot ++ handled }

/-- A run of the two ends over a socket. -/
def Sockets.Run (peers : Peers α β) : Sockets α β → Sockets α β → Prop :=
  Relation.ReflTransGen (Sockets.Step peers)

/-! ## What is queued -/

theorem segments_append (first second : List Message) :
    segments (first ++ second) = segments first ++ segments second := List.map_append

theorem segmentBytes_segments (messages : List Message) :
    segmentBytes (segments messages) = messageData messages := by
  rw [segmentBytes, segments, List.flatMap_map]
  rfl

theorem segmentFds_segments (messages : List Message) :
    segmentFds (segments messages) = messageFds messages := by
  rw [segmentFds, segments, List.flatMap_map]
  rfl

/-- **A read takes messages whole**, and leaves the others. -/
theorem read_segments {messages : List Message} {calls : Nat} {bytes : List UInt8} {fds : List Fd}
    {left : List Segment} (framed : ∀ message ∈ messages, Framed message)
    (read : parseFromFd recvmsg calls (segments messages) = some (some ⟨bytes, fds, left⟩)) :
    ∃ first rest, messages = first ++ rest ∧ bytes = messageData first ∧ fds = messageFds first ∧
      left = segments rest := by
  have some_ : ∀ segment ∈ segments messages, segment.bytes ≠ [] := by
    intro segment member
    obtain ⟨message, listed, rfl⟩ := List.mem_map.mp member
    exact (framed message listed).data_ne_nil
  obtain ⟨first, rest, all, one, two⟩ :=
    List.map_eq_append_iff.mp (oneRead_append 0 (segments messages)).symm
  have result := (parseFromFd_iff some_).mp ⟨_, read⟩
  obtain ⟨rfl, rfl, rfl⟩ := Collected.mk.inj (Option.some.inj result)
  refine ⟨first, rest, all, ?_, ?_, two.symm⟩
  · rw [← one]
    exact segmentBytes_segments first
  · rw [← one]
    exact segmentFds_segments first

/-- The messages of one direction: how many have been taken, what is queued, and what has been
acted on. Messages that were read behind an error are neither. -/
structure Channel (side : Side) (sent : List Message) (taken : Nat) (queue : List Segment)
    (got : List Received) (failed : Bool) : Prop where
  delivered : List.Forall₂ (Delivered side) (sent.take taken) got
  queued : ∃ read, taken ≤ read ∧ read ≤ sent.length ∧ queue = segments (sent.drop read) ∧
    (failed = false → read = taken)

namespace Channel

variable {side : Side} {sent sent' : List Message} {taken : Nat} {queue : List Segment}
  {got : List Received} {failed failed' : Bool}

theorem taken_le (channel : Channel side sent taken queue got failed) : taken ≤ sent.length := by
  obtain ⟨read, below, inside, -, -⟩ := channel.queued
  omega

/-- More is sent. -/
theorem sends (channel : Channel side sent taken queue got failed) (grows : sent <+: sent')
    (stays : failed' = false → failed = false) :
    Channel side sent' taken (queue ++ segments (sent'.drop sent.length)) got failed' := by
  obtain ⟨new, rfl⟩ := grows
  have most := channel.taken_le
  obtain ⟨read, below, inside, rfl, clean⟩ := channel.queued
  refine ⟨?_, read, below, ?_, ?_, fun fine => clean (stays fine)⟩
  · rw [List.take_append_of_le_length most]
    exact channel.delivered
  · rw [List.length_append]
    omega
  · rw [List.drop_left, List.drop_append_of_le_length inside, segments_append]

/-- An end can come to fail. -/
theorem fails (channel : Channel side sent taken queue got failed)
    (stays : failed' = false → failed = false) : Channel side sent taken queue got failed' := by
  obtain ⟨read, below, inside, queued, clean⟩ := channel.queued
  exact ⟨channel.delivered, read, below, inside, queued, fun fine => clean (stays fine)⟩

/-- What has arrived are the next messages that have been sent. -/
theorem arrived {arrived later : List Segment}
    (channel : Channel side sent taken (arrived ++ later) got failed) :
    ∃ read messages more, taken ≤ read ∧ read ≤ sent.length ∧ (failed = false → read = taken) ∧
      sent.drop read = messages ++ more ∧ arrived = segments messages ∧ later = segments more := by
  obtain ⟨read, below, inside, queue, clean⟩ := channel.queued
  obtain ⟨messages, more, split, rfl, rfl⟩ := List.map_eq_append_iff.mp queue.symm
  exact ⟨read, messages, more, below, inside, clean, split, rfl, rfl⟩

/-- Some messages are read, and the first ones of them are taken. -/
theorem reads {read : Nat} {first second rest : List Message} {handled : List Received}
    {arrived : List Segment} (channel : Channel side sent taken arrived got failed)
    (below : taken ≤ read) (inside : read ≤ sent.length) (clean : failed = false → read = taken)
    (split : sent.drop read = first ++ (second ++ rest))
    (delivered : List.Forall₂ (Delivered side) first handled)
    (stopped : failed = true → first = []) (all : failed' = false → failed = false ∧ second = []) :
    Channel side sent (taken + first.length) (segments rest) (got ++ handled) failed' where
  delivered := by
    rw [List.take_add]
    refine List.rel_append channel.delivered ?_
    cases fails : failed with
    | true =>
        obtain rfl := stopped fails
        exact delivered
    | false =>
        obtain rfl := clean fails
        rwa [split, List.take_left]
  queued := by
    have length := congrArg List.length split
    rw [List.length_drop, List.length_append, List.length_append] at length
    refine ⟨read + (first.length + second.length), by omega, by omega, ?_, ?_⟩
    · rw [← List.drop_drop, split, ← List.append_assoc, ← List.length_append, List.drop_left]
    · intro fine
      obtain ⟨before, rfl⟩ := all fine
      rw [clean before, List.length_nil, Nat.add_zero]

end Channel

/-- An error that stays was not there before, if it is not there. -/
theorem not_error_before {client next : CClientSocket}
    (stays : client.error = true → next.error = true) (fine : next.error = false) :
    client.error = false :=
  Bool.eq_false_iff.mpr fun set => Bool.false_ne_true (fine.symm.trans (stays set))

/-- What a run of the client keeps: its calls, and what it has sent. -/
theorem run_keeps {impls : Client.Impls} {allowed : CClientSocket → Client.Act → Prop}
    {client next : CClientSocket} (run : Client.Run impls allowed client next) (kept : Kept client) :
    Kept next ∧ client.sent <+: next.sent ∧ (client.error = true → next.error = true) := by
  induction run with
  | refl => exact ⟨kept, List.prefix_rfl, id⟩
  | step _ _ acts ih =>
      obtain ⟨holds, before, errors⟩ := ih
      have asks := act_asks holds.headed acts
      exact ⟨holds.act acts, before.trans asks.prefix_sent, asks.errors ∘ errors⟩

namespace Sockets

variable {peers : Peers α β} {s t : Sockets α β}

/-- A step of the client is a run of it, and one of the server is a run of that. -/
theorem Step.runs (step : Sockets.Step peers s t) :
    Client.Run peers.client.impls anyAct s.client.client t.client.client ∧
      ActRun peers.server.impls s.server.client t.server.client := by
  cases step with
  | clientActs own acts => exact ⟨.single _ acts, .refl⟩
  | clientReads queue clean read dispatched => exact ⟨dispatchEvents_run dispatched, .refl⟩
  | serverActs own acts => exact ⟨.refl, .single _ acts⟩
  | serverReads queue read dispatched => exact ⟨.refl, dispatchClient_run dispatched⟩

/-- All messages that have been sent frame themselves. -/
structure AllFramed (s : Sockets α β) : Prop where
  upstream : ∀ message ∈ s.upstream, Framed message
  downstream : ∀ message ∈ s.downstream, Framed message

/-- What has been sent before a step had been framed, if what has been sent after it is. -/
theorem Step.framed (step : Sockets.Step peers s t) (kept : Kept s.client.client)
    (framed : AllFramed t) : AllFramed s := by
  obtain ⟨client, server⟩ := step.runs
  have grows := (run_keeps client kept).2.1
  refine ⟨fun message listed => framed.upstream _ ?_, fun message listed => framed.downstream _ ?_⟩
  · obtain ⟨sent, member, rfl⟩ := List.mem_map.mp listed
    exact List.mem_map_of_mem (grows.subset member)
  · exact server.sent_grows.subset listed

end Sockets

/-- All messages that have been sent have fewer than `2 ^ 28` bytes and descriptors. -/
structure Sockets.AllSmall (s : Sockets α β) : Prop where
  upstream : ∀ message ∈ s.upstream, Tracing.Small message
  downstream : ∀ message ∈ s.downstream, Tracing.Small message

/-- **What the ends have sent frames itself**, if it is short. -/
theorem Sockets.AllSmall.framed {peers : Peers α β} {memory : α} {memory' : β} {w : Sockets α β}
    (small : w.AllSmall) (run : Sockets.Run peers (.opened memory memory') w) : w.AllFramed := by
  have sends : Composed w.client.client ∧ ∀ message ∈ w.downstream, Tracing.Sendable message := by
    clear small
    induction run with
    | refl => exact ⟨.opened, fun _ none => absurd none List.not_mem_nil⟩
    | tail _ step ih =>
        obtain ⟨client, server⟩ := step.runs
        exact ⟨.run client ih.1, server.sendable ih.2⟩
  obtain ⟨composed, sendable⟩ := sends
  refine ⟨fun message listed => ?_, fun message listed => ?_⟩
  · obtain ⟨sent, member, rfl⟩ := List.mem_map.mp listed
    exact (composed.sent sent member).framed (small.upstream _ listed)
  · exact (sendable message listed).framed (small.downstream _ listed)

/-! ## Reads -/

/-- What the server does for itself. -/
def OwnTrace (trace : List Performed) : Prop :=
  ∀ performed ∈ trace, (Event.server performed.act).IsOwn

/-- What the client does for itself. A roundtrip is the application's. -/
def ownAct (_ : CClientSocket) (act : Client.Act) : Prop :=
  (Event.client act).IsOwn ∧ act ≠ .roundtrip

/-- One more act of the client for itself. -/
theorem Own.step {impls : Client.Impls} {client next last : CClientSocket} {act : Client.Act}
    (run : Client.Run impls ownAct client next) (acts : next.act impls act = some (.ok last))
    (own : (Event.client act).IsOwn) (other : act ≠ .roundtrip) :
    Client.Run impls ownAct client last := run.step ⟨own, other⟩ acts

/-- What follows a batch is an act of the server. -/
theorem afterBatch_act (impls : Server.Impls) (result : EMessageParsingResult) (s : ServerState α) :
    ∃ act, s.client.act impls act = some (.ok (afterBatch result s).client) ∧
      (Event.server act).IsOwn := by
  by_cases parsed : result = .parsedOk
  · refine ⟨.answer, ?_, trivial⟩
    simp only [CServerClient.act, CServerClient.answer, afterBatch, parsed, ne_eq, not_true, if_false]
    split <;> rfl
  · refine ⟨.fail "fatal: failed to handle message on wire", ?_, trivial⟩
    simp only [CServerClient.act, afterBatch, ne_eq, parsed, not_false_eq_true, if_true]
    rfl

/-- What a read of framed messages comes to on the server: some are taken, and then the server
does what follows a batch. An error is the only reason not to take them all. -/
theorem dispatchClient_framed {cfg : Server.Config α} (ample : cfg.heap = .ample) {turns : Nat}
    {vector : ByteVec} {outside : Nat → Option UInt8} {messages : List Message}
    {s t : ServerState α} {handled : List Received} (framed : ∀ message ∈ messages, Framed message)
    (bytes : vector.data = messageData messages)
    (dispatched : dispatchClient cfg turns (some ⟨vector.viewIn outside, messageFds messages⟩) s =
      some (.ok (t, handled))) :
    ∃ taken left last trace, messages = taken ++ left ∧
      List.Forall₂ (Delivered .server) taken handled ∧
      Takes (Server.receiver cfg) s handled last ∧ Trace cfg.impls last.client trace t.client ∧
      OwnTrace trace ∧ (t.client.error = false → left = []) := by
  by_cases empty : (vector.viewIn outside).size = 0
  · rw [dispatchClient_empty empty] at dispatched
    cases dispatched
    refine ⟨[], messages, s, [], rfl, .nil, .nil, .nil, fun _ none => absurd none List.not_mem_nil,
      fun _ => ?_⟩
    cases messages with
    | nil => rfl
    | cons message rest =>
        have none : vector.data = [] := List.length_eq_zero_iff.mp empty
        rw [bytes] at none
        exact absurd (List.append_eq_nil_iff.mp none).1
          (framed message List.mem_cons_self).data_ne_nil
  · obtain ⟨h, run, rfl, rfl⟩ := (dispatchClient_eq_ok empty).mp dispatched
    obtain ⟨taken, left, last, all, delivered, takes, ends⟩ :=
      @handleMessage_framed _ .server (Server.receiver cfg) _ _ _ _ _ _
        (congrArg parseServer ample) framed bytes run
    obtain ⟨act, acts, own⟩ := afterBatch_act cfg.impls h.result h.conn
    cases ends with
    | refused result conn =>
        have errs : (afterBatch h.result h.conn).client.error = true := by
          rw [result]
          rfl
        have never : (afterBatch h.result h.conn).client.error = false → left = [] := by
          intro fine
          rw [errs] at fine
          cases fine
        rcases conn with rfl | same
        · exact ⟨taken, left, h.conn, _, all, delivered, takes, .single acts,
            List.forall_mem_singleton.mpr own, never⟩
        · have refuses : last.client.act cfg.impls .refuse = some (.ok h.conn.client) := by
            rw [same]
            rfl
          exact ⟨taken, left, last, _, all, delivered, takes, .cons refuses (.single acts),
            List.forall_mem_cons.mpr ⟨trivial, List.forall_mem_singleton.mpr own⟩, never⟩
    | behind none result conn =>
        subst conn
        exact ⟨taken, left, h.conn, _, all, delivered, takes, .single acts,
          List.forall_mem_singleton.mpr own, fun _ => none⟩
    | stopped stops conn =>
        subst conn
        refine ⟨taken, left, h.conn, _, all, delivered, takes, .single acts,
          List.forall_mem_singleton.mpr own, fun fine => ?_⟩
        rw [act_error acts stops] at fine
        cases fine

/-- What a read of framed messages comes to on the client. -/
theorem dispatchEvents_framed {cfg : Client.Config β} (ample : cfg.heap = .ample) {turns : Nat}
    {vector : ByteVec} {outside : Nat → Option UInt8} {messages : List Message}
    {s t : ClientState β} {goesOn : Bool} {handled : List Received}
    (framed : ∀ message ∈ messages, Framed message) (bytes : vector.data = messageData messages)
    (clean : s.client.error = false)
    (dispatched : dispatchEvents cfg turns
      (.readable (some ⟨vector.viewIn outside, messageFds messages⟩)) s =
        some (.ok (goesOn, t, handled))) :
    ∃ taken left last, messages = taken ++ left ∧
      List.Forall₂ (Delivered .client) taken handled ∧
      Takes (Client.receiver cfg) s handled last ∧
      Client.Run cfg.impls ownAct last.client t.client ∧ (t.client.error = false → left = []) := by
  obtain ⟨u, parsed, after⟩ := dispatchEvents_parseRead dispatched
  have flushes : Client.Run cfg.impls ownAct u.client t.client := by
    rcases after with rfl | rfl
    · exact .refl
    · exact @Own.step _ _ _ _ .flushPending .refl rfl trivial fun same => by cases same
  have errs : u.client.error = true → t.client.error = true := by
    rcases after with rfl | rfl
    · exact id
    · exact fun set => (flushPending_error u.client).trans set
  rw [parseRead] at parsed
  split at parsed
  · next idle =>
    have empty : vector.data = [] := by
      rcases idle with fails | none
      · rw [clean] at fails
        cases fails
      · exact List.length_eq_zero_iff.mp none
    cases parsed
    refine ⟨[], messages, s, rfl, .nil, .nil, flushes, fun _ => ?_⟩
    cases messages with
    | nil => rfl
    | cons message rest =>
        rw [bytes] at empty
        exact absurd (List.append_eq_nil_iff.mp empty).1
          (framed message List.mem_cons_self).data_ne_nil
  · obtain ⟨result, run, rest⟩ := Option.map_eq_some_iff.mp parsed
    obtain ⟨h, rfl, same⟩ := map_eq_ok.mp rest
    cases same
    obtain ⟨taken, left, last, all, delivered, takes, ends⟩ :=
      @handleMessage_framed _ .client (Client.receiver cfg) _ _ _ _ _ _
        (congrArg parseClient ample) framed bytes run
    cases ends with
    | refused result conn =>
        have lost : afterParse h.result h.conn =
            { h.conn with client := h.conn.client.disconnectOnError } := by
          rw [result]
          rfl
        have fails : t.client.error = true := errs (by rw [lost]; rfl)
        rw [lost] at flushes
        have never : t.client.error = false → left = [] := by
          intro fine
          rw [fails] at fine
          cases fine
        have first : Client.Run cfg.impls ownAct last.client h.conn.client.disconnectOnError := by
          rcases conn with rfl | same
          · exact @Own.step _ _ _ _ .disconnectOnError .refl rfl trivial fun same => by cases same
          · have refuses : Client.Run cfg.impls ownAct last.client h.conn.client := by
              rw [same]
              exact @Own.step _ _ _ _ .refuse .refl rfl trivial fun same => by cases same
            exact @Own.step _ _ _ _ .disconnectOnError refuses rfl trivial fun same => by cases same
        exact ⟨taken, left, last, all, delivered, takes, first.trans flushes, never⟩
    | behind none result conn =>
        have same : afterParse h.result h.conn = h.conn := by
          rw [result]
          rfl
        subst conn
        rw [same] at flushes
        exact ⟨taken, left, h.conn, all, delivered, takes, flushes, fun _ => none⟩
    | stopped stops conn => cases stops

end Hyprwire.Link
