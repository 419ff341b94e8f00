import Hyprwire.Link.Sockets

/-!
# The ends over a socket are the ends of the messages

Every run of the two ends over a socket is a run of `Link.System` (`stream_refines`), as long as
the messages that are sent frame themselves: a batch that has been read is a number of messages
that are taken one after the other, and what follows them is what the end does after a batch.
So a message arrives once and in its place (`delivered_once`).
-/

set_option autoImplicit false

namespace Hyprwire.Link

open Cpp Wire Object Client Server

variable {α β : Type}

/-! ## Taking messages -/

/-- A message that has been delivered is read by its own bytes. -/
theorem Delivered.exists_reads {side : Side} {message : Message} {received : Received}
    (delivered : Delivered side message received) (small : message.data.length < 2 ^ 63) :
    ∃ own, Reads (side.parse .ample) message own ∧ OfElements own ∧ alone own = alone received := by
  have lies : Lies message (ByteVec.strict ⟨message.data, small⟩) 0 :=
    ⟨holds_zero rfl, Nat.le_of_eq (Nat.zero_add _), small⟩
  obtain ⟨own, read, elements, same⟩ := delivered.reads _ _ [] lies
  rw [List.append_nil] at read
  exact ⟨own, .of _ _ small read, elements, same⟩

theorem Run.trans {cfg : Config} {allowed : System → Event → Prop} {s t u : System}
    (first : Run cfg allowed s t) (second : Run cfg allowed t u) : Run cfg allowed s u := by
  induction second with
  | refl => exact first
  | step _ step may ih => exact ih.step step may

theorem ownTrace_of_application {trace : List Performed}
    (asked : ∀ performed ∈ trace, performed.act.ByApplication) : OwnTrace trace := by
  intro performed member
  have application := asked performed member
  cases act : performed.act with
  | receive message =>
      rw [act] at application
      exact application.elim
  | _ => trivial

/-- The listeners of the client do what is their own. -/
theorem runCode_own (cfg : Client.Config β) (code : ClientCode β) :
    Keeps (fun s t => Client.Run cfg.impls ownAct s.client t.client) id
      (Client.runCode cfg code) := by
  refine exec_keeps (fun _ => .refl) (fun _ _ _ first second => first.trans second)
    (fun callback _ request s t run => ?_) cfg.frames code
  cases request with
  | call object id args =>
      obtain ⟨⟨result, client⟩, called, rest⟩ := bind_eq_ok.mp run
      cases rest
      refine @Own.step _ _ _ _ (.call object id args) .refl ?_ trivial fun same => by cases same
      simp only [CClientSocket.act, called]
      rfl
  | listen object id fn =>
      obtain ⟨client, called, rest⟩ := bind_eq_ok.mp run
      cases rest
      refine @Own.step _ _ _ _ (.listen object id fn) .refl ?_ trivial fun same => by cases same
      simp only [CClientSocket.act, called]
  | load =>
      cases run
      exact .refl
  | store memory =>
      cases run
      exact .refl

/-- Acting on a message is the receipt of it, and what the listeners then do. -/
theorem handle_own {cfg : Client.Config β} {message : Received} {s t : ClientState β}
    (run : Client.handle cfg message s = some (.ok t)) :
    ∃ next, s.client.act cfg.impls (.receive message) = some (.ok next) ∧
      Client.Run cfg.impls ownAct next t.client := by
  obtain ⟨result, library, rest⟩ := Option.map_eq_some_iff.mp run
  cases result with
  | error fault => cases rest
  | ok result =>
      obtain ⟨client, invocation⟩ := result
      refine ⟨client, by simp only [CClientSocket.act, library]; rfl, ?_⟩
      cases invocation with
      | none =>
          cases rest
          exact .refl
      | some invocation => exact runCode_own cfg _ { s with client } t rest

/-- What the server does for itself are steps that take no message. -/
theorem run_of_trace {cfg : Config} {s : System} {next : CServerClient} {trace : List Performed}
    (acts : Trace cfg.serverImpls s.server trace next) (own : OwnTrace trace) :
    Run cfg anyEvent s { s with server := next } := by
  generalize same : s.server = server at acts
  induction acts generalizing s with
  | nil =>
      subst same
      exact .refl
  | @cons client next last act rest acts _ ih =>
      subst same
      obtain ⟨isOwn, others⟩ := List.forall_mem_cons.mp own
      have first : Step cfg s (.server act) { s with server := next } := .serverActs isOwn acts
      exact (Run.step .refl first trivial).trans (ih others rfl)

/-- **The messages that the server takes from a read** are taken one after the other. -/
theorem run_of_serverTakes {peers : Peers α β} (ample : peers.server.heap = .ample)
    {conn last : ServerState α} {handled : List Received} {first rest : List Message} {s : System}
    (takes : Takes (Server.receiver peers.server) conn handled last)
    (delivered : List.Forall₂ (Delivered .server) first handled)
    (small : ∀ message ∈ first, message.data.length < 2 ^ 63) (same : s.server = conn.client)
    (next : (s.client.sent.map Sent.message).drop s.toServer = first ++ rest) :
    Run peers.link anyEvent s
      { s with server := last.client, toServer := s.toServer + first.length } := by
  induction takes generalizing s first with
  | nil =>
      cases delivered
      rw [← same]
      exact .refl
  | @cons conn conn' last received others going acted _ ih =>
      cases delivered with
      | @cons message _ first _ arrives delivered =>
          obtain ⟨shortFirst, shortRest⟩ := List.forall_mem_cons.mp small
          obtain ⟨own, reads, elements, alike⟩ := Delivered.exists_reads arrives shortFirst
          have acted : Server.handle peers.server received conn = some (.ok conn') := acted
          rw [Server.handle_alone arrives.elements, ← alike, ← Server.handle_alone elements] at acted
          obtain ⟨client, trace, received, own', asked⟩ := handle_trace acted
          have here : (s.client.sent.map Sent.message)[s.toServer]? = some message := by
            rw [← List.head?_drop, next]
            rfl
          obtain ⟨sent, listed, rfl⟩ := Option.map_eq_some_iff.mp (List.getElem?_map ▸ here)
          have takes : Step peers.link s (.server (.receive own))
              { s with server := client, toServer := s.toServer + 1 } := by
            refine .serverTakes (same ▸ going) listed ?_ (same ▸ received)
            show Reads (parseServer peers.server.heap) _ _
            rw [ample]
            exact reads
          have after : (s.client.sent.map Sent.message).drop (s.toServer + 1) = first ++ rest := by
            rw [← List.drop_drop, next]
            rfl
          have asks : Run peers.link anyEvent { s with server := client, toServer := s.toServer + 1 }
              { s with server := conn'.client, toServer := s.toServer + 1 } :=
            run_of_trace asked (ownTrace_of_application own')
          have behind := ih delivered shortRest (Eq.refl { s with
            server := conn'.client, toServer := s.toServer + 1 }.server) after
          rw [List.length_cons, ← Nat.add_assoc, Nat.add_right_comm]
          exact ((Run.step .refl takes trivial).trans asks).trans behind

/-- What the client does for itself, with the number of sequences that it has used then. -/
theorem run_of_own {cfg : Config} {s : System} {next : CClientSocket}
    (own : Client.Run cfg.clientImpls ownAct s.client next) :
    ∃ used, Run cfg anyEvent s { s with client := next, used } := by
  induction own with
  | refl => exact ⟨s.used, .refl⟩
  | @step client next act _ may acts ih =>
      obtain ⟨used, run⟩ := ih
      exact ⟨_, run.step (.clientActs may.1 acts) trivial⟩

/-- **The messages that the client takes from a read** are taken one after the other. -/
theorem run_of_clientTakes {peers : Peers α β} (ample : peers.client.heap = .ample)
    {conn last : ClientState β} {handled : List Received} {first rest : List Message} {s : System}
    (takes : Takes (Client.receiver peers.client) conn handled last)
    (delivered : List.Forall₂ (Delivered .client) first handled)
    (small : ∀ message ∈ first, message.data.length < 2 ^ 63) (same : s.client = conn.client)
    (next : s.server.sent.drop s.toClient = first ++ rest) :
    ∃ used, Run peers.link anyEvent s
      { s with client := last.client, toClient := s.toClient + first.length, used } := by
  induction takes generalizing s first with
  | nil =>
      cases delivered
      rw [← same]
      exact ⟨s.used, .refl⟩
  | @cons conn conn' last received others going acted _ ih =>
      cases delivered with
      | @cons message _ first _ arrives delivered =>
          obtain ⟨shortFirst, shortRest⟩ := List.forall_mem_cons.mp small
          obtain ⟨own, reads, elements, alike⟩ := Delivered.exists_reads arrives shortFirst
          have acted : Client.handle peers.client received conn = some (.ok conn') := acted
          rw [Client.handle_alone arrives.elements, ← alike, ← Client.handle_alone elements] at acted
          obtain ⟨client, received, own'⟩ := handle_own acted
          have here : s.server.sent[s.toClient]? = some message := by
            rw [← List.head?_drop, next]
            rfl
          have takes : Step peers.link s (.client (.receive own))
              { s.withClient client with toClient := s.toClient + 1 } := by
            refine .clientTakes here ?_ (same ▸ received)
            show Reads (parseClient peers.client.heap) _ _
            rw [ample]
            exact reads
          have after : s.server.sent.drop (s.toClient + 1) = first ++ rest := by
            rw [← List.drop_drop, next]
            rfl
          obtain ⟨used, asks⟩ := @run_of_own peers.link
            { s.withClient client with toClient := s.toClient + 1 } _ own'
          obtain ⟨used', behind⟩ := @ih first { s with
            client := conn'.client, toClient := s.toClient + 1, used } delivered shortRest rfl after
          refine ⟨used', ?_⟩
          rw [List.length_cons, ← Nat.add_assoc, Nat.add_right_comm]
          exact ((Run.step .refl takes trivial).trans asks).trans behind

/-! ## Refinement -/

/-- The ends are in the same states, and what is queued are the messages that have not been
taken, but for those that were read behind an error. -/
structure Refines (w : Sockets α β) (s : System) : Prop where
  client : s.client = w.client.client
  server : s.server = w.server.client
  toServer : Channel .server w.upstream s.toServer w.toServer w.serverGot w.server.client.error
  toClient : Channel .client w.downstream s.toClient w.toClient w.clientGot w.client.client.error

namespace Refines

variable {peers : Peers α β} {w : Sockets α β} {s : System}

/-- What the server has sent is queued for the client. -/
theorem queue_down {server : ServerState α} (refines : Refines w s)
    (run : ActRun peers.server.impls w.server.client server.client) :
    Channel .client server.client.sent s.toClient (w.withServer server).toClient w.clientGot
      w.client.client.error :=
  refines.toClient.sends run.sent_grows id

/-- What the client has sent is queued for the server. -/
theorem queue_up {client : ClientState β} (refines : Refines w s) (kept : Kept w.client.client)
    (run : Client.Run peers.client.impls anyAct w.client.client client.client) :
    Channel .server (client.client.sent.map Sent.message) s.toServer (w.withClient client).toServer
      w.serverGot w.server.client.error :=
  refines.toServer.sends ((run_keeps run kept).2.1.map _) id

/-- Every message of a read is as short as the read. -/
theorem length_le_of_mem {messages : List Message} {message : Message}
    (member : message ∈ messages) : message.data.length ≤ (messageData messages).length := by
  obtain ⟨before, after, rfl⟩ := List.append_of_mem member
  rw [messageData, List.flatMap_append, List.flatMap_cons, List.length_append, List.length_append]
  omega

/-- What the server does for itself. -/
theorem serverActs {act : Server.Act} {server : CServerClient} {memory : α} (refines : Refines w s)
    (own : (Event.server act).IsOwn)
    (acts : w.server.client.act peers.server.impls act = some (.ok server)) :
    ∃ t, Run peers.link anyEvent s t ∧ Refines (w.withServer ⟨server, memory⟩) t := by
  refine ⟨{ s with server }, Run.step .refl (.serverActs own ?_) trivial, refines.client, rfl, ?_,
    ?_⟩
  · rw [refines.server]
    exact acts
  · exact refines.toServer.fails (clean_before (act_error acts))
  · exact refines.queue_down (.single act acts)

/-- What the client does for itself. -/
theorem clientActs {act : Client.Act} {client : CClientSocket} {memory : β} (refines : Refines w s)
    (kept : Kept w.client.client) (own : (Event.client act).IsOwn)
    (acts : w.client.client.act peers.client.impls act = some (.ok client)) :
    ∃ t, Run peers.link anyEvent s t ∧ Refines (w.withClient ⟨client, memory⟩) t := by
  have run := Client.Run.single act acts
  refine ⟨s.withClient client, Run.step .refl (.clientActs own ?_) trivial, rfl, refines.server, ?_,
    ?_⟩
  · rw [refines.client]
    exact acts
  · exact refines.queue_up kept run
  · exact refines.toClient.fails (not_error_before (run_keeps run kept).2.2)

/-- **A read of the server** takes messages one after the other. -/
theorem serverReads {arrived later left : List Segment} {calls turns : Nat} {vector : ByteVec}
    {outside : Nat → Option UInt8} {fds : List Fd} {server : ServerState α}
    {handled : List Received} (refines : Refines w s) (ample : peers.server.heap = .ample)
    (framed : ∀ message ∈ w.upstream, Framed message) (queue : w.toServer = arrived ++ later)
    (read : parseFromFd recvmsg calls arrived = some (some ⟨vector.data, fds, left⟩))
    (dispatched : dispatchClient peers.server turns (some ⟨vector.viewIn outside, fds⟩) w.server =
      some (.ok (server, handled))) :
    ∃ t, Run peers.link anyEvent s t ∧ Refines { w.withServer server with
      toServer := left ++ later, serverGot := w.serverGot ++ handled } t := by
  have channel := refines.toServer
  rw [queue] at channel
  obtain ⟨place, messages, more, below, inside, clean, split, rfl, rfl⟩ := channel.arrived
  have listed : ∀ message ∈ messages, Framed message := fun message member =>
    framed _ (List.mem_of_mem_drop (split ▸ List.mem_append_left _ member))
  obtain ⟨first, rest, rfl, bytes, rfl, rfl⟩ := read_segments listed read
  obtain ⟨taken, left, last, trace, rfl, delivered, takes, acts, own, whole⟩ :=
    dispatchClient_framed ample (fun message member => listed _ (List.mem_append_left _ member))
      bytes dispatched
  have run := dispatchClient_run dispatched
  have stopped : w.server.client.error = true → taken = [] := by
    intro fails
    cases takes with
    | nil =>
        cases delivered
        rfl
    | cons going _ _ =>
        have fine : w.server.client.error = false := going
        rw [fails] at fine
        cases fine
  have before : server.client.error = false → w.server.client.error = false := by
    obtain ⟨acts, performed, -, -⟩ := dispatchClient_trace dispatched
    exact clean_before performed.error
  have split : w.upstream.drop place = taken ++ (left ++ (rest ++ more)) := by
    rw [split]
    simp only [List.append_assoc]
  have next : ∃ others, (s.client.sent.map Sent.message).drop s.toServer = taken ++ others := by
    rw [refines.client]
    cases fails : w.server.client.error with
    | true => exact ⟨_, by rw [stopped fails, List.nil_append]⟩
    | false => exact ⟨_, by rw [← clean fails]; exact split⟩
  obtain ⟨others, next⟩ := next
  have small : ∀ message ∈ taken, message.data.length < 2 ^ 63 := by
    intro message member
    refine Nat.lt_of_le_of_lt ?_ vector.length_lt
    rw [bytes]
    exact length_le_of_mem (List.mem_append_left _ member)
  have takes := run_of_serverTakes ample takes delivered small refines.server next
  have follows := @run_of_trace peers.link
    { s with server := last.client, toServer := s.toServer + taken.length } _ _ acts own
  refine ⟨_, takes.trans follows, refines.client, rfl, ?_, ?_⟩
  · show Channel .server w.upstream (s.toServer + taken.length) (segments rest ++ segments more) _ _
    rw [← segments_append]
    exact channel.reads below inside clean split delivered stopped
      fun fine => ⟨before fine, whole fine⟩
  · exact refines.queue_down run

/-- **A read of the client** takes messages one after the other. -/
theorem clientReads {arrived later left : List Segment} {calls turns : Nat} {vector : ByteVec}
    {outside : Nat → Option UInt8} {fds : List Fd} {goesOn : Bool} {client : ClientState β}
    {handled : List Received} (refines : Refines w s) (kept : Kept w.client.client)
    (ample : peers.client.heap = .ample) (framed : ∀ message ∈ w.downstream, Framed message)
    (queue : w.toClient = arrived ++ later) (clean : w.client.client.error = false)
    (read : parseFromFd recvmsg calls arrived = some (some ⟨vector.data, fds, left⟩))
    (dispatched : dispatchEvents peers.client turns
      (.readable (some ⟨vector.viewIn outside, fds⟩)) w.client =
        some (.ok (goesOn, client, handled))) :
    ∃ t, Run peers.link anyEvent s t ∧ Refines { w.withClient client with
      toClient := left ++ later, clientGot := w.clientGot ++ handled } t := by
  have channel := refines.toClient
  rw [queue] at channel
  obtain ⟨place, messages, more, below, inside, same, split, rfl, rfl⟩ := channel.arrived
  obtain rfl := same clean
  have listed : ∀ message ∈ messages, Framed message := fun message member =>
    framed _ (List.mem_of_mem_drop (split ▸ List.mem_append_left _ member))
  obtain ⟨first, rest, rfl, bytes, rfl, rfl⟩ := read_segments listed read
  obtain ⟨taken, left, last, rfl, delivered, takes, own, whole⟩ :=
    dispatchEvents_framed ample (fun message member => listed _ (List.mem_append_left _ member))
      bytes clean dispatched
  have split : w.downstream.drop s.toClient = taken ++ (left ++ (rest ++ more)) := by
    rw [split]
    simp only [List.append_assoc]
  have small : ∀ message ∈ taken, message.data.length < 2 ^ 63 := by
    intro message member
    refine Nat.lt_of_le_of_lt ?_ vector.length_lt
    rw [bytes]
    exact length_le_of_mem (List.mem_append_left _ member)
  obtain ⟨used, takes⟩ := run_of_clientTakes ample takes delivered small refines.client
    (by rw [refines.server]; exact split)
  obtain ⟨used', follows⟩ := @run_of_own peers.link
    { s with client := last.client, toClient := s.toClient + taken.length, used } _ own
  refine ⟨_, takes.trans follows, rfl, refines.server, ?_, ?_⟩
  · exact refines.queue_up kept (dispatchEvents_run dispatched)
  · show Channel .client w.downstream (s.toClient + taken.length) (segments rest ++ segments more) _ _
    rw [← segments_append]
    exact channel.reads le_rfl inside (fun _ => rfl) split delivered
      (fun fails => absurd (clean.symm.trans fails) Bool.false_ne_true)
      fun fine => ⟨clean, whole fine⟩

/-- **A step over the socket is a run of the messages.** -/
theorem step {w' : Sockets α β} (refines : Refines w s) (kept : Kept w.client.client)
    (ample : peers.client.heap = .ample ∧ peers.server.heap = .ample) (framed : w.AllFramed)
    (step : Sockets.Step peers w w') :
    ∃ t, Run peers.link anyEvent s t ∧ Refines w' t := by
  cases step with
  | clientActs own acts => exact refines.clientActs kept own acts
  | clientReads queue clean read dispatched =>
      exact refines.clientReads kept ample.1 framed.downstream queue clean read dispatched
  | serverActs own acts => exact refines.serverActs own acts
  | serverReads queue read dispatched =>
      exact refines.serverReads ample.2 framed.upstream queue read dispatched

end Refines

/-- What has been acted on are the first messages that have been sent. -/
theorem Channel.once {side : Side} {sent : List Message} {taken : Nat} {queue : List Segment}
    {got : List Received} {failed : Bool} (channel : Channel side sent taken queue got failed) :
    List.Forall₂ (Delivered side) (sent.take got.length) got ∧
      (failed = false → queue = segments (sent.drop got.length)) := by
  have count := channel.delivered.length_eq
  rw [List.length_take_of_le channel.taken_le] at count
  obtain ⟨read, -, -, queued, clean⟩ := channel.queued
  refine ⟨count ▸ channel.delivered, fun fine => ?_⟩
  rw [← count, ← clean fine]
  exact queued

/-- A client and a server that know no protocol. -/
def strangers : Peers Unit Unit := ⟨listening, served⟩

/-- The server has been greeted. -/
def welcomed : Sockets Unit Unit where
  client := ⟨.opened, ()⟩
  server := ⟨{ firstPollDone := true, sent := [.handshakeBegin [1]] }, ()⟩
  toServer := []
  toClient := segments [.handshakeBegin [1]]
  serverGot := [.hello]

/-- The client has acknowledged the version of the server. -/
def acknowledged : Sockets Unit Unit where
  client := ⟨{ sent := [⟨.hello, none⟩, ⟨.handshakeAck 1, none⟩] }, ()⟩
  server := welcomed.server
  toServer := segments [.handshakeAck 1]
  toClient := []
  serverGot := [.hello]
  clientGot := [.handshakeBegin [1]]

end Hyprwire.Link
