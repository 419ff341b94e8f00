import Hyprwire.Cpp.Trail
import Hyprwire.Link.Quiescent
import Hyprwire.Link.Directions
import Hyprwire.Link.Replica

/-!
# Coming to rest

When neither application does anything, the ends still take messages, answer roundtrips and send
the calls that have waited. Each message leads to few others, so this comes to an end after a
number of steps that is known beforehand (`System.work`, `settles`).
-/

set_option autoImplicit false

namespace Hyprwire.Link

open Cpp Wire Object Client Server

/-! ## Work -/

/-- The number of steps that a message leads to at most. -/
def weight : EMessageType → Nat
  | .sup => 4
  | .handshakeBegin => 3
  | .roundtripRequest => 3
  | .handshakeAck => 2
  | .bindProtocol => 2
  | .genericProtocolMessage => 2
  | _ => 1

theorem weight_pos (type : EMessageType) : 0 < weight type := by
  cases type <;> decide

/-- The number of steps that messages lead to at most. -/
def load (messages : List Message) : Nat := (messages.map fun message => weight message.type).sum

theorem load_append (first second : List Message) :
    load (first ++ second) = load first + load second := by
  rw [load, List.map_append, List.sum_append, load, load]

/-- The load without the message that is taken. -/
theorem load_drop {messages : List Message} {place : Nat} {message : Message}
    (next : messages[place]? = some message) :
    load (messages.drop place) = weight message.type + load (messages.drop (place + 1)) := by
  obtain ⟨inside, rfl⟩ := List.getElem?_eq_some_iff.mp next
  rw [List.drop_eq_getElem_cons inside]
  rfl

/-- The load with more messages. -/
theorem load_drop_append {messages new : List Message} {place : Nat}
    (inside : place ≤ messages.length) :
    load ((messages ++ new).drop place) = load (messages.drop place) + load new := by
  rw [List.drop_append_of_le_length inside, load_append]

/-- The answer that is scheduled. -/
def owed (server : CServerClient) : Nat := if server.scheduledRoundtripSeq = 0 then 0 else 2

theorem owed_le (server : CServerClient) : owed server ≤ 2 := by
  rw [owed]
  split <;> omega

/-- The number of steps that are made at most when the applications do nothing. -/
def System.work (s : System) : Nat :=
  load (s.upstream.drop s.toServer) + load (s.server.sent.drop s.toClient) + owed s.server +
    3 * s.client.pendingOutgoing.length

/-! ## What a step leads to -/

/-- The server takes a message: what it sends and what it schedules are less than the message. -/
theorem server_receive_work {impls : Server.Impls} {server next : CServerClient}
    {received : Received} (acts : server.act impls (.receive received) = some (.ok next)) :
    ∃ new, next.sent = server.sent ++ new ∧
      load new + owed next + 1 ≤ weight received.type + owed server := by
  have some_ := weight_pos received.type
  have most := owed_le next
  have stays : owed next ≤ owed server ∨ ∃ seq, received = .roundtripRequest seq := by
    cases act_answers acts with
    | quiet same => exact .inl (by rw [owed, same.scheduled, owed])
    | scheduled seq asked => cases asked; exact .inr ⟨seq, rfl⟩
    | answered _ _ scheduled => exact .inl (by rw [owed, if_pos scheduled]; exact Nat.zero_le _)
  rcases act_utters acts with same | ⟨message, sent, utters⟩
  · refine ⟨[], by rw [same, List.append_nil], ?_⟩
    rw [show load [] = 0 from rfl]
    rcases stays with same | ⟨seq, rfl⟩
    · omega
    · rw [show weight (Received.roundtripRequest seq).type = 3 from rfl]
      omega
  · refine ⟨[message], sent, ?_⟩
    have same : owed next ≤ owed server := by
      refine stays.resolve_right ?_
      rintro ⟨seq, rfl⟩
      cases utters
    have less : load [message] + 1 ≤ weight received.type := by
      cases utters <;> exact Nat.le_refl _
    omega

/-- The client takes a message: what it sends is less than the message. -/
theorem client_receive_work {impls : Client.Impls} {client next : CClientSocket}
    {received : Received} (acts : client.act impls (.receive received) = some (.ok next)) :
    ∃ new, next.sent = client.sent ++ new ∧
      load (new.map Sent.message) + 1 ≤ weight received.type ∧
      next.pendingOutgoing = client.pendingOutgoing := by
  obtain ⟨result, run, rest⟩ := Option.map_eq_some_iff.mp acts
  obtain ⟨⟨_, invocation⟩, rfl, rfl⟩ := map_eq_ok.mp rest
  have nothing : ∀ next : CClientSocket, next.sent = client.sent →
      next.pendingOutgoing = client.pendingOutgoing → ∃ new, next.sent = client.sent ++ new ∧
        load (new.map Sent.message) + 1 ≤ weight received.type ∧
        next.pendingOutgoing = client.pendingOutgoing :=
    fun _ sent waits => ⟨[], sent.trans (List.append_nil _).symm, weight_pos _, waits⟩
  cases received with
  | handshakeBegin versions =>
      cases run
      simp only [CClientSocket.sendMessage]
      split
      · exact ⟨_, rfl, Nat.le_refl 3, rfl⟩
      · exact nothing _ rfl rfl
  | handshakeProtocols names =>
      cases run
      obtain ⟨specs, error, isOpen, same, -⟩ := client.addServerSpecs_eq names
      rw [CClientSocket.takeServerSpecs, same]
      exact nothing _ rfl rfl
  | newObject seq id =>
      cases run
      rw [CClientSocket.onSeq]
      split <;> exact nothing _ rfl rfl
  | generic msg =>
      rw [(CClientSocket.onGeneric_eq_ok run).1]
      exact nothing _ rfl rfl
  | _ => cases run; exact nothing _ rfl rfl

/-- A call that waits stays, is sent, or is dropped. -/
theorem flushed_le (client : CClientSocket) (waits : List Pending) :
    load ((waits.filterMap client.resolved).map Sent.message) +
        3 * (waits.filter client.keeps).length + waits.countP (fun p => !client.keeps p) ≤
      3 * waits.length := by
  induction waits with
  | nil => exact Nat.le_refl 0
  | cons pending waits ih =>
      rw [List.filterMap_cons, List.filter_cons, List.countP_cons, List.length_cons]
      cases found : client.resolved pending with
      | none =>
          cases client.keeps pending <;> simp <;> omega
      | some sent =>
          obtain ⟨data, fds, is⟩ := CClientSocket.resolved_generic found
          have goes : client.keeps pending = false := by
            rw [CClientSocket.resolved] at found
            rw [CClientSocket.keeps]
            cases waiting : client.waiting pending.msg with
            | keep => rw [waiting] at found; cases found
            | _ => rfl
          have first : load ((sent :: waits.filterMap client.resolved).map Sent.message) =
              2 + load ((waits.filterMap client.resolved).map Sent.message) := by
            rw [List.map_cons, is]
            rfl
          simp only [first, goes, Bool.not_false, if_true, Bool.false_eq_true, if_false]
          omega

/-- **The flush does less than the calls that have waited**, when one of them does not stay. -/
theorem flush_work {client : CClientSocket}
    (ready : ∃ pending ∈ client.pendingOutgoing, client.keeps pending = false) :
    ∃ new, client.flushPending.sent = client.sent ++ new ∧
      load (new.map Sent.message) + 3 * client.flushPending.pendingOutgoing.length + 1 ≤
        3 * client.pendingOutgoing.length := by
  have less := flushed_le client client.pendingOutgoing
  have goes : 0 < client.pendingOutgoing.countP fun p => !client.keeps p := by
    obtain ⟨pending, listed, out⟩ := ready
    exact List.countP_pos_iff.mpr ⟨pending, listed, by rw [out]; rfl⟩
  rw [CClientSocket.flushPending_eq, CClientSocket.write]
  split
  · exact ⟨_, rfl, by simp only at less ⊢; omega⟩
  · refine ⟨[], (List.append_nil _).symm, ?_⟩
    rw [show load (List.map Sent.message []) = 0 from rfl]
    simp only
    omega

/-! ## Silent steps -/

/-- What the ends do when neither application does anything. -/
def silent (s : System) : Event → Prop
  | .client (.receive _) => True
  | .client .flushPending => ∃ pending ∈ s.client.pendingOutgoing, s.client.keeps pending = false
  | .server (.receive _) => True
  | .server .answer => 0 < s.server.scheduledRoundtripSeq
  | _ => False

/-- A silent step. -/
def Silently (cfg : Config) (s : System) (event : Event) (t : System) : Prop :=
  Step cfg s event t ∧ silent s event

/-- The messages start with their codes, and the ends have taken messages that were sent. -/
structure Lined (s : System) : Prop where
  kept : Kept s.client
  up : ∀ sent ∈ s.client.sent, Tagged sent.message
  down : ∀ message ∈ s.server.sent, Tagged message
  tookUp : s.toServer ≤ s.client.sent.length
  tookDown : s.toClient ≤ s.server.sent.length

theorem lined_start : Lined {} where
  kept := kept_opened
  up := List.forall_mem_singleton.mpr trivial
  down _ none := absurd none List.not_mem_nil
  tookUp := Nat.zero_le _
  tookDown := Nat.zero_le _

namespace Lined

variable {cfg : Config} {s t : System} {event : Event}

theorem client {impls : Client.Impls} {client : CClientSocket} {act : Client.Act} {toClient : Nat}
    (lined : Lined s) (acts : s.client.act impls act = some (.ok client))
    (inside : toClient ≤ s.server.sent.length) :
    Lined { s.withClient client with toClient } := by
  have asks := act_asks lined.kept.headed acts
  exact { kept := lined.kept.act acts, up := asks.tagged lined.up, down := lined.down
          tookUp := lined.tookUp.trans asks.prefix_sent.length_le, tookDown := inside }

theorem server {impls : Server.Impls} {server : CServerClient} {act : Server.Act} {toServer : Nat}
    (lined : Lined s) (acts : s.server.act impls act = some (.ok server))
    (inside : toServer ≤ s.client.sent.length) : Lined { s with server, toServer } := by
  obtain ⟨announced, new, sent, tagged, -⟩ := (act_creates acts).sends
  have grows := (sent_of_act acts).length_le
  refine { kept := lined.kept, up := lined.up, down := ?_, tookUp := inside
           tookDown := lined.tookDown.trans grows }
  show ∀ message ∈ server.sent, _
  rw [sent]
  exact List.forall_mem_append.mpr ⟨lined.down, tagged⟩

/-- A step leaves the messages in line. -/
theorem step (lined : Lined s) (step : Step cfg s event t) : Lined t := by
  cases step with
  | clientActs own acts => exact lined.client acts lined.tookDown
  | clientTakes next reads acts =>
      exact lined.client acts (List.getElem?_eq_some_iff.mp next).1
  | serverActs own acts => exact lined.server acts lined.tookUp
  | serverTakes clean next reads acts =>
      exact lined.server acts (List.getElem?_eq_some_iff.mp next).1

/-- The work when the client has sent more. -/
theorem work_client (lined : Lined s) {client : CClientSocket} {toClient : Nat} {new : List Sent}
    (sent : client.sent = s.client.sent ++ new) :
    ({ s.withClient client with toClient } : System).work =
      load (s.upstream.drop s.toServer) + load (new.map Sent.message) +
        load (s.server.sent.drop toClient) + owed s.server + 3 * client.pendingOutgoing.length := by
  have inside : s.toServer ≤ s.upstream.length := by
    rw [System.upstream, List.length_map]
    exact lined.tookUp
  have grown : ({ s.withClient client with toClient } : System).upstream =
      s.upstream ++ new.map Sent.message := by
    show client.sent.map Sent.message = _
    rw [sent, List.map_append, System.upstream]
  rw [System.work, grown]
  show load ((s.upstream ++ new.map Sent.message).drop s.toServer) + _ + _ + _ = _
  rw [load_drop_append inside]
  rfl

/-- The work when the server has sent more. -/
theorem work_server (lined : Lined s) {server : CServerClient} {toServer : Nat}
    {new : List Message} (sent : server.sent = s.server.sent ++ new) :
    ({ s with server, toServer } : System).work =
      load (s.upstream.drop toServer) + (load (s.server.sent.drop s.toClient) + load new) +
        owed server + 3 * s.client.pendingOutgoing.length := by
  rw [System.work, ← load_drop_append lined.tookDown, ← sent]
  rfl

/-- **A silent step leaves less work.** -/
theorem work_lt (lined : Lined s) (step : Silently cfg s event t) : t.work + 1 ≤ s.work := by
  obtain ⟨step, may⟩ := step
  cases step with
  | @clientActs act client own acts =>
      cases act with
      | flushPending =>
          cases acts
          obtain ⟨new, sent, less⟩ := flush_work may
          have after := @work_client s lined s.client.flushPending s.toClient new sent
          rw [show ({ s.withClient s.client.flushPending with toClient := s.toClient } : System) =
            s.withClient s.client.flushPending from rfl] at after
          rw [after, System.work]
          omega
      | receive => cases own
      | _ => cases may
  | @clientTakes message received client next reads acts =>
      have type : message.type = received.type := by
        obtain ⟨data, len, left, bytes, read⟩ := reads
        exact type_eq (lined.down _ (List.mem_of_getElem? next)) bytes (parseClient_message read).1
      obtain ⟨new, sent, less, waits⟩ := client_receive_work acts
      rw [lined.work_client sent, System.work, load_drop next, type, waits]
      omega
  | @serverActs act server own acts =>
      cases act with
      | answer =>
          cases acts
          replace may : 0 < s.server.scheduledRoundtripSeq := may
          have answered : s.server.answer = { s.server.sendMessage
              (.roundtripDone s.server.scheduledRoundtripSeq) with scheduledRoundtripSeq := 0 } :=
            if_pos may
          have sent : s.server.answer.sent = s.server.sent ++
              [.roundtripDone s.server.scheduledRoundtripSeq] := by rw [answered]; rfl
          have before : owed s.server = 2 := if_neg (UInt32.pos_iff_ne_zero.mp may)
          have after : owed s.server.answer = 0 := by rw [answered]; rfl
          rw [@work_server s lined s.server.answer s.toServer _ sent, System.work, before, after]
          rw [show load [.roundtripDone s.server.scheduledRoundtripSeq] = 1 from rfl]
          omega
      | receive => cases own
      | _ => cases may
  | @serverTakes message received server clean next reads acts =>
      have type : message.message.type = received.type := by
        obtain ⟨data, len, left, bytes, read⟩ := reads
        exact type_eq (lined.up _ (List.mem_of_getElem? next)) bytes (parseServer_message read).1
      have next : s.upstream[s.toServer]? = some message.message := by
        rw [System.upstream, List.getElem?_map, next]
        rfl
      obtain ⟨new, sent, less⟩ := server_receive_work acts
      rw [lined.work_server sent, System.work, load_drop next, type]
      omega

end Lined

/-- Nothing happens by itself. -/
def Still (cfg : Config) (s : System) : Prop := ∀ event t, ¬ Silently cfg s event t

theorem Lined.still {cfg : Config} {s : System} (lined : Lined s) :
    ∃ events t, Trail (Silently cfg) s events t ∧ Still cfg t := by
  induction work : s.work using Nat.strong_induction_on generalizing s with
  | _ n ih =>
      by_cases still : Still cfg s
      · exact ⟨[], s, .nil, still⟩
      · simp only [Still, not_forall, not_not] at still
        obtain ⟨event, t, step⟩ := still
        have less := lined.work_lt step
        obtain ⟨events, u, rest, still⟩ := ih t.work (by omega) (lined.step step.1) rfl
        exact ⟨event :: events, u, .cons step rest, still⟩

theorem lined_of_run {cfg : Config} {s : System} (run : Run cfg anyEvent {} s) : Lined s :=
  run.invariant (fun _ _ _ _ step lined => Lined.step lined step) lined_start

/-- No more steps are made than there was work. -/
theorem Lined.length_le {cfg : Config} {s t : System} {events : List Event} (lined : Lined s)
    (silent : Trail (Silently cfg) s events t) : events.length ≤ s.work := by
  have bound := @Trail.length_le _ _ _ _ _ _ Lined System.work (fun _ => false) 0
    (fun _ _ _ step lined => lined.step step.1) (fun _ _ _ step lined => lined.work_lt step)
    silent lined
  omega

/-- **What happens by itself comes to an end**: when neither application does anything, the ends
make at most as many steps as there was work, in whatever order, and then none is left. -/
theorem settles {cfg : Config} {s : System} (run : Run cfg anyEvent {} s) :
    (∀ events t, Trail (Silently cfg) s events t → events.length ≤ s.work) ∧
      ∃ events t, Trail (Silently cfg) s events t ∧ Still cfg t :=
  ⟨fun _ _ silent => (lined_of_run run).length_le silent, (lined_of_run run).still⟩

/-! ## Rest -/

namespace Still

variable {cfg : Config} {s : System}

/-- No answer is scheduled. -/
theorem idle (still : Still cfg s) : s.server.scheduledRoundtripSeq = 0 := by
  by_contra scheduled
  have step : Step cfg s (.server .answer) { s with server := s.server.answer } :=
    .serverActs trivial rfl
  exact still _ _ ⟨step, UInt32.pos_iff_ne_zero.mpr scheduled⟩

/-- The calls that wait are for objects without an identifier. -/
theorem undone (still : Still cfg s) : Undone s.client := by
  intro pending waits
  have keeps : s.client.keeps pending = true := by
    by_contra goes
    have step : Step cfg s (.client .flushPending) (s.withClient s.client.flushPending) :=
      .clientActs trivial rfl
    exact still _ _ ⟨step, pending, waits, Bool.not_eq_true _ ▸ goes⟩
  exact blank_of_keeps keeps

end Still

/-- A client that has asked for a roundtrip at once. -/
def hurried : System where
  client := {
    lastSentRoundtripSeq := 1
    sent := [⟨.hello, none⟩, ⟨.roundtripRequest 1, none⟩] }

/-- The roundtrip has been answered, and the handshake is done. -/
def settled : System where
  client := {
    handshakeDone := true
    lastSentRoundtripSeq := 1
    lastAckdRoundtripSeq := 1
    sent := [⟨.hello, none⟩, ⟨.roundtripRequest 1, none⟩, ⟨.handshakeAck 1, none⟩] }
  server := {
    firstPollDone := true
    version := 1
    sent := [.handshakeBegin [1], .roundtripDone 1, .handshakeProtocols []] }
  toServer := 3
  toClient := 3

theorem run_hurried : Run strangers.link anyEvent {} hurried :=
  .step .refl (@Step.clientActs _ _ .roundtrip _ trivial rfl) trivial

theorem settles_hurried :
    (∀ events t, Trail (Silently strangers.link) hurried events t → events.length ≤ 7) ∧
      ∃ events t, Trail (Silently strangers.link) hurried events t ∧ Still strangers.link t :=
  settles run_hurried

end Hyprwire.Link
