import Hyprwire.Client.Roundtrips
import Hyprwire.Link.Handles

/-!
# Roundtrips between both ends

The answer to a roundtrip says that the server has taken the request, and with it what
was on the wire before. A call that waits for the identifier of its object is not on the
wire yet, and can miss the roundtrip it was made before (`roundtrip_passes`). When
nothing waits as a roundtrip begins, and the numbers do not wrap, the server has taken
every call that was made before by the time the roundtrip returns (`roundtrip_barrier`).
`Barrier` is the invariant: what is answered has been asked for and taken.
-/

set_option autoImplicit false

namespace Hyprwire.Link

open Cpp Wire Object Client Server

theorem mem_dones {sent : List Message} {seq : UInt32} :
    seq ∈ dones sent ↔ Message.roundtripDone seq ∈ sent := by
  rw [dones, List.mem_filterMap]
  constructor
  · rintro ⟨message, listed, is⟩
    cases message with
    | roundtripDone seq' => cases is; exact listed
    | _ => cases is
  · exact fun listed => ⟨_, listed, rfl⟩

/-- The server has taken a request. -/
def Taken (s : System) (seq : UInt32) : Prop :=
  ∃ place sent, place < s.toServer ∧ s.client.sent[place]? = some sent ∧
    sent.message = .roundtripRequest seq

/-- The server has taken the message of a call. -/
def Handled (s : System) (number : Nat) : Prop :=
  ∃ place sent origin, place < s.toServer ∧ s.client.sent[place]? = some sent ∧
    sent.origin = some origin ∧ origin.number = number

/-- What is answered has been asked for and taken. -/
structure Barrier (s : System) : Prop where
  asking : Asking s.client
  kept : Kept s.client
  tagged : ∀ message ∈ s.server.sent, Tagged message
  scheduled : s.server.scheduledRoundtripSeq ≠ 0 → Taken s s.server.scheduledRoundtripSeq
  answered : ∀ seq ∈ dones s.server.sent, Taken s seq
  ackd : s.client.lastAckdRoundtripSeq ≠ 0 → s.client.lastAckdRoundtripSeq ∈ dones s.server.sent

theorem barrier_start : Barrier {} where
  asking := asking_opened
  kept := kept_opened
  tagged _ sent := absurd sent List.not_mem_nil
  scheduled nonzero := absurd rfl nonzero
  answered _ done := absurd done List.not_mem_nil
  ackd nonzero := absurd rfl nonzero

/-- The numbers of the roundtrips do not wrap. -/
def unwrapped (s : System) : Event → Prop
  | .client act => Unwrapped s.client act
  | .server _ => True

theorem getElem?_of_prefix {first second : List Sent} (before : first <+: second) {place : Nat}
    {sent : Sent} (has : first[place]? = some sent) : second[place]? = some sent := by
  obtain ⟨rest, rfl⟩ := before
  rw [List.getElem?_append_left (List.getElem?_eq_some_iff.mp has).1]
  exact has

theorem Taken.mono {s t : System} {seq : UInt32} (taken : Taken s seq)
    (sent : s.client.sent <+: t.client.sent) (more : s.toServer ≤ t.toServer) : Taken t seq := by
  obtain ⟨place, message, before, has, is⟩ := taken
  exact ⟨place, message, Nat.lt_of_lt_of_le before more, getElem?_of_prefix sent has, is⟩

namespace Barrier

variable {s : System}

/-- What the client does keeps the barrier, when it takes only answers that were sent. -/
theorem client {impls : Client.Impls} {client : CClientSocket} {act : Client.Act} {toClient : Nat}
    (barrier : Barrier s) (acts : s.client.act impls act = some (.ok client))
    (may : Unwrapped s.client act)
    (dones : ∀ seq, act = .receive (.roundtripDone seq) → seq ∈ dones s.server.sent) :
    Barrier { s.withClient client with toClient } := by
  have asks := act_asks barrier.kept.headed acts
  have taken : ∀ seq, Taken s seq → Taken { s.withClient client with toClient } seq :=
    fun seq taken => taken.mono asks.prefix_sent (Nat.le_refl _)
  refine ⟨barrier.asking.act asks may, barrier.kept.act acts, barrier.tagged,
    fun nonzero => taken _ (barrier.scheduled nonzero),
    fun seq done => taken _ (barrier.answered seq done), ?_⟩
  show client.lastAckdRoundtripSeq ≠ 0 → client.lastAckdRoundtripSeq ∈ _
  cases asks with
  | quiet same =>
      rw [same.ackd]
      exact barrier.ackd
  | asked _ clean is =>
      have same : client.lastAckdRoundtripSeq = s.client.lastAckdRoundtripSeq := by
        rw [is, CClientSocket.roundtrip, clean, CClientSocket.sendMessage]
        simp only [Bool.false_eq_true, if_false]
        split <;> rfl
      rw [same]
      exact barrier.ackd
  | ackd seq done is =>
      rw [is]
      exact fun _ => dones seq done

/-- What the server does keeps the barrier, when it takes only requests that were sent. -/
theorem server {impls : Server.Impls} {server : CServerClient} {act : Server.Act} {toServer : Nat}
    (barrier : Barrier s) (acts : s.server.act impls act = some (.ok server))
    (more : s.toServer ≤ toServer)
    (takes : ∀ seq, act = .receive (.roundtripRequest seq) →
      Taken { s with server, toServer } seq) :
    Barrier { s with server, toServer } := by
  have taken : ∀ seq, Taken s seq → Taken { s with server, toServer } seq :=
    fun seq taken => taken.mono List.prefix_rfl more
  have tagged : ∀ message ∈ server.sent, Tagged message := by
    obtain ⟨announced, new, sent, tagged, -⟩ := (act_creates acts).sends
    rw [sent]
    intro message either
    rcases List.mem_append.mp either with before | last
    · exact barrier.tagged message before
    · exact tagged message last
  cases act_answers acts with
  | quiet same =>
      refine ⟨barrier.asking, barrier.kept, tagged, ?_, ?_, ?_⟩
      · show server.scheduledRoundtripSeq ≠ 0 → Taken _ server.scheduledRoundtripSeq
        rw [same.scheduled]
        exact fun nonzero => taken _ (barrier.scheduled nonzero)
      · show ∀ seq ∈ dones server.sent, _
        rw [same.dones]
        exact fun seq done => taken _ (barrier.answered seq done)
      · show _ → _ ∈ dones server.sent
        rw [same.dones]
        exact barrier.ackd
  | scheduled seq asked same scheduled =>
      refine ⟨barrier.asking, barrier.kept, tagged, ?_, ?_, ?_⟩
      · show _ → Taken _ server.scheduledRoundtripSeq
        rw [scheduled]
        exact fun _ => takes seq asked
      · show ∀ seq ∈ dones server.sent, _
        rw [same]
        exact fun seq done => taken _ (barrier.answered seq done)
      · show _ → _ ∈ dones server.sent
        rw [same]
        exact barrier.ackd
  | answered same nonzero scheduled =>
      refine ⟨barrier.asking, barrier.kept, tagged, ?_, ?_, ?_⟩
      · exact fun set => absurd scheduled set
      · show ∀ seq ∈ dones server.sent, _
        rw [same]
        intro seq either
        rcases List.mem_append.mp either with before | last
        · exact taken _ (barrier.answered seq before)
        · rw [List.mem_singleton.mp last]
          exact taken _ (barrier.scheduled nonzero)
      · show _ → _ ∈ dones server.sent
        rw [same]
        exact fun set => List.mem_append_left _ (barrier.ackd set)

/-- **A step keeps the barrier**, while the numbers do not wrap. -/
theorem step {cfg : Config} {t : System} {event : Event} (barrier : Barrier s)
    (may : unwrapped s event) (step : Step cfg s event t) : Barrier t := by
  cases step with
  | clientActs own acts =>
      exact barrier.client acts may fun _ done => absurd own (done ▸ not_false)
  | clientTakes next reads acts =>
      refine barrier.client acts may ?_
      intro seq done
      cases done
      have sent := List.mem_of_getElem? next
      exact mem_dones.mpr (taken_roundtripDone (barrier.tagged _ sent) reads ▸ sent)
  | serverActs own acts =>
      exact barrier.server acts (Nat.le_refl _) fun _ asked => absurd own (asked ▸ not_false)
  | serverTakes clean next reads acts =>
      refine barrier.server acts (Nat.le_succ _) ?_
      intro seq asked
      cases asked
      have tagged := barrier.asking.tagged _ (List.mem_of_getElem? next)
      exact ⟨s.toServer, _, Nat.lt_succ_self _, next, taken_roundtripRequest tagged reads⟩

end Barrier

/-! ## Runs -/

/-- A state is reached from another: the barrier holds there, an error stays, and what
was on the wire still is. -/
theorem Run.after {cfg : Config} {s t : System} (run : Run cfg unwrapped s t)
    (barrier : Barrier s) :
    Barrier t ∧ (s.client.error = true → t.client.error = true) ∧
      s.client.sent <+: t.client.sent := by
  induction run with
  | refl => exact ⟨barrier, id, List.prefix_rfl⟩
  | @step u v event _ step may ih =>
      obtain ⟨holds, errors, before⟩ := ih
      refine ⟨holds.step may step, ?_⟩
      cases step with
      | clientActs own acts =>
          have asks := act_asks holds.kept.headed acts
          exact ⟨asks.errors ∘ errors, before.trans asks.prefix_sent⟩
      | clientTakes next reads acts =>
          have asks := act_asks holds.kept.headed acts
          exact ⟨asks.errors ∘ errors, before.trans asks.prefix_sent⟩
      | serverActs own acts => exact ⟨errors, before⟩
      | serverTakes clean next reads acts => exact ⟨errors, before⟩

/-- **When nothing waits as a roundtrip begins, and the numbers do not wrap, the server
has taken every call that was made before by the time the roundtrip returns.** -/
theorem roundtrip_barrier {cfg : Config} {s t : System} (before : Run cfg unwrapped {} s)
    (nothing : s.client.pendingOutgoing = [])
    (number_lt : s.client.lastSentRoundtripSeq.toNat + 1 < 2 ^ 32)
    (after : Run cfg unwrapped (s.withClient s.client.roundtrip) t)
    (returns : s.client.lastSentRoundtripSeq + 1 ≤ t.client.lastAckdRoundtripSeq)
    (errorFree : t.client.error = false) : ∀ number < s.client.made, Handled t number := by
  obtain ⟨start, -⟩ := before.after barrier_start
  have asks : Step cfg s (.client .roundtrip) (s.withClient s.client.roundtrip) :=
    .clientActs trivial rfl
  have acts : s.client.act cfg.clientImpls .roundtrip = some (.ok s.client.roundtrip) := rfl
  have asked := act_asks start.kept.headed acts
  have may : unwrapped s (.client .roundtrip) := number_lt
  obtain ⟨barrier, errors, sent⟩ := after.after (start.step may asks)
  have clean : s.client.error = false := by
    cases was : s.client.error with
    | false => rfl
    | true => rw [errors (asked.errors was)] at errorFree; cases errorFree
  have isOpen : s.client.fdIsValid = true := by
    cases valid : s.client.fdIsValid with
    | true => rfl
    | false => rw [start.kept.closed valid] at clean; cases clean
  have wire : s.client.roundtrip.sent =
      s.client.sent ++ [⟨.roundtripRequest (s.client.lastSentRoundtripSeq + 1), none⟩] := by
    simp only [CClientSocket.roundtrip, clean, CClientSocket.sendMessage, isOpen,
      Bool.false_eq_true, if_false, if_true]
  have value : (s.client.lastSentRoundtripSeq + 1).toNat =
      s.client.lastSentRoundtripSeq.toNat + 1 := by
    rw [UInt32.toNat_add]
    exact Nat.mod_eq_of_lt number_lt
  have nonzero : t.client.lastAckdRoundtripSeq ≠ 0 := by
    intro zero
    rw [zero, UInt32.le_iff_toNat_le, value] at returns
    exact absurd returns (Nat.not_succ_le_zero _)
  obtain ⟨place, request, taken, has, is⟩ := barrier.answered _ (barrier.ackd nonzero)
  have there : t.client.sent[s.client.sent.length]? =
      some ⟨.roundtripRequest (s.client.lastSentRoundtripSeq + 1), none⟩ := by
    refine getElem?_of_prefix sent ?_
    show s.client.roundtrip.sent[_]? = _
    rw [wire, List.getElem?_concat_length]
  -- The request that was answered is not before the one that was sent.
  have later : s.client.sent.length ≤ place := by
    by_contra earlier
    obtain ⟨inside, first⟩ := List.getElem?_eq_some_iff.mp has
    obtain ⟨inside', second⟩ := List.getElem?_eq_some_iff.mp there
    have less := List.pairwise_iff_getElem.mp barrier.asking.inTurn _ _ inside inside'
      (Nat.not_le.mp earlier)
    rw [first, second] at less
    exact absurd (UInt32.le_iff_toNat_le.mp returns) (Nat.not_le.mpr (less _ _ is rfl))
  intro number made
  obtain ⟨origin, listed, numbered⟩ := start.kept.complete clean number made
  rw [CClientSocket.waitingOrigins, nothing, List.map_nil, List.append_nil] at listed
  obtain ⟨message, wired, call⟩ := List.mem_filterMap.mp listed
  obtain ⟨index, at_⟩ := List.mem_iff_getElem?.mp wired
  have inside := (List.getElem?_eq_some_iff.mp at_).1
  refine ⟨index, message, origin, by omega, getElem?_of_prefix sent ?_, call, numbered⟩
  show s.client.roundtrip.sent[index]? = _
  rw [wire, List.getElem?_append_left inside]
  exact at_

/-! ## A call that misses its roundtrip -/

/-- The client has called the object it bound, and does not know the identifier of the
child that the call returns. Some calls wait for it. -/
def awaiting (waiting : List Pending) (made : Nat) : System where
  client := {
    objects := [{ id := 1, version := 1, seq := 1, protocolName := [0], spec := some parent },
      { seq := 2, protocolName := [0], spec := some child }]
    pendingOutgoing := waiting
    seq := 2
    sent := [⟨.hello, none⟩, ⟨.bindProtocol [0] 1 1, none⟩, ⟨.handshakeAck 1, none⟩,
      ⟨.generic (callData 1 0 (some 2) []) [], some ⟨0, 0⟩⟩]
    made }
  server := bound.server
  toServer := 2
  toClient := 2
  used := 2

/-- The server after the end of the handshake. -/
def greeted : CServerClient :=
  { bound.server with
    version := 1
    sent := bound.server.sent ++ [.handshakeProtocols [[0, 0x40, 0x31]]] }

theorem acts_greeted :
    bound.server.act relatives.serverImpls (.receive (.handshakeAck 1)) =
      some (.ok greeted) := by
  have offers : relatives.serverImpls.map CServerClient.advertised = [[0, 0x40, 0x31]] := by
    decide +kernel
  simp only [CServerClient.act, CServerClient.receive, offers]
  rfl

/-- A roundtrip has been asked for then, and has been answered. -/
def returned (waiting : List Pending) (made : Nat) : System where
  client := { (awaiting waiting made).client.roundtrip with
    serverSpecs := [⟨[0], 1⟩]
    handshakeDone := true
    lastAckdRoundtripSeq := 1 }
  server := greeted.sendMessage (.roundtripDone 1)
  toServer := 5
  toClient := 4
  used := 2

theorem run_returned (waiting : List Pending) (made : Nat) :
    Run relatives unwrapped
      ((awaiting waiting made).withClient (awaiting waiting made).client.roundtrip)
      (returned waiting made) := by
  have acknowledged := @Run.step relatives unwrapped _ _ _ _ .refl
    (@Step.serverTakes relatives
      ((awaiting waiting made).withClient (awaiting waiting made).client.roundtrip)
      ⟨.handshakeAck 1, none⟩ (.handshakeAck 1) greeted rfl rfl (.of 7 [] (by decide) (by rfl))
      acts_greeted) trivial
  have taken := Run.step acknowledged
    (@Step.serverTakes _ _ ⟨.generic (callData 1 0 (some 2) []) [], some ⟨0, 0⟩⟩ _ _ rfl rfl
      (.of 17 [] (by decide) (by rfl)) rfl) trivial
  have scheduled := Run.step taken
    (@Step.serverTakes _ _ ⟨.roundtripRequest 1, none⟩ (.roundtripRequest 1) _ rfl rfl
      (.of 7 [] (by decide) (by rfl)) rfl) trivial
  have answered := Run.step scheduled (@Step.serverActs _ _ .answer _ trivial rfl) trivial
  have offered := Run.step answered
    (@Step.clientTakes _ _ (.handshakeProtocols [[0, 0x40, 0x31]])
      (.handshakeProtocols [[0, 0x40, 0x31]]) _ rfl (.of 9 [] (by decide) (by rfl)) rfl) trivial
  exact Run.step offered
    (@Step.clientTakes _ _ (.roundtripDone 1) (.roundtripDone 1) _ rfl
      (.of 7 [] (by decide) (by rfl)) rfl) trivial

/-- The call on the child, which waits. -/
def early : Pending where
  msg := { CGenericProtocolMessage.ofData (callData 0 0 none []) [] with dependsOnSeq := 2 }
  origin := ⟨1, 1⟩

theorem run_awaiting {allowed : System → Event → Prop}
    (may : ∀ s event, event ≠ .client .roundtrip → allowed s event) :
    Run relatives allowed {} (awaiting [] 1) :=
  Run.step (run_bound may) (@Step.clientActs relatives _ (.call 0 0 []) _ trivial rfl)
    (may _ _ nofun)

/-- Nothing waits, and the call that was made has been taken. -/
theorem roundtrip_barrier_returned : Handled (returned [] 1) 0 := by
  have may : ∀ s event, event ≠ .client .roundtrip → unwrapped s event := by
    intro s event other
    cases event with
    | client act =>
        cases act with
        | roundtrip => exact absurd rfl other
        | _ => trivial
    | server act => trivial
  exact roundtrip_barrier (run_awaiting may) rfl (by decide) (run_returned [] 1) (by decide) rfl 0
    (by decide)

/-- The call on the child was made before the roundtrip, and still waits when that
returns. -/
theorem roundtrip_passes :
    ∃ s t, Run relatives anyEvent {} s ∧
      Run relatives anyEvent (s.withClient s.client.roundtrip) t ∧
      s.client.lastSentRoundtripSeq + 1 ≤ t.client.lastAckdRoundtripSeq ∧
      t.client.error = false ∧ ∃ number < s.client.made, ¬ Handled t number := by
  have calls := Run.step (run_awaiting fun _ _ _ => trivial)
    (@Step.clientActs relatives _ (.call 1 0 []) _ trivial rfl) trivial
  refine ⟨awaiting [early] 2, returned [early] 2, calls,
    (run_returned [early] 2).mono fun _ _ _ => trivial, by decide, rfl, 1, by decide, ?_⟩
  rintro ⟨place, sent, origin, -, has, call, number⟩
  have none : ∀ sent ∈ (returned [early] 2).client.sent,
      sent.origin.map Origin.number ≠ some 1 := by
    decide
  refine none sent (List.mem_of_getElem? has) ?_
  rw [call, Option.map_some, number]

end Hyprwire.Link
