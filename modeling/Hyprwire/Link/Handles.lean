import Hyprwire.Client.CallOrder
import Hyprwire.Link.System
import Hyprwire.Server.Handles

/-!
# The handles of both ends

A client knows an object by the sequence it asked for it with, and the server by the
identifier it gave out. `Agreed` joins what holds of both tables: an object of the
client with an identifier has one that the server announced for its sequence. In every
run with sequences and identifiers left the two tables agree (`handles_agree`).
-/

set_option autoImplicit false

namespace Hyprwire.Link

open Cpp Wire Object Client Server

theorem mem_newObjects {sent : List Message} {seq id : UInt32} :
    (seq, id) ∈ newObjects sent ↔ Message.newObject seq id ∈ sent := by
  rw [newObjects, List.mem_filterMap]
  constructor
  · rintro ⟨message, listed, is⟩
    cases message with
    | newObject seq' id' => cases is; exact listed
    | _ => cases is
  · exact fun listed => ⟨_, listed, rfl⟩

/-- The tables of both ends agree. -/
structure Agreed (s : System) : Prop where
  sequenced : Sequenced s.used s.client
  numbered : Numbered s.server
  tagged : ∀ message ∈ s.server.sent, Tagged message
  announced : ∀ handle ∈ s.client.handles, handle.2 ≠ 0 → handle ∈ newObjects s.server.sent

/-- There are sequences and identifiers left. -/
def Few (s : System) : Prop := s.used < 2 ^ 32 - 1 ∧ s.server.objects.length < 2 ^ 32 - 1

theorem agreed_start : Agreed {} where
  sequenced := sequenced_opened
  numbered := numbered_start
  tagged _ sent := absurd sent List.not_mem_nil
  announced _ listed := absurd listed List.not_mem_nil

namespace Agreed

variable {s : System}

/-- What the client does keeps the tables, when it takes only identifiers that have
been announced. -/
theorem client {impls : Client.Impls} {client : CClientSocket} {act : Client.Act} {toClient : Nat}
    (agreed : Agreed s) (acts : s.client.act impls act = some (.ok client))
    (announces : ∀ seq id, act = .receive (.newObject seq id) →
      (seq, id) ∈ newObjects s.server.sent)
    (few : s.used + sequencesUsed s.client client < 2 ^ 32 - 1) :
    Agreed { s.withClient client with toClient } where
  sequenced :=
    agreed.sequenced.allocates (act_allocates acts) (Nat.lt_of_lt_of_le few (Nat.sub_le _ _))
  numbered := agreed.numbered
  tagged := agreed.tagged
  announced := by
    show ∀ handle ∈ client.handles, _
    intro handle listed identified
    cases act_allocates acts with
    | nothing handles => exact agreed.announced handle (handles ▸ listed) identified
    | counted handles => exact agreed.announced handle (handles ▸ listed) identified
    | made handles =>
        rw [handles] at listed
        rcases List.mem_append.mp listed with before | last
        · exact agreed.announced handle before identified
        · rw [List.mem_singleton.mp last] at identified
          exact absurd rfl identified
    | assigned seq id index is found handles =>
        rw [handles] at listed
        rcases List.mem_or_eq_of_mem_set listed with before | set
        · exact agreed.announced handle before identified
        · exact set ▸ announces seq id is

/-- What the server does keeps the tables. -/
theorem server {impls : Server.Impls} {server : CServerClient} {act : Server.Act} {toServer : Nat}
    (agreed : Agreed s) (acts : s.server.act impls act = some (.ok server))
    (few : server.objects.length < 2 ^ 32 - 1) : Agreed { s with server, toServer } where
  sequenced := agreed.sequenced
  numbered := agreed.numbered.creates (act_creates acts) few
  tagged := by
    obtain ⟨announced, new, sent, tagged, -⟩ := (act_creates acts).sends
    show ∀ message ∈ server.sent, _
    rw [sent]
    intro message either
    rcases List.mem_append.mp either with before | last
    · exact agreed.tagged message before
    · exact tagged message last
  announced := by
    obtain ⟨announced, sends⟩ := (act_creates acts).sends
    show ∀ handle ∈ s.client.handles, handle.2 ≠ 0 → handle ∈ newObjects server.sent
    rw [sends.announced]
    exact fun handle listed identified =>
      List.mem_append_left _ (agreed.announced handle listed identified)

/-- **A step keeps the tables**, while there are sequences and identifiers left. -/
theorem step {cfg : Config} {t : System} {event : Event} (agreed : Agreed s)
    (step : Step cfg s event t) (few : Few t) : Agreed t := by
  cases step with
  | clientActs own acts =>
      exact agreed.client acts (fun _ _ is => absurd own (is ▸ not_false)) few.1
  | clientTakes next reads acts =>
      refine agreed.client acts ?_ few.1
      intro seq id is
      cases is
      have sent := List.mem_of_getElem? next
      exact mem_newObjects.mpr (taken_newObject (agreed.tagged _ sent) reads ▸ sent)
  | serverActs own acts => exact agreed.server acts few.2
  | serverTakes clean next reads acts => exact agreed.server acts few.2

end Agreed

/-- A step uses up sequences and identifiers. -/
theorem Few.of_step {cfg : Config} {s t : System} {event : Event} (step : Step cfg s event t)
    (few : Few t) : Few s := by
  cases step with
  | clientActs own acts => exact ⟨Nat.lt_of_le_of_lt (Nat.le_add_right _ _) few.1, few.2⟩
  | clientTakes next reads acts => exact ⟨Nat.lt_of_le_of_lt (Nat.le_add_right _ _) few.1, few.2⟩
  | serverActs own acts => exact ⟨few.1, Nat.lt_of_le_of_lt (act_creates acts).length_le few.2⟩
  | serverTakes clean next reads acts =>
      exact ⟨few.1, Nat.lt_of_le_of_lt (act_creates acts).length_le few.2⟩

theorem agreed_of_run {cfg : Config} {s : System} (run : Run cfg anyEvent {} s) (few : Few s) :
    Agreed s :=
  run.invariant (I := fun s => Few s → Agreed s)
    (fun _ _ _ _ step agreed few => (agreed (few.of_step step)).step step few)
    (fun _ => agreed_start) few

/-- The server has made an object with an identifier for a sequence. -/
def Created (server : CServerClient) (seq id : UInt32) : Prop :=
  Message.newObject seq id ∈ server.sent ∧ ∃ object ∈ server.objects, object.id = id

/-- **In every run with sequences and identifiers left, an object of the client that has
an identifier has the one of an object that the server made for its sequence, and no
two objects of one end share a sequence or an identifier.** -/
theorem handles_agree {cfg : Config} {s : System} (run : Run cfg anyEvent {} s)
    (sequences : s.used < 2 ^ 32 - 1) (identifiers : s.server.objects.length < 2 ^ 32 - 1) :
    (∀ object ∈ s.client.objects, object.id ≠ 0 → Created s.server object.seq object.id) ∧
      (s.client.objects.Pairwise fun first second =>
        first.seq ≠ second.seq ∧ (first.id ≠ 0 → first.id ≠ second.id)) ∧
      s.server.objects.Pairwise fun first second => first.id ≠ second.id := by
  have agreed := agreed_of_run run ⟨sequences, identifiers⟩
  have announced : ∀ object ∈ s.client.objects, object.id ≠ 0 →
      (object.seq, object.id) ∈ newObjects s.server.sent :=
    fun object listed => agreed.announced _ (List.mem_map_of_mem listed)
  refine ⟨?_, ?_, ?_⟩
  · intro object listed identified
    have handle := announced object listed identified
    exact ⟨mem_newObjects.mp handle, List.mem_map.mp (agreed.numbered.listed _ handle).2⟩
  · refine agreed.sequenced.pairwise_seq.imp_of_mem ?_
    intro first second one two apart
    refine ⟨apart, fun identified same => apart ?_⟩
    have handles := agreed.numbered.announced_once (announced first one identified)
      (announced second two (same ▸ identified)) same
    exact congrArg Prod.fst handles
  · exact List.pairwise_map.mp (agreed.numbered.nodup_ids identifiers)

/-! ## A protocol that is bound -/

/-- Both ends know the protocol. -/
def relatives : Config where
  clientImpls := [⟨family⟩]
  serverImpls := [⟨family, []⟩]
  clientHeap := .ample
  serverHeap := .ample

/-- The object of the protocol has its identifier at both ends. -/
def bound : System where
  client := {
    objects := [{ id := 1, version := 1, seq := 1, protocolName := [0], spec := some parent }]
    seq := 1
    sent := [⟨.hello, none⟩, ⟨.bindProtocol [0] 1 1, none⟩, ⟨.handshakeAck 1, none⟩] }
  server := {
    firstPollDone := true
    maxId := 2
    objects := [{ id := 1, version := 1, protocolName := [0], spec := some parent }]
    sent := [.handshakeBegin [1], .newObject 1 1] }
  toServer := 2
  toClient := 2
  used := 1

/-- The run has no roundtrip. -/
theorem run_bound {allowed : System → Event → Prop}
    (may : ∀ s event, event ≠ .client .roundtrip → allowed s event) :
    Run relatives allowed {} bound := by
  have binds := @Run.step relatives allowed {} _ _ _ .refl
    (@Step.clientActs _ _ (.bindProtocol family 1) _ trivial rfl) (may _ _ nofun)
  have greeted := Run.step binds
    (@Step.serverTakes _ _ _ .hello _ rfl rfl (.of 7 [] (by decide) (by rfl)) rfl) (may _ _ nofun)
  have made := Run.step greeted
    (@Step.serverTakes _ _ _ (.bindProtocol [0] 1 1) _ rfl rfl (.of 15 [] (by decide) (by rfl)) rfl)
    (may _ _ nofun)
  have begun := Run.step made
    (@Step.clientTakes _ _ _ (.handshakeBegin [1]) _ rfl (.of 9 [] (by decide) (by rfl)) rfl)
    (may _ _ nofun)
  exact Run.step begun
    (@Step.clientTakes _ _ _ (.newObject 1 1) _ rfl (.of 12 [] (by decide) (by rfl)) rfl)
    (may _ _ nofun)

theorem handles_agree_bound :
    (∀ object ∈ bound.client.objects, object.id ≠ 0 →
        Created bound.server object.seq object.id) ∧
      (bound.client.objects.Pairwise fun first second =>
        first.seq ≠ second.seq ∧ (first.id ≠ 0 → first.id ≠ second.id)) ∧
      bound.server.objects.Pairwise fun first second => first.id ≠ second.id :=
  handles_agree (run_bound fun _ _ _ => trivial) (by decide) (by decide)

end Hyprwire.Link
