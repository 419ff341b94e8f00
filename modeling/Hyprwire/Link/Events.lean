import Hyprwire.Link.Calls
import Hyprwire.Link.Owners
import Hyprwire.Link.Replica

/-!
# Events and the objects they reach

An event of the server goes by the identifier of its object. When the client takes it, the
announcements that it has taken are those that the server had sent before. So the event reaches
the object for whose sequence the server's object was announced last (`events_reach_objects`).
-/

set_option autoImplicit false

namespace Hyprwire.Link

open Cpp Wire Object Client Server

/-- A message that the client reads as an event names its object. -/
theorem taken_event {heap : Heap} {data : List UInt8} {fds : List Fd} {name : UInt32}
    {msg : CGenericProtocolMessage} (begins : ∃ method rest, data = callHeader name method ++ rest)
    (reads : Reads (parseClient heap) (.generic data fds) (.generic msg)) : msg.object = name := by
  obtain ⟨method, rest, rfl⟩ := begins
  obtain ⟨vector, len, left, bytes, read⟩ := reads
  obtain ⟨tag, -⟩ := parseClient_message read
  simp only [parseClient, tag, Received.type, EMessageType.ofByte_code] at read
  obtain ⟨msg', decoded, some_, same, -⟩ := readGeneric_message read
  cases same
  exact object_of_decoded ⟨method, rest, bytes⟩ decoded some_

/-- The recipient of a message is the only object with its identifier. -/
theorem recipient_eq_some_iff {objects : List IWireObject} {msg : CGenericProtocolMessage}
    (apart : objects.Pairwise fun first second => first.id ≠ 0 → first.id ≠ second.id)
    (some_ : msg.object ≠ 0) {object : IWireObject} (listed : object ∈ objects) :
    recipient objects msg = some object ↔ object.id = msg.object := by
  have first : recipient objects msg = objects.find? fun o => o.id = msg.object :=
    List.find?_eq_bind_findIdx?_getElem?.symm
  rw [first]
  constructor
  · intro found
    simpa using List.find?_some found
  · intro named
    cases found : objects.find? fun o => o.id = msg.object with
    | none => exact absurd named (by simpa using List.find?_eq_none.mp found object listed)
    | some other =>
        have same : other.id = msg.object := by simpa using List.find?_some found
        have symmetric : Std.Symm fun first second : IWireObject =>
            first.id = msg.object → second.id = msg.object → first = second :=
          ⟨fun _ _ imp one two => (imp two one).symm⟩
        have once : objects.Pairwise fun first second =>
            first.id = msg.object → second.id = msg.object → first = second := by
          refine apart.imp fun differ one two => ?_
          exact absurd (one.trans two.symm) (differ (one ▸ some_))
        have each := once.forall_of_forall fun _ _ _ _ => rfl
        exact congrArg some (each (List.mem_of_find?_eq_some found) listed same named)

/-- No two objects of the client have one identifier. -/
theorem Agreed.apart {s : System} (agreed : Agreed s) :
    s.client.objects.Pairwise fun first second => first.id ≠ 0 → first.id ≠ second.id := by
  have announced : ∀ object ∈ s.client.objects, object.id ≠ 0 →
      (object.seq, object.id) ∈ newObjects s.server.sent :=
    fun _ listed => agreed.announced _ (List.mem_map_of_mem listed)
  refine agreed.sequenced.pairwise_seq.imp_of_mem ?_
  intro first second one two differ identified same
  have once := agreed.numbered.announced_once (announced first one identified)
    (announced second two (same ▸ identified)) same
  exact differ (congrArg Prod.fst once)

/-- There were sequences and identifiers left before. -/
theorem Few.of_run {cfg : Config} {allowed : System → Event → Prop} {s t : System}
    (run : Run cfg allowed s t) (few : Few t) : Few s := by
  induction run with
  | refl => exact few
  | step _ step _ ih => exact ih (few.of_step step)

/-- What has been sent stays sent. -/
theorem Run.prefix_sent {cfg : Config} {allowed : System → Event → Prop} {s t : System}
    (run : Run cfg allowed s t) : s.server.sent <+: t.server.sent := by
  induction run with
  | refl => exact List.prefix_rfl
  | step _ step _ ih =>
      cases step with
      | clientActs own acts => exact ih
      | clientTakes next reads acts => exact ih
      | serverActs own acts => exact ih.trans (sent_of_act acts)
      | serverTakes clean next reads acts => exact ih.trans (sent_of_act acts)

/-- **An event reaches the object it was made on**: when the client comes to take it, it is for
the object for whose sequence the server had announced that identifier last. -/
theorem events_reach_objects {cfg : Config} {u v s : System} {index : Nat} {id : UInt32}
    {args : List Arg} {data : List UInt8} {fds : List Fd} {msg : CGenericProtocolMessage}
    (before : Run cfg requested {} u) (emits : Step cfg u (.server (.call index id args)) v)
    (sends : v.server.sent = u.server.sent ++ [.generic data fds]) (after : Run cfg requested v s)
    (sequences : s.used < 2 ^ 32 - 1) (identifiers : s.server.objects.length < 2 ^ 32 - 1)
    (comes : s.toClient = u.server.sent.length)
    (reads : Reads (parseClient cfg.clientHeap) (.generic data fds) (.generic msg)) :
    ∃ object, u.server.objects[index]? = some object ∧ ∀ own ∈ s.client.objects,
      (recipient s.client.objects msg = some own ↔
        latest (newObjects u.server.sent) own.seq = object.id) := by
  cases emits with
  | @serverActs _ server own acts =>
  rcases act_utters acts with same | ⟨message, sent, utters⟩
  · exact absurd (same.symm.trans sends) (by simp)
  · obtain ⟨-, rest⟩ := List.append_inj' (sent.symm.trans sends) rfl
    obtain rfl := List.head_eq_of_cons_eq rest
    cases utters with
    | @calls _ object _ _ made has header =>
    have stays : u.server.sent <+: s.server.sent :=
      (sent ▸ List.prefix_append _ _).trans after.prefix_sent
    have emits := @Step.serverActs cfg u _ _ own acts
    have emitted := before.step emits trivial
    have few : Few s := ⟨sequences, identifiers⟩
    have nonzero : object.id ≠ 0 := by
      have fewer := (few.of_run after).of_step emits
      have numbered := (copied_of_run before fewer).agreed.numbered
      exact id_ne_zero numbered fewer.2 (List.mem_map_of_mem (List.mem_of_getElem? has))
    have copied := copied_of_run (emitted.trans after) few
    refine ⟨object, has, fun own listed => ?_⟩
    have named : msg.object = object.id := taken_event header reads
    have replica : own.id = latest (newObjects (s.server.sent.take s.toClient)) own.seq :=
      copied.same _ (List.mem_map_of_mem listed)
    rw [comes, ← List.prefix_iff_eq_take.mp stays] at replica
    rw [recipient_eq_some_iff copied.agreed.apart (named ▸ nonzero) listed, replica, named]

/-! ## An event on a bound object -/

/-- The server has made the object of the protocol. -/
def serving : System where
  client := {
    objects := [{ version := 1, seq := 1, protocolName := [0], spec := some parent }]
    seq := 1
    sent := [⟨.hello, none⟩, ⟨.bindProtocol [0] 1 1, none⟩] }
  server := {
    firstPollDone := true
    maxId := 2
    objects := [{ id := 1, version := 1, protocolName := [0], spec := some parent }]
    sent := [.handshakeBegin [1], .newObject 1 1] }
  toServer := 2
  used := 1

/-- It has made an event on it, and the client comes to it. -/
def addressed : System where
  client := { bound.client with sent := serving.client.sent ++ [⟨.handshakeAck 1, none⟩] }
  server := { serving.server with
    sent := serving.server.sent ++ [.generic (callData 1 0 none []) []] }
  toServer := 2
  toClient := 2
  used := 1

theorem run_serving : Run relatives requested {} serving := by
  have binds := @Run.step relatives requested {} _ _ _ .refl
    (@Step.clientActs _ _ (.bindProtocol family 1) _ trivial rfl) trivial
  have greeted := Run.step binds
    (@Step.serverTakes _ _ _ .hello _ rfl rfl (.of 7 [] (by decide) (by rfl)) rfl) trivial
  exact Run.step greeted
    (@Step.serverTakes _ _ _ (.bindProtocol [0] 1 1) _ rfl rfl (.of 15 [] (by decide) (by rfl)) rfl)
    trivial

/-- The event comes to the object that was bound. -/
theorem events_reach_objects_addressed : ∃ msg object, serving.server.objects[0]? = some object ∧
    ∀ own ∈ addressed.client.objects, (recipient addressed.client.objects msg = some own ↔
      latest (newObjects serving.server.sent) own.seq = object.id) := by
  have emits := @Step.serverActs relatives serving (.call 0 0 []) addressed.server trivial rfl
  have begun := @Run.step relatives requested _ _ _ _ .refl
    (@Step.clientTakes _ { serving with server := addressed.server } (.handshakeBegin [1]) _ _ rfl
      (.of 9 [] (by decide) (by rfl)) rfl) trivial
  have after : Run relatives requested { serving with server := addressed.server } addressed :=
    Run.step begun
      (@Step.clientTakes _ _ (.newObject 1 1) _ _ rfl (.of 12 [] (by decide) (by rfl)) rfl) trivial
  exact ⟨_, events_reach_objects run_serving emits rfl after (by decide) (by decide) rfl
    (.of 12 [] (by decide) (by rfl))⟩

end Hyprwire.Link
