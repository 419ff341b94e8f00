import Hyprwire.Server.Acts

/-!
# The identifiers a server gives out

`createObject` numbers the objects of a client by a counter, whether their creation
succeeds or not, and announces those it has made. `act_creates` says what an act does to
the identifiers and to the announcements, and `Numbered` what holds of them in every
run: the objects have the identifiers 1, 2, 3 and so on, and what is announced are
different ones of them.
-/

set_option autoImplicit false

namespace Hyprwire.Server

open Cpp Wire Object

/-- The sequences and the identifiers that have been announced. -/
def newObjects (sent : List Message) : List (UInt32 × UInt32) :=
  sent.filterMap fun
    | .newObject seq id => some (seq, id)
    | _ => none

namespace CServerClient

/-- The identifiers of the objects. -/
def ids (client : CServerClient) : List UInt32 := client.objects.map IWireObject.id

end CServerClient

theorem newObjects_append (first second : List Message) :
    newObjects (first ++ second) = newObjects first ++ newObjects second :=
  List.filterMap_append

/-- What has been sent between two states is tagged, and announces some objects. -/
def Sends (client next : CServerClient) (announced : List (UInt32 × UInt32)) : Prop :=
  ∃ new, next.sent = client.sent ++ new ∧ (∀ message ∈ new, Tagged message) ∧
    newObjects new = announced

theorem Sends.announced {client next : CServerClient} {announced : List (UInt32 × UInt32)}
    (sends : Sends client next announced) :
    newObjects next.sent = newObjects client.sent ++ announced := by
  obtain ⟨new, sent, -, rfl⟩ := sends
  rw [sent, newObjects_append]

theorem Sends.nothing {client next : CServerClient} (sent : next.sent = client.sent) :
    Sends client next [] :=
  ⟨[], by rw [sent, List.append_nil], fun _ new => absurd new List.not_mem_nil, rfl⟩

theorem Sends.one {client next : CServerClient} {message : Message}
    {announced : List (UInt32 × UInt32)} (sent : next.sent = client.sent ++ [message])
    (tagged : Tagged message) (announces : newObjects [message] = announced) :
    Sends client next announced :=
  ⟨[message], sent, fun _ new => List.mem_singleton.mp new ▸ tagged, announces⟩

/-- What an act does to the identifiers. -/
inductive Creates (client next : CServerClient) : Prop
  | nothing (ids : next.ids = client.ids) (counter : next.maxId = client.maxId)
      (sends : Sends client next [])
  | listed (ids : next.ids = client.ids ++ [client.maxId]) (counter : next.maxId = client.maxId + 1)
      (sends : Sends client next [])
  | made (seq : UInt32) (ids : next.ids = client.ids ++ [client.maxId])
      (counter : next.maxId = client.maxId + 1) (sends : Sends client next [(seq, client.maxId)])

namespace Creates

theorem of_fields {client next : CServerClient} (objects : next.objects = client.objects)
    (counter : next.maxId = client.maxId) (sends : Sends client next []) : Creates client next :=
  .nothing (by rw [CServerClient.ids, objects, CServerClient.ids]) counter sends

theorem refl (client : CServerClient) : Creates client client :=
  of_fields rfl rfl (.nothing rfl)

theorem createObject (impls : Impls) (protocol object : Str) (version seq : UInt32)
    (client : CServerClient) :
    Creates client (CServerClient.createObject impls protocol object version seq client).2 := by
  have ids : ∀ obj : IWireObject, obj.id = client.maxId →
      (client.listObject obj).ids = client.ids ++ [client.maxId] := by
    rintro obj same
    simp [CServerClient.ids, CServerClient.listObject, same]
  simp only [CServerClient.createObject]
  split
  · exact .listed (ids _ rfl) rfl (.nothing rfl)
  · split
    · exact .listed (ids _ rfl) rfl (.nothing rfl)
    · split
      · exact .listed (ids _ rfl) rfl (.nothing rfl)
      · exact .made seq (ids _ rfl) rfl (.one rfl trivial rfl)

theorem outcome (client : CServerClient) (index : Nat) (object : IWireObject) (outcome : Outcome) :
    Creates client (client.outcome index object outcome).1 := by
  cases outcome with
  | ignored => exact refl client
  | error message => exact of_fields rfl rfl (.one rfl trivial rfl)
  | errd => exact of_fields rfl rfl (.nothing rfl)
  | invoke fn types values => exact refl client

theorem onGeneric {client next : CServerClient} {msg : CGenericProtocolMessage}
    {invocation : Option Invocation} (run : client.onGeneric msg = some (.ok (next, invocation))) :
    Creates client next := by
  simp only [CServerClient.onGeneric] at run
  split at run
  · cases run
    exact refl client
  · split at run
    · cases run
    · split at run
      · cases run
      · obtain ⟨result, -, rest⟩ := Option.map_eq_some_iff.mp run
        obtain ⟨outcome, -, same⟩ := map_eq_ok.mp rest
        obtain rfl : _ = next := congrArg Prod.fst same
        exact Creates.outcome client _ _ _

theorem receive {impls : Impls} {client next : CServerClient} {message : Received}
    {invocation : Option Invocation}
    (run : client.receive impls message = some (.ok (next, invocation))) :
    Creates client next := by
  cases message with
  | hello => cases run; exact of_fields rfl rfl (.one rfl trivial rfl)
  | handshakeAck version => cases run; exact of_fields rfl rfl (.one rfl trivial rfl)
  | bindProtocol protocol seq version => cases run; exact createObject _ _ _ _ _ _
  | generic msg => exact onGeneric run
  | roundtripRequest seq => cases run; exact of_fields rfl rfl (.nothing rfl)
  | handshakeBegin versions => cases run; exact refl client
  | handshakeProtocols protocols => cases run; exact refl client
  | newObject seq id => cases run; exact refl client
  | fatalError objectId errorId errorMsg => cases run; exact refl client
  | roundtripDone seq => cases run; exact refl client

theorem call {client next : CServerClient} {index : Nat} {id result : UInt32} {args : List Arg}
    (run : client.call index id args = .ok (result, next)) : Creates client next := by
  obtain ⟨object, -, rest⟩ := bind_eq_ok.mp run
  obtain ⟨spec, -, rest⟩ := bind_eq_ok.mp rest
  obtain ⟨⟨outcome, seq⟩, made, rest⟩ := bind_eq_ok.mp rest
  cases outcome with
  | error message => cases rest; exact of_fields rfl rfl (.one rfl trivial rfl)
  | errd => cases rest; exact of_fields rfl rfl (.nothing rfl)
  | send msg returned =>
      cases rest
      cases call_ends made with
      | send method msg head => exact of_fields rfl rfl (.one rfl head rfl)
  | defer msg returned =>
      cases rest
      cases call_ends made with
      | defer method msg head => exact of_fields rfl rfl (.one rfl head rfl)

theorem listen {client next : CServerClient} {index : Nat} {id : UInt32} {fn : Option Callback}
    (run : client.listen index id fn = .ok next) : Creates client next := by
  obtain ⟨object, at_, rest⟩ := bind_eq_ok.mp run
  cases rest
  have has := CServerClient.objectAt_eq_ok.mp at_
  exact .nothing (map_set_same has rfl) rfl (.nothing rfl)

end Creates

/-- **What an act does to the identifiers.** -/
theorem act_creates {impls : Impls} {client next : CServerClient} {act : Act}
    (acts : client.act impls act = some (.ok next)) : Creates client next := by
  cases act with
  | createObject protocol object version seq => cases acts; exact .createObject _ _ _ _ _ _
  | call object id args =>
      obtain ⟨⟨result, _⟩, called, rfl⟩ := map_eq_ok.mp (Option.some.inj acts)
      exact .call called
  | error object id message =>
      obtain ⟨object, -, rest⟩ := bind_eq_ok.mp (Option.some.inj acts)
      cases rest
      exact .of_fields rfl rfl (.one rfl trivial rfl)
  | listen object id fn => exact .listen (Option.some.inj acts)
  | receive message =>
      obtain ⟨received, run, rest⟩ := Option.map_eq_some_iff.mp acts
      obtain ⟨⟨_, invocation⟩, rfl, rfl⟩ := map_eq_ok.mp rest
      exact .receive run
  | refuse => cases acts; exact .of_fields rfl rfl (.nothing rfl)
  | answer =>
      cases acts
      rw [CServerClient.answer]
      split
      · exact .of_fields rfl rfl (.one rfl trivial rfl)
      · exact .refl client
  | fail message => cases acts; exact .of_fields rfl rfl (.one rfl trivial rfl)

/-! ## Numbers -/

/-- The objects are numbered from one on, and what is announced are different objects.
It holds as long as the counter does not wrap. -/
structure Numbered (client : CServerClient) : Prop where
  counter : client.maxId = UInt32.ofNat (client.objects.length + 1)
  ids : client.ids = (List.range client.objects.length).map fun i => UInt32.ofNat (i + 1)
  announced : (newObjects client.sent).Pairwise fun first second =>
    first.2.toNat < second.2.toNat
  listed : ∀ handle ∈ newObjects client.sent, handle.2.toNat ≤ client.objects.length ∧
    handle.2 ∈ client.ids

theorem numbered_start : Numbered {} where
  counter := rfl
  ids := rfl
  announced := .nil
  listed _ announced := absurd announced List.not_mem_nil

namespace Numbered

variable {client next : CServerClient}

/-- The next identifier, before the counter wraps. -/
theorem toNat_maxId (numbered : Numbered client) (few : client.objects.length + 1 < 2 ^ 32) :
    client.maxId.toNat = client.objects.length + 1 := by
  rw [numbered.counter, UInt32.toNat_ofNat']
  exact Nat.mod_eq_of_lt few

/-- One object more. -/
theorem ids_append (numbered : Numbered client) (ids : next.ids = client.ids ++ [client.maxId])
    (counter : next.maxId = client.maxId + 1) :
    next.objects.length = client.objects.length + 1 ∧
      next.maxId = UInt32.ofNat (next.objects.length + 1) ∧
      next.ids = (List.range next.objects.length).map fun i => UInt32.ofNat (i + 1) := by
  have length : next.objects.length = client.objects.length + 1 := by
    have total := congrArg List.length ids
    simpa [CServerClient.ids] using total
  refine ⟨length, ?_, ?_⟩
  · rw [counter, numbered.counter, length, UInt32.ofNat_add (client.objects.length + 1) 1]
    rfl
  · rw [ids, length, List.range_succ, List.map_append, ← numbered.ids, numbered.counter]
    rfl

/-- **What creates keeps the numbers**, while there are identifiers left. -/
theorem creates (numbered : Numbered client) (creates : Creates client next)
    (few : next.objects.length < 2 ^ 32 - 1) : Numbered next := by
  cases creates with
  | nothing ids counter sends =>
      have announced := sends.announced.trans (List.append_nil _)
      have length : next.objects.length = client.objects.length := by
        have total := congrArg List.length ids
        simpa [CServerClient.ids] using total
      exact ⟨by rw [counter, length, numbered.counter], by rw [ids, length, numbered.ids],
        announced ▸ numbered.announced, by rw [announced, length, ids]; exact numbered.listed⟩
  | listed ids counter sends =>
      have announced := sends.announced.trans (List.append_nil _)
      obtain ⟨length, counted, numbers⟩ := numbered.ids_append ids counter
      refine ⟨counted, numbers, announced ▸ numbered.announced, ?_⟩
      rw [announced, length, ids]
      intro handle before
      obtain ⟨small, has⟩ := numbered.listed handle before
      exact ⟨Nat.le_succ_of_le small, List.mem_append_left _ has⟩
  | made seq ids counter sends =>
      have announced := sends.announced
      obtain ⟨length, counted, numbers⟩ := numbered.ids_append ids counter
      have value := numbered.toNat_maxId (by omega)
      refine ⟨counted, numbers, ?_, ?_⟩
      · rw [announced]
        refine List.pairwise_append.mpr ⟨numbered.announced, List.pairwise_singleton _ _, ?_⟩
        intro handle before last is
        rw [List.mem_singleton.mp is, value]
        exact Nat.lt_succ_of_le (numbered.listed handle before).1
      · rw [announced, length, ids]
        intro handle either
        rcases List.mem_append.mp either with before | last
        · obtain ⟨small, has⟩ := numbered.listed handle before
          exact ⟨Nat.le_succ_of_le small, List.mem_append_left _ has⟩
        · rw [List.mem_singleton.mp last, value]
          exact ⟨Nat.le_refl _, List.mem_append_right _ (List.mem_singleton.mpr rfl)⟩

/-- No two objects share an identifier. -/
theorem nodup_ids (numbered : Numbered client) (few : client.objects.length < 2 ^ 32 - 1) :
    client.ids.Nodup := by
  rw [numbered.ids]
  refine List.Nodup.map_on ?_ List.nodup_range
  intro i one j two same
  have left := List.mem_range.mp one
  have right := List.mem_range.mp two
  have value := congrArg UInt32.toNat same
  rw [UInt32.toNat_ofNat', UInt32.toNat_ofNat', Nat.mod_eq_of_lt (by omega),
    Nat.mod_eq_of_lt (by omega)] at value
  omega

/-- An identifier is announced once. -/
theorem announced_once (numbered : Numbered client) {first second : UInt32 × UInt32}
    (one : first ∈ newObjects client.sent) (two : second ∈ newObjects client.sent)
    (same : first.2 = second.2) : first = second := by
  have symmetric : Std.Symm fun first second : UInt32 × UInt32 =>
      first.2 = second.2 → first = second :=
    ⟨fun _ _ imp equal => (imp equal.symm).symm⟩
  have once : (newObjects client.sent).Pairwise fun first second =>
      first.2 = second.2 → first = second := by
    refine numbered.announced.imp fun less equal => ?_
    rw [equal] at less
    exact absurd less (Nat.lt_irrefl _)
  have each := once.forall_of_forall fun _ _ _ => rfl
  exact each one two same

end Numbered

/-- **What is sent is tagged, and what is announced stays so.** -/
theorem Creates.sends {client next : CServerClient} (creates : Creates client next) :
    ∃ announced, Sends client next announced := by
  cases creates with
  | nothing _ _ sends => exact ⟨_, sends⟩
  | listed _ _ sends => exact ⟨_, sends⟩
  | made _ _ _ sends => exact ⟨_, sends⟩

/-- Creating does not take objects away. -/
theorem Creates.length_le {client next : CServerClient} (creates : Creates client next) :
    client.objects.length ≤ next.objects.length := by
  have lengths : ∀ c : CServerClient, c.ids.length = c.objects.length := fun c => List.length_map _
  cases creates with
  | nothing ids => rw [← lengths, ← lengths, ids]
  | listed ids => rw [← lengths, ← lengths, ids, List.length_append]; exact Nat.le_add_right _ _
  | made seq ids => rw [← lengths, ← lengths, ids, List.length_append]; exact Nat.le_add_right _ _

end Hyprwire.Server
