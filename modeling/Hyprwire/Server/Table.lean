import Hyprwire.Cpp.Guarded
import Hyprwire.Server.Session

/-!
# The table of objects

`createObject` lists an object before it checks what was asked for, so that the table has
broken objects after a failure. A failure sets the error of the connection, and the loop over
a read stops at the next message. `Specified` says that an object is whole, and `Names` which
object a message is about. `act_tabled` says what an act does to the table; in every run the
objects are numbered in order, all of them are whole unless there is an error, and a whole
one is announced before any other message names it (`object_table`).
-/

set_option autoImplicit false

namespace Hyprwire.Server

open Cpp Wire Object

/-! ## Whole objects -/

/-- The kind of an object is one of the first implementation of its protocol, and the version
is not above that of the implementation. -/
def Specified (impls : Impls) (object : IWireObject) : Prop :=
  ∃ p spec, CServerClient.implFor impls object.protocolName = some p ∧
    object.spec = some spec ∧ spec ∈ p.protocol.objects ∧ object.version ≤ p.protocol.specVer

/-- A message is about an object: it announces the object, tells an error of it, or calls it. -/
def Names (id : UInt32) : Message → Prop
  | .newObject _ named => named = id
  | .fatalError named _ _ => named = some id
  | .generic data _ => (data.drop 2).take 4 = u32Bytes id
  | _ => False

/-- The object is announced before any other message is about it. -/
def AnnouncedFirst (sent : List Message) (id : UInt32) : Prop :=
  ∃ before seq after, sent = before ++ .newObject seq id :: after ∧
    ∀ message ∈ before, ¬ Names id message

theorem AnnouncedFirst.append {sent : List Message} {id : UInt32}
    (announced : AnnouncedFirst sent id) (new : List Message) : AnnouncedFirst (sent ++ new) id := by
  obtain ⟨before, seq, after, rfl, none⟩ := announced
  refine ⟨before, seq, after ++ new, ?_, none⟩
  rw [List.append_assoc, List.cons_append]

theorem u32Bytes_inj {first second : UInt32} (same : u32Bytes first = u32Bytes second) :
    first = second := by
  have read := leadingU32_u32Bytes first
  rw [same, leadingU32_u32Bytes] at read
  exact (Except.ok.inj read).symm

/-- A call is about its object. -/
theorem call_names {object : IWireObject} {methods : List SMethod} {seq seq' method id : UInt32}
    {args : List Arg} {msg : CGenericProtocolMessage} {returned : Option (UInt32 × Str)}
    (called : object.call true methods seq method args = .ok (.send msg returned, seq'))
    (named : Names id (.generic msg.data msg.fds)) : id = object.id := by
  simp only [IWireObject.call] at called
  split at called
  · cases called
  · obtain ⟨result, run, rest⟩ := bind_eq_ok.mp called
    obtain ⟨marshalled, -, written⟩ := bind_eq_ok.mp run
    cases marshalled with
    | none =>
        cases written
        cases rest
    | some bytes =>
        cases written
        simp only [not_true, and_false, if_false] at rest
        cases rest
        exact (u32Bytes_inj named).symm

/-- The server keeps no call back. -/
theorem call_not_deferred {object : IWireObject} {methods : List SMethod}
    {seq seq' method : UInt32} {args : List Arg} {msg : CGenericProtocolMessage}
    {returned : Option (UInt32 × Str)} :
    object.call true methods seq method args ≠ .ok (.defer msg returned, seq') := by
  intro called
  simp only [IWireObject.call] at called
  split at called
  · cases called
  · obtain ⟨result, -, rest⟩ := bind_eq_ok.mp called
    cases result with
    | none => cases rest
    | some msg =>
        simp only [not_true, and_false, if_false] at rest
        cases rest

/-! ## What an act does -/

/-- The messages that are new are about objects that are listed. -/
def SendsOf (client next : CServerClient) : Prop :=
  ∃ new, next.sent = client.sent ++ new ∧
    ∀ message ∈ new, ∀ id, Names id message → id ∈ client.ids

/-- What an act does to the table. -/
inductive Tabled (impls : Impls) (client next : CServerClient) : Prop
  | kept (objects : ∀ o ∈ next.objects, o ∈ client.objects ∨
        ∃ o' ∈ client.objects, ∃ id fn, o = o'.listen id fn)
      (error : client.error = true → next.error = true) (sends : SendsOf client next)
  | broken (object : IWireObject) (objects : next.objects = client.objects ++ [object])
      (bad : ¬ Specified impls object) (error : next.error = true)
      (sent : next.sent = client.sent)
  | made (object : IWireObject) (seq : UInt32)
      (objects : next.objects = client.objects ++ [object]) (id : object.id = client.maxId)
      (good : Specified impls object) (error : next.error = client.error)
      (sent : next.sent = client.sent ++ [.newObject seq object.id])

theorem SendsOf.nothing {client next : CServerClient} (sent : next.sent = client.sent) :
    SendsOf client next :=
  ⟨[], by rw [sent, List.append_nil], fun _ new => absurd new List.not_mem_nil⟩

theorem SendsOf.one {client next : CServerClient} {message : Message}
    (sent : next.sent = client.sent ++ [message])
    (listed : ∀ id, Names id message → id ∈ client.ids) : SendsOf client next := by
  refine ⟨[message], sent, ?_⟩
  intro message one
  rw [List.mem_singleton.mp one]
  exact listed

namespace Tabled

variable {impls : Impls} {client next : CServerClient}

theorem of_same (objects : next.objects = client.objects)
    (error : client.error = true → next.error = true) (sends : SendsOf client next) :
    Tabled impls client next :=
  .kept (fun _ member => .inl (objects ▸ member)) error sends

theorem refl (client : CServerClient) : Tabled impls client client :=
  of_same rfl id (.nothing rfl)

/-- An object that was made is whole, and one that was not is not. -/
theorem createObject (protocol object : Str) (version seq : UInt32) :
    Tabled impls client (CServerClient.createObject impls protocol object version seq client).2 := by
  simp only [CServerClient.createObject]
  split
  · refine .broken _ rfl ?_ rfl rfl
    rintro ⟨p, spec, -, none, -⟩
    cases none
  · next p found =>
    split
    · next none =>
      refine .broken _ rfl ?_ rfl rfl
      rintro ⟨p', spec, -, some, -⟩
      exact absurd (none.symm.trans some) (by simp)
    · next some =>
      split
      · next above =>
        refine .broken _ rfl ?_ rfl rfl
        rintro ⟨p', spec, found', -, -, le⟩
        obtain rfl : p = p' := Option.some.inj (found.symm.trans found')
        exact absurd le (UInt32.not_le.mpr above)
      · next le =>
        obtain ⟨spec, kind⟩ := Option.ne_none_iff_exists'.mp some
        exact .made _ seq rfl rfl
          ⟨p, spec, found, kind, List.mem_of_find?_eq_some kind, UInt32.not_lt.mp le⟩ rfl rfl

/-- An error about a listed object. -/
theorem raise {object : IWireObject} (listed : object ∈ client.objects) (id : UInt32)
    (message : Str) : Tabled impls client (client.raise object id message) := by
  refine of_same rfl (fun _ => rfl) (.one rfl ?_)
  intro id named
  obtain rfl : object.id = id := Option.some.inj named
  exact List.mem_map_of_mem listed

theorem objectAt_mem {index : Nat} {object : IWireObject}
    (at_ : client.objectAt index = .ok object) : object ∈ client.objects :=
  List.mem_of_getElem? (CServerClient.objectAt_eq_ok.mp at_)

theorem outcome {index : Nat} {object : IWireObject} (listed : object ∈ client.objects)
    (outcome : Outcome) : Tabled impls client (client.outcome index object outcome).1 := by
  cases outcome with
  | ignored => exact refl client
  | error message => exact raise listed _ _
  | errd => exact of_same rfl (fun _ => rfl) (.nothing rfl)
  | invoke fn types values => exact refl client

theorem onGeneric {msg : CGenericProtocolMessage} {invocation : Option Invocation}
    (run : client.onGeneric msg = some (.ok (next, invocation))) : Tabled impls client next := by
  simp only [CServerClient.onGeneric] at run
  split at run
  · cases run
    exact refl client
  · split at run
    · cases run
    · next at_ =>
      split at run
      · cases run
      · obtain ⟨result, -, rest⟩ := Option.map_eq_some_iff.mp run
        obtain ⟨outcome, -, same⟩ := map_eq_ok.mp rest
        obtain rfl : _ = next := congrArg Prod.fst same
        exact Tabled.outcome (objectAt_mem at_) _

theorem receive {message : Received} {invocation : Option Invocation}
    (run : client.receive impls message = some (.ok (next, invocation))) :
    Tabled impls client next := by
  cases message with
  | hello => cases run; exact of_same rfl id (.one rfl fun _ none => none.elim)
  | handshakeAck version => cases run; exact of_same rfl id (.one rfl fun _ none => none.elim)
  | bindProtocol protocol seq version => cases run; exact createObject _ _ _ _
  | generic msg => exact onGeneric run
  | roundtripRequest seq => cases run; exact of_same rfl id (.nothing rfl)
  | handshakeBegin versions => cases run; exact refl client
  | handshakeProtocols protocols => cases run; exact refl client
  | newObject seq id => cases run; exact refl client
  | fatalError objectId errorId errorMsg => cases run; exact refl client
  | roundtripDone seq => cases run; exact refl client

theorem call {index : Nat} {id result : UInt32} {args : List Arg}
    (run : client.call index id args = .ok (result, next)) : Tabled impls client next := by
  obtain ⟨object, at_, rest⟩ := bind_eq_ok.mp run
  obtain ⟨spec, -, rest⟩ := bind_eq_ok.mp rest
  obtain ⟨⟨outcome, seq⟩, made, rest⟩ := bind_eq_ok.mp rest
  have listed := objectAt_mem at_
  cases outcome with
  | error message => cases rest; exact raise listed _ _
  | errd => cases rest; exact of_same rfl (fun _ => rfl) (.nothing rfl)
  | defer msg returned => exact absurd made call_not_deferred
  | send msg returned =>
      cases rest
      refine of_same rfl (fun errs => errs) (.one rfl ?_)
      intro id named
      rw [call_names made named]
      exact List.mem_map_of_mem listed

theorem listen {index : Nat} {id : UInt32} {fn : Option Callback}
    (run : client.listen index id fn = .ok next) : Tabled impls client next := by
  obtain ⟨object, at_, rest⟩ := bind_eq_ok.mp run
  cases rest
  refine .kept ?_ (fun errs => errs) (.nothing rfl)
  intro o member
  rcases List.mem_or_eq_of_mem_set member with before | rfl
  · exact .inl before
  · exact .inr ⟨object, objectAt_mem at_, id, fn, rfl⟩

end Tabled

/-- **What an act does to the table.** -/
theorem act_tabled {impls : Impls} {client next : CServerClient} {act : Act}
    (acts : client.act impls act = some (.ok next)) : Tabled impls client next := by
  cases act with
  | createObject protocol object version seq => cases acts; exact .createObject _ _ _ _
  | call object id args =>
      obtain ⟨⟨result, _⟩, called, rfl⟩ := map_eq_ok.mp (Option.some.inj acts)
      exact .call called
  | error object id message =>
      obtain ⟨object, at_, rest⟩ := bind_eq_ok.mp (Option.some.inj acts)
      cases rest
      exact .raise (Tabled.objectAt_mem at_) _ _
  | listen object id fn => exact .listen (Option.some.inj acts)
  | receive message =>
      obtain ⟨received, run, rest⟩ := Option.map_eq_some_iff.mp acts
      obtain ⟨⟨_, invocation⟩, rfl, rfl⟩ := map_eq_ok.mp rest
      exact .receive run
  | refuse => cases acts; exact .of_same rfl (fun _ => rfl) (.nothing rfl)
  | answer =>
      cases acts
      rw [CServerClient.answer]
      split
      · exact .of_same rfl (fun errs => errs) (.one rfl fun _ none => none.elim)
      · exact .refl client
  | fail message =>
      cases acts
      refine .of_same rfl (fun _ => rfl) (.one rfl ?_)
      intro id named
      cases named

/-! ## Runs -/

/-- What holds of the table in every run. -/
structure Table (impls : Impls) (client : CServerClient) : Prop where
  specified : client.error = false → ∀ object ∈ client.objects, Specified impls object
  announced : ∀ object ∈ client.objects, Specified impls object →
    AnnouncedFirst client.sent object.id
  named : ∀ message ∈ client.sent, ∀ id, Names id message → id ∈ client.ids

theorem table_start (impls : Impls) : Table impls {} where
  specified _ _ none := absurd none List.not_mem_nil
  announced _ none := absurd none List.not_mem_nil
  named _ none := absurd none List.not_mem_nil

/-- The next identifier is not in use. -/
theorem Numbered.fresh {client : CServerClient} (numbered : Numbered client)
    (few : client.objects.length + 1 < 2 ^ 32) : client.maxId ∉ client.ids := by
  rw [numbered.ids]
  intro used
  obtain ⟨i, inside, same⟩ := List.mem_map.mp used
  have less := List.mem_range.mp inside
  have value := congrArg UInt32.toNat same
  rw [numbered.toNat_maxId few, UInt32.toNat_ofNat', Nat.mod_eq_of_lt (by omega)] at value
  omega

namespace Table

variable {impls : Impls} {client next : CServerClient}

/-- **An act keeps the table**, while there are identifiers left. -/
theorem tabled (table : Table impls client) (numbered : Numbered client)
    (few : client.objects.length + 1 < 2 ^ 32) (tabled : Tabled impls client next)
    (creates : Creates client next) : Table impls next := by
  have ids : ∀ id ∈ client.ids, id ∈ next.ids := by
    intro id member
    cases creates with
    | nothing ids => rwa [ids]
    | listed ids => rw [ids]; exact List.mem_append_left _ member
    | made seq ids => rw [ids]; exact List.mem_append_left _ member
  cases tabled with
  | kept objects error sends =>
      obtain ⟨new, sent, about⟩ := sends
      refine ⟨fun clean => ?_, ?_, ?_⟩
      · have before := table.specified (clean_before error clean)
        intro o member
        rcases objects o member with old | ⟨o', old, id, fn, rfl⟩
        · exact before o old
        · exact before o' old
      · intro o member whole
        rw [sent]
        rcases objects o member with old | ⟨o', old, id, fn, rfl⟩
        · exact (table.announced o old whole).append new
        · exact (table.announced o' old whole).append new
      · rw [sent]
        intro message either id named
        rcases List.mem_append.mp either with early | late
        · exact ids id (table.named message early id named)
        · exact ids id (about message late id named)
  | broken object objects bad error sent =>
      refine ⟨fun clean => ?_, ?_, ?_⟩
      · rw [error] at clean
        cases clean
      · rw [objects, sent]
        intro o either whole
        rcases List.mem_append.mp either with old | last
        · exact table.announced o old whole
        · rw [List.mem_singleton.mp last] at whole
          exact absurd whole bad
      · rw [sent]
        exact fun message early id named => ids id (table.named message early id named)
  | made object seq objects id good error sent =>
      refine ⟨fun clean => ?_, ?_, ?_⟩
      · rw [error] at clean
        rw [objects]
        refine List.forall_mem_append.mpr ⟨table.specified clean, ?_⟩
        intro o last
        rw [List.mem_singleton.mp last]
        exact good
      · rw [objects, sent]
        intro o either whole
        rcases List.mem_append.mp either with old | last
        · exact (table.announced o old whole).append _
        · rw [List.mem_singleton.mp last]
          refine ⟨client.sent, seq, [], rfl, fun message early named => ?_⟩
          have used := table.named message early object.id named
          rw [id] at used
          exact numbered.fresh few used
      · rw [sent]
        intro message either named about
        rcases List.mem_append.mp either with early | late
        · exact ids named (table.named message early named about)
        · rw [List.mem_singleton.mp late] at about
          obtain rfl : object.id = named := about
          rw [CServerClient.ids, objects]
          exact List.mem_map_of_mem (List.mem_append_right _ (List.mem_singleton.mpr rfl))

end Table

/-- In every run the objects are numbered and the table holds. -/
theorem ActRun.table {impls : Impls} {client : CServerClient} (run : ActRun impls {} client)
    (few : client.objects.length < 2 ^ 32 - 1) : Numbered client ∧ Table impls client := by
  induction run with
  | refl => exact ⟨numbered_start, table_start impls⟩
  | step _ acts ih =>
      have creates := act_creates acts
      have less := creates.length_le
      obtain ⟨numbered, table⟩ := ih (by omega)
      exact ⟨numbered.creates creates few,
        table.tabled numbered (by omega) (act_tabled acts) creates⟩

/-- The identifiers are 1, 2, 3 and so on, in order. -/
theorem Numbered.range {client : CServerClient} (numbered : Numbered client)
    (few : client.objects.length < 2 ^ 32 - 1) :
    client.ids.map UInt32.toNat = List.range' 1 (client.maxId.toNat - 1) := by
  rw [numbered.ids, numbered.toNat_maxId (by omega), Nat.add_sub_cancel, List.range'_eq_map_range,
    List.map_map]
  refine List.map_congr_left ?_
  intro i member
  have inside := List.mem_range.mp member
  rw [Function.comp_apply, UInt32.toNat_ofNat', Nat.mod_eq_of_lt (by omega), Nat.add_comm]

/-- **The table of objects.** In every run of the connection, before the identifiers wrap, the
objects are numbered in order; without an error each is whole; each that is whole is announced
before any other message is about it. And the loop over a read calls no object that has no
kind, wherever the read began. -/
theorem object_table {α : Type} {cfg : Config α} {client : CServerClient}
    (run : ActRun cfg.impls {} client) (few : client.objects.length < 2 ^ 32 - 1) :
    (client.ids.map UInt32.toNat = List.range' 1 (client.maxId.toNat - 1) ∧
      client.ids.Nodup ∧ 0 ∉ client.ids) ∧
    (client.error = false → ∀ object ∈ client.objects, Specified cfg.impls object) ∧
    (∀ object ∈ client.objects, Specified cfg.impls object →
      AnnouncedFirst client.sent object.id) ∧
    ∀ (raw : SSocketRawParsedMessage) (s : ServerState α) (p : ParseState (ServerState α))
      (msg : CGenericProtocolMessage) (len : Nat) (left : List Fd) (object : IWireObject),
      s.client = client → Reaches (parseTurn (receiver cfg) raw.data) (firstMessage raw s) p →
      p.conn.client.objects.length < 2 ^ 32 - 1 →
      p.needle < raw.data.size ∧ p.conn.client.error = false →
      parseServer cfg.heap raw.data p.fds p.needle = some (.ok (.message (.generic msg) len, left)) →
      p.conn.client.objects.find? (fun o => o.id = msg.object) = some object →
      object.spec ≠ none := by
  obtain ⟨numbered, table⟩ := run.table few
  refine ⟨⟨numbered.range few, numbered.nodup_ids few, ?_⟩, table.specified, table.announced, ?_⟩
  · intro zero
    have value := List.mem_map_of_mem (f := UInt32.toNat) zero
    rw [numbered.range few] at value
    have positive := (List.mem_range'_1.mp value).1
    exact absurd positive (by decide)
  · rintro raw s p msg len left object rfl reaches fewer going - found
    obtain ⟨trace, acts, -, -⟩ := parseTurn_trace reaches
    obtain ⟨-, later⟩ := (run.trans acts.run).table fewer
    obtain ⟨q, spec, -, kind, -⟩ := later.specified going.2 object (List.mem_of_find?_eq_some found)
    rw [kind]
    exact Option.some_ne_none spec

/-- A server that offers one protocol, `p`, with objects of one kind. -/
def oneKind : Config Unit :=
  { idle with impls := [{ protocol := ⟨[112], 1, [⟨[111], [], []⟩]⟩, implementation := [] }] }

/-- An object is bound. -/
theorem object_table_bound :
    ∃ client, ActRun oneKind.impls {} client ∧ client.ids = [1] ∧
      (∀ object ∈ client.objects, Specified oneKind.impls object) ∧
      ∀ object ∈ client.objects, AnnouncedFirst client.sent object.id := by
  have run : ActRun oneKind.impls {} _ := .single (.createObject [112] [] 1 7) rfl
  have holds := object_table run (by decide)
  have whole := holds.2.1 rfl
  exact ⟨_, run, rfl, whole, fun object member => holds.2.2.1 object member (whole object member)⟩

end Hyprwire.Server
