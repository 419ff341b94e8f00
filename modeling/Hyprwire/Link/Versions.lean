import Hyprwire.Client.Handles
import Hyprwire.Server.Acts

/-!
# The versions of an object at its two ends

The client gives the object that `bindProtocol` makes the version that was asked for, and
every object that a call returns the version zero. The server gives a bound object the
version of the message, and every other object that of its reference. An object keeps its
version for as long as it lives (`client_act_kin`, `server_act_kin`), so that along any
chain of calls the version is known at both ends (`Chain.versions`). The two are equal, and
the checks of `since` agree, exactly for the bound object itself (`gates_agree_iff`).
-/

set_option autoImplicit false

namespace Hyprwire.Link

open Cpp Wire Object Client Server

/-! ## What an object keeps -/

/-- What never changes of an object. -/
structure Kin where
  seq : UInt32
  version : UInt32
  protocolName : Str
  spec : Option IProtocolObjectSpec
  deriving DecidableEq, Repr

def kin (object : IWireObject) : Kin :=
  ⟨object.seq, object.version, object.protocolName, object.spec⟩

/-- The objects stay in their places, and keep what never changes. -/
def Keep (first second : List IWireObject) : Prop := first.map kin <+: second.map kin

theorem Keep.refl (objects : List IWireObject) : Keep objects objects := List.prefix_rfl

theorem Keep.trans {first second third : List IWireObject} (one : Keep first second)
    (two : Keep second third) : Keep first third :=
  List.IsPrefix.trans one two

theorem Keep.of_eq {first second : List IWireObject} (same : second.map kin = first.map kin) :
    Keep first second := by
  rw [Keep, same]

theorem Keep.append (objects new : List IWireObject) : Keep objects (objects ++ new) := by
  rw [Keep, List.map_append]
  exact List.prefix_append _ _

theorem Keep.get {first second : List IWireObject} (keep : Keep first second) {index : Nat}
    {object : IWireObject} (has : first[index]? = some object) :
    ∃ object', second[index]? = some object' ∧ kin object' = kin object := by
  have mapped : (first.map kin)[index]? = some (kin object) := by
    rw [List.getElem?_map, has]
    rfl
  have later : (second.map kin)[index]? = some (kin object) := by
    obtain ⟨inside, is⟩ := List.getElem?_eq_some_iff.mp mapped
    exact List.prefix_iff_getElem?.mp keep index inside ▸ congrArg some is
  rw [List.getElem?_map] at later
  exact Option.map_eq_some_iff.mp later

/-! ## The client -/

section Client

variable {impls : Client.Impls} {client next : CClientSocket}

theorem objects_sendMessage (client : CClientSocket) (message : Message) (origin : Option Origin) :
    (client.sendMessage message origin).objects = client.objects := by
  rw [CClientSocket.sendMessage]
  split <;> rfl

/-- An object that a call returns comes behind the others, with the version zero. -/
theorem returned_objects (object : IWireObject) (kind : Option (UInt32 × Str)) :
    (CClientSocket.returned impls object client kind).2.objects = client.objects ∨
      ∃ made : IWireObject, made.version = 0 ∧
        (CClientSocket.returned impls object client kind).2.objects = client.objects ++ [made] := by
  cases kind with
  | none => exact .inl rfl
  | some both =>
      simp only [CClientSocket.returned, CClientSocket.makeObject]
      split
      · exact .inl rfl
      · exact .inr ⟨_, rfl, rfl⟩

theorem call_objects {index : Nat} {id result : UInt32} {args : List Arg}
    (called : client.call impls index id args = .ok (result, next)) :
    next.objects = client.objects ∨
      ∃ made : IWireObject, made.version = 0 ∧ next.objects = client.objects ++ [made] := by
  obtain ⟨object, spec, outcome, seq, -, -, -, after⟩ := CClientSocket.call_eq_ok.mp called
  obtain rfl : next = _ := congrArg Prod.snd after
  cases outcome with
  | error message => exact .inl rfl
  | errd => exact .inl rfl
  | defer msg kind => exact returned_objects object kind
  | send msg kind =>
      have both := @returned_objects impls (CClientSocket.direct { client with seq } index msg)
        object kind
      rwa [show (CClientSocket.direct { client with seq } index msg).objects = client.objects from
        objects_sendMessage _ _ _] at both

/-- **The client's objects keep their versions.** -/
theorem client_act_kin {act : Client.Act} (acts : client.act impls act = some (.ok next)) :
    Keep client.objects next.objects := by
  cases act with
  | call index id args =>
      obtain ⟨⟨result, _⟩, called, rfl⟩ := map_eq_ok.mp (Option.some.inj acts)
      rcases call_objects called with same | ⟨made, -, more⟩
      · rw [same]
        exact .refl _
      · rw [more]
        exact .append _ _
  | listen index id fn =>
      obtain ⟨object, at_, rest⟩ := bind_eq_ok.mp (Option.some.inj acts)
      cases rest
      exact .of_eq (map_set_same (CClientSocket.objectAt_eq_ok.mp at_) rfl)
  | bindProtocol spec version =>
      obtain ⟨⟨object, _⟩, bound, rfl⟩ := map_eq_ok.mp (Option.some.inj acts)
      simp only [CClientSocket.bindProtocol] at bound
      split at bound
      · cases bound
        exact .refl _
      · split at bound
        · cases bound
        · cases bound
          rw [objects_sendMessage]
          exact .append _ _
  | roundtrip =>
      cases acts
      rw [CClientSocket.roundtrip]
      split
      · exact .refl _
      · rw [objects_sendMessage]
        exact .refl _
  | receive message =>
      obtain ⟨received, run, rest⟩ := Option.map_eq_some_iff.mp acts
      obtain ⟨⟨_, invocation⟩, rfl, rfl⟩ := map_eq_ok.mp rest
      cases message with
      | handshakeBegin versions =>
          cases run
          rw [objects_sendMessage]
          exact .refl _
      | handshakeProtocols protocols =>
          cases run
          obtain ⟨specs, error, isOpen, same, -⟩ := client.addServerSpecs_eq protocols
          rw [CClientSocket.takeServerSpecs, same]
          exact .refl _
      | newObject seq id =>
          cases run
          rw [CClientSocket.onSeq]
          split
          · exact .refl _
          · next index found =>
            obtain ⟨inside, -⟩ := List.findIdx?_eq_some_iff_getElem.mp found
            have has := List.getElem?_eq_getElem inside
            refine .of_eq ?_
            rw [List.modify_eq_set_getElem?, has]
            exact map_set_same has rfl
      | generic msg =>
          rw [(CClientSocket.onGeneric_eq_ok run).1]
          exact .refl _
      | _ =>
          cases run
          exact .refl _
  | refuse =>
      cases acts
      exact .refl _
  | flushPending =>
      cases acts
      rw [CClientSocket.flushPending_eq]
      exact .of_eq (congrArg _ (CClientSocket.objects_write _ _))
  | disconnectOnError =>
      cases acts
      exact .refl _

end Client

/-! ## The server -/

section Server

variable {impls : Server.Impls} {client next : CServerClient}

/-- An object that is created comes behind the others, with the version that was given. -/
theorem createObject_objects (protocol object : Str) (version seq : UInt32) :
    ∃ made : IWireObject, made.version = version ∧
      (CServerClient.createObject impls protocol object version seq client).2.objects =
        client.objects ++ [made] := by
  simp only [CServerClient.createObject]
  split
  · exact ⟨_, rfl, rfl⟩
  · split
    · exact ⟨_, rfl, rfl⟩
    · split
      · exact ⟨_, rfl, rfl⟩
      · exact ⟨_, rfl, rfl⟩

/-- An object that was made has the last place. -/
theorem createObject_made {protocol object : Str} {version seq : UInt32} {index : Nat}
    (made : CServerClient.createObject impls protocol object version seq client =
      (some index, next)) : index = client.objects.length := by
  simp only [CServerClient.createObject] at made
  split at made
  · cases made
  · split at made
    · cases made
    · split at made
      · cases made
      · cases made
        rfl

/-- **The server's objects keep their versions.** -/
theorem server_act_kin {act : Server.Act} (acts : client.act impls act = some (.ok next)) :
    Keep client.objects next.objects := by
  have created : ∀ (protocol object : Str) (version seq : UInt32), Keep client.objects
      (CServerClient.createObject impls protocol object version seq client).2.objects := by
    intro protocol object version seq
    obtain ⟨made, -, more⟩ := @createObject_objects impls client protocol object version seq
    rw [more]
    exact .append _ _
  cases act with
  | createObject protocol object version seq =>
      cases acts
      exact created _ _ _ _
  | call index id args =>
      obtain ⟨⟨result, _⟩, called, rfl⟩ := map_eq_ok.mp (Option.some.inj acts)
      obtain ⟨object, -, rest⟩ := bind_eq_ok.mp called
      obtain ⟨spec, -, rest⟩ := bind_eq_ok.mp rest
      obtain ⟨⟨outcome, seq⟩, -, rest⟩ := bind_eq_ok.mp rest
      cases outcome <;> cases rest <;> exact .refl _
  | error index id message =>
      obtain ⟨object, -, rest⟩ := bind_eq_ok.mp (Option.some.inj acts)
      cases rest
      exact .refl _
  | listen index id fn =>
      obtain ⟨object, at_, rest⟩ := bind_eq_ok.mp (Option.some.inj acts)
      cases rest
      exact .of_eq (map_set_same (CServerClient.objectAt_eq_ok.mp at_) rfl)
  | receive message =>
      obtain ⟨received, run, rest⟩ := Option.map_eq_some_iff.mp acts
      obtain ⟨⟨_, invocation⟩, rfl, rfl⟩ := map_eq_ok.mp rest
      cases message with
      | bindProtocol protocol seq version =>
          cases run
          exact created _ _ _ _
      | generic msg =>
          simp only [CServerClient.receive, CServerClient.onGeneric] at run
          split at run
          · cases run
            exact .refl _
          · split at run
            · cases run
            · split at run
              · cases run
              · obtain ⟨result, -, rest⟩ := Option.map_eq_some_iff.mp run
                obtain ⟨outcome, -, same⟩ := map_eq_ok.mp rest
                cases outcome <;> cases same <;> exact .refl _
      | _ =>
          cases run
          exact .refl _
  | refuse =>
      cases acts
      exact .refl _
  | answer =>
      cases acts
      rw [CServerClient.answer]
      split <;> exact .refl _
  | fail message =>
      cases acts
      exact .refl _

end Server

/-! ## Chains of calls -/

/-- The object at a place of the client and the object at a place of the server are the two
ends of one: of a protocol that was bound with some version, or of what a call on such an
object has returned, after a number of calls. Both ends can do anything in between. -/
inductive Chain (clientImpls : Client.Impls) (serverImpls : Server.Impls) (spec : IProtocolSpec)
    (version : UInt32) : Nat → CClientSocket → Nat → CServerClient → Nat → Prop
  | bound {c c' : CClientSocket} {s s' : CServerClient} {index place : Nat}
      (binds : c.bindProtocol spec version = .ok (some index, c'))
      (creates : CServerClient.createObject serverImpls spec.specName [] version (c.seq + 1) s =
        (some place, s')) :
      Chain clientImpls serverImpls spec version 0 c' index s' place
  | clientActs {n index place : Nat} {c c' : CClientSocket} {s : CServerClient} {act : Client.Act}
      (chain : Chain clientImpls serverImpls spec version n c index s place)
      (acts : c.act clientImpls act = some (.ok c')) :
      Chain clientImpls serverImpls spec version n c' index s place
  | serverActs {n index place : Nat} {c : CClientSocket} {s s' : CServerClient} {act : Server.Act}
      (chain : Chain clientImpls serverImpls spec version n c index s place)
      (acts : s.act serverImpls act = some (.ok s')) :
      Chain clientImpls serverImpls spec version n c index s' place
  | returned {n index place place' : Nat} {c c' : CClientSocket} {s s' : CServerClient}
      {id seq : UInt32} {args : List Arg} {object reference : IWireObject}
      {kind : IProtocolObjectSpec} {method : SMethod}
      (chain : Chain clientImpls serverImpls spec version n c index s place)
      (has : c.objects[index]? = some object) (spec_ : object.spec = some kind)
      (calls : kind.c2s[id.toNat]? = some method)
      (called : c.call clientImpls index id args = .ok (seq, c'))
      (made : c'.objects.length = c.objects.length + 1)
      (refers : s.objects[place]? = some reference)
      (creates : CServerClient.createObject serverImpls reference.protocolName method.returnsType
        reference.version seq s = (some place', s')) :
      Chain clientImpls serverImpls spec version (n + 1) c' c.objects.length s' place'

/-- The version of a client's object after a number of calls. -/
def clientVersion (n : Nat) (version : UInt32) : UInt32 := if n = 0 then version else 0

/-- **The versions along a chain.** -/
theorem Chain.versions {clientImpls : Client.Impls} {serverImpls : Server.Impls}
    {spec : IProtocolSpec} {version : UInt32} {n index place : Nat} {c : CClientSocket}
    {s : CServerClient} (chain : Chain clientImpls serverImpls spec version n c index s place) :
    (∃ object, c.objects[index]? = some object ∧ object.version = clientVersion n version) ∧
      ∃ object, s.objects[place]? = some object ∧ object.version = version := by
  have created : ∀ {protocol object : Str} {version seq : UInt32} {s s' : CServerClient}
      {place : Nat}, CServerClient.createObject serverImpls protocol object version seq s =
        (some place, s') → ∃ object, s'.objects[place]? = some object ∧
          object.version = version := by
    intro protocol object version seq s s' place creates
    obtain ⟨new, same, more⟩ :=
      @createObject_objects serverImpls s protocol object version seq
    rw [creates] at more
    obtain rfl := createObject_made creates
    exact ⟨new, by rw [more]; exact List.getElem?_concat_length, same⟩
  induction chain with
  | bound binds creates =>
      refine ⟨?_, created creates⟩
      simp only [CClientSocket.bindProtocol] at binds
      split at binds
      · cases binds
      · split at binds
        · cases binds
        · cases binds
          rw [objects_sendMessage]
          exact ⟨_, List.getElem?_concat_length, rfl⟩
  | clientActs _ acts ih =>
      obtain ⟨⟨object, has, same⟩, server⟩ := ih
      obtain ⟨object', has', kin⟩ := (client_act_kin acts).get has
      exact ⟨⟨object', has', (congrArg Kin.version kin).trans same⟩, server⟩
  | serverActs _ acts ih =>
      obtain ⟨client, object, has, same⟩ := ih
      obtain ⟨object', has', kin⟩ := (server_act_kin acts).get has
      exact ⟨client, object', has', (congrArg Kin.version kin).trans same⟩
  | returned chain has _ _ called made refers creates ih =>
      obtain ⟨-, object, has', same⟩ := ih
      obtain rfl := Option.some.inj (has'.symm.trans refers)
      rw [same] at creates
      refine ⟨?_, created creates⟩
      rcases call_objects called with nothing | ⟨new, zero, more⟩
      · rw [nothing] at made
        omega
      · rw [more]
        exact ⟨new, List.getElem?_concat_length, zero⟩

/-! ## The checks of `since` -/

/-- The check of `since` refuses a method on an object. -/
def Gated (object : IWireObject) (method : SMethod) : Prop := object.version < method.since

instance (object : IWireObject) (method : SMethod) : Decidable (Gated object method) :=
  inferInstanceAs (Decidable (_ < _))

/-- A client refuses a call to a method it has exactly by the check of `since`. -/
theorem checkCall_gated {object : IWireObject} {methods : List SMethod} {id : UInt32}
    {method : SMethod} (has : methods[id.toNat]? = some method) :
    (∃ message, checkCall object false methods id = .error message) ↔ Gated object method := by
  simp only [checkCall, has]
  split
  · next refused => exact iff_of_true ⟨_, rfl⟩ refused
  · next allowed => exact iff_of_false (by simp) allowed

/-- A call that is received by a listener is looked at exactly when that check lets it
through. -/
theorem called_gated {object : IWireObject} {methods : List SMethod} {id : UInt32}
    {method : SMethod} {fn : Callback} {data : View} {fds : List Fd}
    (has : methods[id.toNat]? = some method)
    (listens : (object.listeners[id.toNat]?).join = some fn) :
    object.called methods id data fds =
      if object.version < method.since then
        some (.ok (.error s!"method {id} since {method.since} but has {object.version}"))
      else
        callListener method fn id data fds := by
  simp only [IWireObject.called, has, listens]

/-- The two ends of an object have one version, the client refuses the calls that the server
would refuse, and takes the events that the server may send. -/
structure GatesAgree (client server : IWireObject) : Prop where
  version : client.version = server.version
  calls : ∀ method, Gated client method ↔ Gated server method
  events : ∀ method, ¬ Gated server method → ¬ Gated client method

theorem GatesAgree.of_version {client server : IWireObject}
    (same : client.version = server.version) : GatesAgree client server where
  version := same
  calls method := by rw [Gated, Gated, same]
  events method sent := by rwa [Gated, same]

/-- **The checks of `since` agree at the two ends exactly for the object that was bound**, and
for all objects of a protocol bound with the version zero. -/
theorem gates_agree_iff {clientImpls : Client.Impls} {serverImpls : Server.Impls}
    {spec : IProtocolSpec} {version : UInt32} {n index place : Nat} {c : CClientSocket}
    {s : CServerClient} (chain : Chain clientImpls serverImpls spec version n c index s place) :
    ∃ client server, c.objects[index]? = some client ∧ s.objects[place]? = some server ∧
      (GatesAgree client server ↔ n = 0 ∨ version = 0) ∧
      ∀ method, (Gated client method ↔ Gated server method) ↔
        n = 0 ∨ ¬ (0 < method.since ∧ method.since ≤ version) := by
  obtain ⟨⟨client, has, zero⟩, server, has', same⟩ := chain.versions
  refine ⟨client, server, has, has', ?_, fun method => ?_⟩
  · constructor
    · intro agree
      have equal := agree.version
      rw [zero, same, clientVersion] at equal
      by_cases first : n = 0
      · exact .inl first
      · rw [if_neg first] at equal
        exact .inr equal.symm
    · intro either
      refine .of_version ?_
      rw [zero, same, clientVersion]
      rcases either with rfl | rfl
      · rfl
      · split <;> rfl
  · rw [Gated, Gated, zero, same, clientVersion]
    by_cases first : n = 0
    · rw [if_pos first]
      exact iff_of_true Iff.rfl (.inl first)
    · rw [if_neg first, or_iff_right first, not_and, UInt32.not_le]
      constructor
      · exact fun both positive => both.mp positive
      · refine fun later => ⟨later, fun lower => ?_⟩
        exact UInt32.lt_of_le_of_lt UInt32.zero_le lower

/-- A protocol whose first object returns one with a method that came with version one. -/
def layered : IProtocolSpec where
  specName := [0x61]
  specVer := 1
  objects := [
    { objectName := [0x6f], c2s := [{ params := [], returnsType := [0x6b] }], s2c := [] },
    { objectName := [0x6b], c2s := [{ params := [], since := 1 }], s2c := [] }]

/-- The bound object has the version one at both ends. -/
theorem gates_agree_bound :
    ∃ (c : CClientSocket) (s : CServerClient) (client server : IWireObject),
      Chain [⟨layered⟩] [⟨layered, []⟩] layered 1 0 c 0 s 0 ∧ c.objects[0]? = some client ∧
        s.objects[0]? = some server ∧ GatesAgree client server := by
  have chain := @Chain.bound [⟨layered⟩] [⟨layered, []⟩] layered 1 {} _ {} _ _ _ rfl rfl
  obtain ⟨client, server, has, has', agree, -⟩ := gates_agree_iff chain
  exact ⟨_, _, client, server, chain, has, has', agree.mpr (.inl rfl)⟩

/-- The object that a call returns has the version zero at the client and one at the server,
so that the client refuses a call that the server would take. -/
theorem gates_differ :
    ∃ (c : CClientSocket) (s : CServerClient) (client server : IWireObject) (method : SMethod),
      Chain [⟨layered⟩] [⟨layered, []⟩] layered 1 1 c 1 s 1 ∧ c.objects[1]? = some client ∧
        s.objects[1]? = some server ∧ client.version = 0 ∧ server.version = 1 ∧
        Gated client method ∧ ¬ Gated server method := by
  have bound := @Chain.bound [⟨layered⟩] [⟨layered, []⟩] layered 1 {} _ {} _ _ _ rfl rfl
  have chain := @Chain.returned _ _ _ _ _ _ _ _ _ _ _ _ 0 2 [] _ _ _
    { params := [], returnsType := [0x6b] } bound rfl rfl rfl rfl rfl rfl rfl
  exact ⟨_, _, _, _, { params := [], since := 1 }, chain, rfl, rfl, rfl, rfl, by decide, by decide⟩

end Hyprwire.Link
