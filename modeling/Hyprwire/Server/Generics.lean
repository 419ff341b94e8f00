import Hyprwire.Object.TypeCheck
import Hyprwire.Server.ServerClient
import Hyprwire.Wire.Accepted

/-!
# Dispatch of generic messages

A generic message asks for a method of an object (`Asks`) when there is the object and the
method, the version is high enough, and the magics on the wire are the types of the method.
`Asks.called` shows that such a message always reaches the listener, with its values and
without an error. The other messages are not always refused: no error is raised for an
object that is not there, for a method that nothing listens to, and for elements behind the
last parameter. `Decided` has the messages for which the decision is right, and
`generic_dispatched` says that these are all.
-/

set_option autoImplicit false

namespace Hyprwire.Server

open Cpp Wire Object CServerClient CGenericProtocolMessage

/-- The object a message is for, the first with its identifier, and the kind of the object. -/
structure Addressed (client : CServerClient) (msg : CGenericProtocolMessage) (index : Nat)
    (object : IWireObject) (spec : IProtocolObjectSpec) : Prop where
  first : client.objects.findIdx? (fun o => o.id = msg.object) = some index
  place : client.objects[index]? = some object
  kind : object.spec = some spec

/-- The function that listens to the method of a message. -/
def listenerOf (object : IWireObject) (msg : CGenericProtocolMessage) : Option Callback :=
  (object.listeners[msg.method.toNat]?).join

/-- A message asks for a method: there is one with its number, the object has its version,
and the magics of the message, whose elements are the tokens, are its parameters. -/
structure Asks (client : CServerClient) (msg : CGenericProtocolMessage) (tokens : List Token)
    (index : Nat) (object : IWireObject) : Prop where
  madeOf : MadeOf msg tokens
  method : ∃ spec method, Addressed client msg index object spec ∧
    spec.c2s[msg.method.toNat]? = some method ∧ method.since ≤ object.version ∧
      tokens.flatMap Token.params = method.wireParams

/-- The call of the listener, if there is one, with the values of the tokens. -/
def heard (object : IWireObject) (msg : CGenericProtocolMessage) (tokens : List Token)
    (index : Nat) : Option Invocation :=
  (listenerOf object msg).map fun fn => .listener fn index (tokens.flatMap Token.values)

/-- **The decision over a message**: what asks for a method is heard, without an error, and
everything else is refused with a `FATAL_PROTOCOL_ERROR` and without a call. -/
structure Exact (client : CServerClient) (msg : CGenericProtocolMessage) : Prop where
  called : ∀ tokens index object, Asks client msg tokens index object →
    client.onGeneric msg = some (.ok (client, heard object msg tokens index))
  refused : (¬ ∃ tokens index object, Asks client msg tokens index object) →
    ∃ objectId errorId errorMsg, client.onGeneric msg =
      some (.ok ((client.sendMessage (.fatalError objectId errorId errorMsg)).setError, none))

/-- The messages that are decided rightly: all of them are for an object that is there. -/
inductive Decided (client : CServerClient) (msg : CGenericProtocolMessage) : Prop
  /-- The object has no such method. -/
  | unknown {index : Nat} {object : IWireObject} {spec : IProtocolObjectSpec}
      (addressed : Addressed client msg index object spec)
      (outside : spec.c2s.length ≤ msg.method.toNat)
  /-- The method is listened to, and is too new. -/
  | tooNew {index : Nat} {object : IWireObject} {spec : IProtocolObjectSpec} {method : SMethod}
      (addressed : Addressed client msg index object spec)
      (is : spec.c2s[msg.method.toNat]? = some method) (listens : listenerOf object msg ≠ none)
      (new : object.version < method.since)
  /-- The method is listened to, and its types are not on the wire. -/
  | other {tokens : List Token} {index : Nat} {object : IWireObject} {spec : IProtocolObjectSpec}
      {method : SMethod} (madeOf : MadeOf msg tokens)
      (addressed : Addressed client msg index object spec)
      (is : spec.c2s[msg.method.toNat]? = some method) (listens : listenerOf object msg ≠ none)
      (differ : differs method.wireParams (tokens.flatMap Token.params) = true)
  /-- The message asks for the method. -/
  | asks {tokens : List Token} {index : Nat} {object : IWireObject}
      (asks : Asks client msg tokens index object)

/-! ## The call of an object -/

section Called

variable {client : CServerClient} {msg : CGenericProtocolMessage} {tokens : List Token}
  {index : Nat} {object : IWireObject} {spec : IProtocolObjectSpec} {method : SMethod}

/-- What is addressed is called. -/
theorem Addressed.onGeneric_eq (addressed : Addressed client msg index object spec) :
    client.onGeneric msg =
      (object.called spec.c2s msg.method msg.dataSpan msg.fds).map fun result =>
        result.map (client.outcome index object) := by
  rw [onGeneric, addressed.first]
  simp only [objectAt_eq_ok.mpr addressed.place, specOf_eq_ok.mpr addressed.kind]

/-- A method that nothing listens to. -/
theorem called_silent {id : UInt32} {methods : List SMethod} {data : View} {fds : List Fd}
    (is : methods[id.toNat]? = some method) (silent : (object.listeners[id.toNat]?).join = none) :
    object.called methods id data fds = some (.ok .ignored) := by
  rw [IWireObject.called, is]
  simp only [silent]

/-- A method that is listened to is called, unless it is too new. -/
theorem called_heard {id : UInt32} {methods : List SMethod} {data : View} {fds : List Fd}
    {fn : Callback} (is : methods[id.toNat]? = some method)
    (listens : (object.listeners[id.toNat]?).join = some fn) :
    object.called methods id data fds =
      if object.version < method.since then
        some (.ok (.error s!"method {id} since {method.since} but has {object.version}"))
      else
        callListener method fn id data fds := by
  rw [IWireObject.called, is]
  simp only [listens]

/-- **What asks for a method is heard**, and no error is raised. -/
theorem Asks.called (asks : Asks client msg tokens index object) :
    client.onGeneric msg = some (.ok (client, heard object msg tokens index)) := by
  obtain ⟨madeOf, spec, method, addressed, is, since, types⟩ := asks
  rw [addressed.onGeneric_eq, heard]
  cases listens : listenerOf object msg with
  | none =>
      rw [called_silent is listens]
      rfl
  | some fn =>
      have called := @callListener_tokens method fn msg.method msg.dataSpan tokens types.symm
        madeOf.payload madeOf.inside madeOf.small
      rw [called_heard is listens, if_neg (UInt32.not_lt.mpr since), madeOf.fds, called]
      rfl

/-- A refusal is sent. -/
theorem refused_ne {next : CServerClient} (unsent : next.sent = client.sent)
    {objectId : Option UInt32} {errorId : UInt32} {errorMsg : Str}
    {invocation : Option Invocation} :
    (next, invocation) ≠
      ((client.sendMessage (.fatalError objectId errorId errorMsg)).setError, none) := by
  intro same
  have sent : next.sent.length = (client.sent ++ [_]).length :=
    congrArg (fun pair => pair.1.sent.length) same
  rw [unsent, List.length_append] at sent
  exact absurd sent (Nat.ne_of_lt (Nat.lt_succ_self _))

/-- A refusal of the object is sent, and the connection is in error. -/
theorem Addressed.raised (addressed : Addressed client msg index object spec) {message : String}
    (error : object.called spec.c2s msg.method msg.dataSpan msg.fds = some (.ok (.error message))) :
    ∃ objectId errorId errorMsg, client.onGeneric msg =
      some (.ok ((client.sendMessage (.fatalError objectId errorId errorMsg)).setError, none)) := by
  refine ⟨some object.id, object.id, text message, ?_⟩
  rw [addressed.onGeneric_eq, error]
  rfl

/-- A message that is refused is for an object whose call comes to an error. -/
theorem addressed_of_refused {objectId : Option UInt32} {errorId : UInt32} {errorMsg : Str}
    (refused : client.onGeneric msg =
      some (.ok ((client.sendMessage (.fatalError objectId errorId errorMsg)).setError, none))) :
    ∃ index object spec message, Addressed client msg index object spec ∧
      object.called spec.c2s msg.method msg.dataSpan msg.fds = some (.ok (.error message)) := by
  rw [onGeneric] at refused
  split at refused
  · exact absurd (Except.ok.inj (Option.some.inj refused)) (refused_ne rfl)
  · next index first =>
    split at refused
    · cases refused
    · next object found =>
      split at refused
      · cases refused
      · next spec kind =>
        obtain ⟨result, called, rest⟩ := Option.map_eq_some_iff.mp refused
        obtain ⟨outcome, rfl, same⟩ := map_eq_ok.mp rest
        have addressed : Addressed client msg index object spec :=
          ⟨first, objectAt_eq_ok.mp found, specOf_eq_ok.mp kind⟩
        cases outcome with
        | error message => exact ⟨index, object, spec, message, addressed, called⟩
        | ignored => exact absurd same (refused_ne rfl)
        | errd => exact absurd same (refused_ne rfl)
        | invoke fn types values => exact absurd same (refused_ne rfl)

end Called

/-! ## The decision -/

section Decision

variable {client : CServerClient} {msg : CGenericProtocolMessage}

/-- **The right decisions**: what is decided is decided rightly. -/
theorem Decided.exact (decided : Decided client msg) : Exact client msg := by
  refine ⟨fun tokens index object asks => asks.called, fun never => ?_⟩
  cases decided with
  | @unknown index object spec addressed outside =>
      refine @Addressed.raised _ _ index object spec addressed
        s!"invalid method {msg.method} for object {object.id}" ?_
      rw [IWireObject.called, List.getElem?_eq_none outside]
  | @tooNew index object spec method addressed is listens new =>
      obtain ⟨fn, heard⟩ := Option.ne_none_iff_exists'.mp listens
      refine @Addressed.raised _ _ index object spec addressed
        s!"method {msg.method} since {method.since} but has {object.version}" ?_
      rw [called_heard is heard, if_pos new]
  | @other tokens index object spec method madeOf addressed is listens differ =>
      obtain ⟨fn, heard⟩ := Option.ne_none_iff_exists'.mp listens
      by_cases new : object.version < method.since
      · refine @Addressed.raised _ _ index object spec addressed
          s!"method {msg.method} since {method.since} but has {object.version}" ?_
        rw [called_heard is heard, if_pos new]
      · obtain ⟨message, called⟩ :=
          (@callListener_error_iff method fn msg.method msg.dataSpan tokens madeOf.payload
            madeOf.inside madeOf.small).mpr differ
        refine @Addressed.raised _ _ index object spec addressed message ?_
        rw [called_heard is heard, if_neg new, madeOf.fds, called]
  | @asks tokens index object asks => exact absurd ⟨tokens, index, object, asks⟩ never

/-- What is decided rightly is decided, when the message is made of tokens. -/
theorem Exact.decided (exact : Exact client msg) {tokens : List Token}
    (madeOf : MadeOf msg tokens) : Decided client msg := by
  by_cases some_ : ∃ tokens index object, Asks client msg tokens index object
  · obtain ⟨tokens, index, object, asks⟩ := some_
    exact .asks asks
  · obtain ⟨objectId, errorId, errorMsg, refused⟩ := exact.refused some_
    obtain ⟨index, object, spec, message, addressed, called⟩ := addressed_of_refused refused
    cases is : spec.c2s[msg.method.toNat]? with
    | none => exact .unknown addressed (List.getElem?_eq_none_iff.mp is)
    | some method =>
        cases listens : listenerOf object msg with
        | none =>
            rw [called_silent is listens] at called
            cases called
        | some fn =>
            have hears : listenerOf object msg ≠ none := Option.ne_none_iff_exists'.mpr ⟨fn, listens⟩
            rw [called_heard is listens] at called
            split at called
            · next new => exact .tooNew addressed is hears new
            · rw [madeOf.fds] at called
              exact .other madeOf addressed is hears
                ((callListener_error_iff madeOf.payload madeOf.inside madeOf.small).mp
                  ⟨message, called⟩)

end Decision

/-- **Generic messages are dispatched exactly** when they are decided: for every client and
every message that the decoder accepts, a message that is decided is heard or refused as it
should be, and the other ones that have no negative length prefix are not. -/
theorem generic_dispatched (client : CServerClient) {v : ByteVec} {outside : Nat → Option UInt8}
    {offset : Nat} {fds rest : List Fd} {msg : CGenericProtocolMessage}
    (accepted : decode (v.viewIn outside) fds offset = some (.ok (msg, rest)))
    (length : msg.len ≠ 0) :
    (Decided client msg → Exact client msg) ∧
      (Unsigned (v.viewIn outside) offset fds → Exact client msg → Decided client msg) := by
  refine ⟨Decided.exact, fun unsigned exact => ?_⟩
  obtain ⟨tokens, madeOf, -⟩ :=
    accepted_madeOf (filled_viewIn v outside) v.length_lt accepted length unsigned
  exact exact.decided madeOf

/-- A call of method 0 of object 5 with the word 7. -/
def wordCall : ByteVec :=
  ⟨[100, 0x22, 5, 0, 0, 0, 0x10, 0, 0, 0, 0, 0x10, 7, 0, 0, 0, 0], by decide⟩

/-- The message it is. -/
def wordMessage : CGenericProtocolMessage where
  object := 5
  method := 0
  len := 17
  dataSpan := wordCall.strict.span 11 6

/-- A client with an object 5, whose method 0 takes a word and is listened to. -/
def listening : CServerClient where
  objects := [{
    listeners := [some 3]
    id := 5
    version := 1
    spec := some { objectName := [111], c2s := [{ params := [0x10] }], s2c := [] } }]

theorem wordMessage_accepted : decode wordCall.strict [] 0 = some (.ok (wordMessage, [])) := by
  have split : wordCall.data = wordCall.data.take 11 ++
      ([Token.word ⟨.typeUint, rfl⟩ 7].flatMap Token.bytes ++ [EMessageMagic.endMark.code]) ++ [] :=
    rfl
  exact @decode_tokens wordCall.strict 0 5 0 [.word ⟨.typeUint, rfl⟩ 7] [] rfl
    (ByteVec.holds_strict split) (by decide) (by decide)

/-- The call is heard. -/
theorem generic_dispatched_word : Exact listening wordMessage := by
  have accepted := wordMessage_accepted
  rw [← ByteVec.viewIn_none] at accepted
  have elements : wordMessage.dataSpan.Holds 0
      ([Token.word ⟨.typeUint, rfl⟩ 7].flatMap Token.bytes ++ [EMessageMagic.endMark.code]) :=
    View.holds_span.mpr (@ByteVec.holds_strict wordCall (wordCall.data.take 11) _ [] rfl)
  have madeOf : MadeOf wordMessage [.word ⟨.typeUint, rfl⟩ 7] := ⟨elements, rfl, by decide, rfl⟩
  exact (generic_dispatched listening accepted (by decide)).1
    (.asks ⟨madeOf, _, _, ⟨rfl, rfl, rfl⟩, rfl, by decide, rfl⟩)

/-- No error is raised for an object that is not there. -/
theorem unknown_object_ignored :
    decode wordCall.strict [] 0 = some (.ok (wordMessage, [])) ∧ ¬ Exact {} wordMessage := by
  refine ⟨wordMessage_accepted, fun exact => ?_⟩
  obtain ⟨objectId, errorId, errorMsg, refused⟩ := exact.refused (by
    rintro ⟨tokens, index, object, asks⟩
    obtain ⟨spec, method, addressed, -⟩ := asks.method
    cases addressed.place)
  cases refused

end Hyprwire.Server
