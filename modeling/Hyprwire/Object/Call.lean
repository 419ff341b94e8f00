import Mathlib.Data.List.TakeWhile
import Hyprwire.Object.Spec

/-!
# Calls

`IWireObject::call` takes a method and variadic arguments. It checks the method
against the object (`checkCall`) and writes the arguments after each other in the
order of the method's parameters (`marshal`). The bytes of a message are those of
`callData`. The message is sent, or kept back by a client that does not know the
identifier of its object yet; `IWireObject.call` says which, and the two ends act on
it in their own modules.

A variadic argument is read at the type the parameter asks for. Reading it at
another type than it was passed at is undefined, and a fault here.
-/

set_option autoImplicit false

namespace Hyprwire.Object

open Cpp Wire

/-- A variadic argument. A `float` is passed as a `double` and stands here by the 32
bits it has again after the conversion back. A pointer stands by what it points to. -/
inductive Arg where
  | word (bits : UInt32)
  | double (bits : UInt32)
  | string (bytes : Str)
  | words (elements : List UInt32)
  | strings (elements : List Str)
  deriving DecidableEq, Repr

/-- `std::string_view(str)`: the bytes before the first NUL. -/
def cString (bytes : Str) : Str := bytes.takeWhile (· ≠ 0)

/-- `va_arg(va, uint32_t)` and `va_arg(va, int32_t)`. -/
def vaWord : List Arg → Except Fault (UInt32 × List Arg)
  | .word bits :: args => .ok (bits, args)
  | _ => .error .badVararg

/-- `va_arg(va, double)`, converted to `float`. -/
def vaDouble : List Arg → Except Fault (UInt32 × List Arg)
  | .double bits :: args => .ok (bits, args)
  | _ => .error .badVararg

/-- `va_arg(va, const char*)`. -/
def vaString : List Arg → Except Fault (Str × List Arg)
  | .string bytes :: args => .ok (cString bytes, args)
  | _ => .error .badVararg

/-- `va_arg(va, void*)`. -/
def vaPointer : List Arg → Except Fault (Arg × List Arg)
  | .words elements :: args => .ok (.words elements, args)
  | .strings elements :: args => .ok (.strings elements, args)
  | _ => .error .badVararg

/-- The arguments that are left are among those there were. -/
theorem vaWord_eq_ok {args rest : List Arg} {bits : UInt32} (read : vaWord args = .ok (bits, rest)) :
    args = .word bits :: rest := by
  rcases args with _ | ⟨arg, args⟩
  · cases read
  · cases arg <;> cases read
    rfl

theorem vaDouble_eq_ok {args rest : List Arg} {bits : UInt32}
    (read : vaDouble args = .ok (bits, rest)) : args = .double bits :: rest := by
  rcases args with _ | ⟨arg, args⟩
  · cases read
  · cases arg <;> cases read
    rfl

theorem vaString_eq_ok {args rest : List Arg} {string : Str}
    (read : vaString args = .ok (string, rest)) :
    ∃ bytes, args = .string bytes :: rest ∧ string = cString bytes := by
  rcases args with _ | ⟨arg, args⟩
  · cases read
  · cases arg <;> cases read
    exact ⟨_, rfl, rfl⟩

theorem vaPointer_eq_ok {args rest : List Arg} {pointer : Arg}
    (read : vaPointer args = .ok (pointer, rest)) : args = pointer :: rest := by
  rcases args with _ | ⟨arg, args⟩
  · cases read
  · cases arg <;> cases read <;> rfl

/-- `arrLen` elements of 32 bits behind a pointer. -/
def pointedWords (arrLen : Nat) : Arg → Except Fault (List UInt32)
  | .words elements =>
      if arrLen ≤ elements.length then .ok (elements.take arrLen) else .error .outOfBounds
  | _ => .error .badVararg

/-- `arrLen` strings behind a pointer. -/
def pointedStrings (arrLen : Nat) : Arg → Except Fault (List Str)
  | .strings elements =>
      if arrLen ≤ elements.length then
        .ok ((elements.take arrLen).map cString)
      else
        .error .outOfBounds
  | _ => .error .badVararg

/-- A string after its length. -/
def lengthPrefixed (string : Str) : List UInt8 := encodeVarInt string.length ++ string

/-- The elements of an array: their bytes and descriptors, or nothing when the type
cannot be marshalled. -/
def marshalArray (arrType : UInt8) (pointer : Arg) (arrLen : Nat) :
    Except Fault (Option (List UInt8 × List Fd)) :=
  match EMessageMagic.ofByte arrType with
  | some .typeUint | some .typeInt | some .typeF32 | some .typeObject => do
      let elements ← pointedWords arrLen pointer
      return some (elements.flatMap u32Bytes, [])
  | some .typeFd => do
      let elements ← pointedWords arrLen pointer
      return some ([], elements)
  | some .typeVarchar => do
      let elements ← pointedStrings arrLen pointer
      return some (elements.flatMap lengthPrefixed, [])
  | _ => .ok none

/-- One turn of the loop over the parameters: what it writes, and the arguments that
are left. The magic of an array takes the one after it along. -/
inductive Marshalled where
  | next (bytes : List UInt8) (fds : List Fd) (args : List Arg)
  | skip (bytes : List UInt8) (fds : List Fd) (args : List Arg)
  | failed
  deriving DecidableEq, Repr

/-- The turn for a parameter. -/
def marshalParam (param : UInt8) (following : Option UInt8) (args : List Arg) :
    Except Fault Marshalled := do
  match EMessageMagic.ofByte param with
  | some .typeUint | some .typeInt | some .typeObject =>
      let (val, args) ← vaWord args
      return .next (param :: u32Bytes val) [] args
  | some .typeF32 =>
      let (val, args) ← vaDouble args
      return .next (param :: u32Bytes val) [] args
  | some .typeVarchar =>
      let (str, args) ← vaString args
      return .next (param :: lengthPrefixed str) [] args
  | some .typeArray =>
      match following with
      | none => throw .outOfRange
      | some arrType =>
          let (arrayData, args) ← vaPointer args
          let (arrLen, args) ← vaWord args
          match ← marshalArray arrType arrayData arrLen.toNat with
          | none => return .failed
          | some (bytes, fds) =>
              return .skip (param :: arrType :: (encodeVarInt arrLen.toNat ++ bytes)) fds args
  | some .typeFd =>
      let (fd, args) ← vaWord args
      return .next [param] [fd] args
  | _ => return .next [] [] args

/-- Bytes and descriptors before what follows. -/
def before (bytes : List UInt8) (fds : List Fd) :
    Option (List UInt8 × List Fd) → Option (List UInt8 × List Fd) :=
  Option.map fun rest => (bytes ++ rest.1, fds ++ rest.2)

/-- The loop over the parameters: the bytes and the descriptors of the arguments, or
nothing after `errd()`. -/
def marshal : List UInt8 → List Arg → Except Fault (Option (List UInt8 × List Fd))
  | [], _ => .ok (some ([], []))
  | param :: params, args => do
      match ← marshalParam param params.head? args with
      | .failed => return none
      | .next bytes fds args => return before bytes fds (← marshal params args)
      | .skip bytes fds args =>
          match params with
          | [] => return some (bytes, fds)
          | _ :: params => return before bytes fds (← marshal params args)

/-- The checks of a call against the object and the method. -/
def checkCall (object : IWireObject) (server : Bool) (methods : List SMethod) (id : UInt32) :
    Except String SMethod :=
  match methods[id.toNat]? with
  | none => .error s!"core protocol error: invalid method {id} for object {object.id}"
  | some method =>
      if object.version < method.since then
        .error s!"method {id} since {method.since} but has {object.version}"
      else if method.returnsType ≠ [] ∧ server then
        .error (s!"invalid method spec {id} for object {object.id} -> server cannot call " ++
          "returnsType methods")
      else
        .ok method

/-- The object and the method of a message. -/
def callHeader (object id : UInt32) : List UInt8 :=
  [EMessageType.genericProtocolMessage.code, EMessageMagic.typeObject.code] ++ u32Bytes object ++
    [EMessageMagic.typeUint.code] ++ u32Bytes id

/-- The sequence that a method with a returned object is sent with. -/
def callSeq : Option UInt32 → List UInt8
  | none => []
  | some seq => EMessageMagic.typeSeq.code :: u32Bytes seq

/-- The bytes of a message. -/
def callData (object id : UInt32) (seq : Option UInt32) (arguments : List UInt8) : List UInt8 :=
  callHeader object id ++ (callSeq seq ++ arguments ++ [EMessageMagic.endMark.code])

/-- The message of a call to a checked method, or nothing after `errd()`. -/
def callMessage (object : IWireObject) (id : UInt32) (seq : Option UInt32) (method : SMethod)
    (args : List Arg) : Except Fault (Option CGenericProtocolMessage) := do
  match ← marshal method.params args with
  | none => return none
  | some (arguments, fds) =>
      return some (.ofData (callData object.id id seq arguments) fds)

/-- What a call leads to. A message comes with the sequence and the kind of the object
that the method returns, if it returns one. -/
inductive CallOutcome where
  /-- `error(m_id, message)` -/
  | error (message : String)
  /-- `errd()` -/
  | errd
  /-- `m_pendingOutgoing.emplace_back(msg)` -/
  | defer (msg : CGenericProtocolMessage) (returned : Option (UInt32 × Str))
  /-- `sendMessage(msg)` -/
  | send (msg : CGenericProtocolMessage) (returned : Option (UInt32 × Str))

/-- The sequence counter after a call of a method: `++m_seq` when an object is returned. -/
def seqAfter (method : SMethod) (seq : UInt32) : UInt32 :=
  if method.returnsType ≠ [] then seq + 1 else seq

/-- The object a call returns: its sequence and its kind, `if (returnSeq)`. -/
def returnedObject (method : SMethod) (seq : UInt32) : Option (UInt32 × Str) :=
  if method.returnsType ≠ [] ∧ seq ≠ 0 then some (seq, method.returnsType) else none

/-- `IWireObject::call`, with the sequence counter of the client before and after. -/
def IWireObject.call (object : IWireObject) (server : Bool) (methods : List SMethod)
    (seq id : UInt32) (args : List Arg) : Except Fault (CallOutcome × UInt32) :=
  match checkCall object server methods id with
  | .error message => .ok (.error message, seq)
  | .ok method => do
      let seq := seqAfter method seq
      let returnSeq := if method.returnsType ≠ [] then some seq else none
      match ← callMessage object id returnSeq method args with
      | none => return (.errd, seq)
      | some msg =>
          if object.id = 0 ∧ ¬ server then
            return (.defer { msg with dependsOnSeq := object.seq } (returnedObject method seq), seq)
          else
            return (.send msg (returnedObject method seq), seq)

@[simp] theorem length_callHeader (object id : UInt32) : (callHeader object id).length = 11 := rfl

/-- What a call can come to, and the sequence counter after it. -/
inductive CallEnds (seq : UInt32) : CallOutcome → UInt32 → Prop
  | error (message : String) : CallEnds seq (.error message) seq
  | errd (method : SMethod) : CallEnds seq .errd (seqAfter method seq)
  | defer (method : SMethod) (msg : CGenericProtocolMessage)
      (head : msg.data.head? = some EMessageType.genericProtocolMessage.code) :
      CallEnds seq (.defer msg (returnedObject method (seqAfter method seq))) (seqAfter method seq)
  | send (method : SMethod) (msg : CGenericProtocolMessage)
      (head : msg.data.head? = some EMessageType.genericProtocolMessage.code) :
      CallEnds seq (.send msg (returnedObject method (seqAfter method seq))) (seqAfter method seq)

theorem call_ends {object : IWireObject} {server : Bool} {methods : List SMethod}
    {seq seq' id : UInt32} {args : List Arg} {outcome : CallOutcome}
    (made : object.call server methods seq id args = .ok (outcome, seq')) :
    CallEnds seq outcome seq' := by
  simp only [IWireObject.call] at made
  split at made
  · cases made
    exact .error _
  · next method checked =>
    obtain ⟨result, run, rest⟩ := bind_eq_ok.mp made
    obtain ⟨marshalled, -, written⟩ := bind_eq_ok.mp run
    cases marshalled with
    | none =>
        cases written
        cases rest
        exact .errd method
    | some bytes =>
        cases written
        simp only at rest
        split at rest
        · cases rest
          exact .defer method _ rfl
        · cases rest
          exact .send method _ rfl

end Hyprwire.Object
