import Hyprwire.Object.Spec

/-!
# Received calls

`IWireObject::called` walks over the elements of a received message twice. The first
walk, `typeCheck`, follows the parameters of the method and compares each with the
magic on the wire. The second, `demarshal`, follows the magics on the wire and
collects the values that the listener is then called with. The two keep indices of
their own and give the length prefixes spans of their own.

The listener is called through `libffi`, with the object first; this first argument
is left out of the lists of types and values here.
-/

set_option autoImplicit false

namespace Hyprwire.Object

open Cpp Wire

/-- `ffi_type`. -/
inductive FfiType where
  | uint32
  | sint32
  | float
  | pointer
  deriving DecidableEq, Repr

/-- `FFI::ffiTypeFrom`, which gives a null pointer for the other magics. -/
def ffiTypeFrom : EMessageMagic → Option FfiType
  | .typeUint | .typeObject | .typeSeq => some .uint32
  | .typeFd | .typeInt => some .sint32
  | .typeF32 => some .float
  | .typeVarchar | .typeArray => some .pointer
  | _ => none

/-- A value a listener is called with. -/
inductive Value where
  | word (bits : UInt32)
  | string (bytes : Str)
  | words (elements : List UInt32)
  | strings (elements : List Str)
  deriving DecidableEq, Repr

/-- What a received call leads to. -/
inductive Outcome where
  /-- nothing listens -/
  | ignored
  /-- `error(m_id, message)` -/
  | error (message : String)
  /-- `errd()` -/
  | errd
  /-- `ffi_call` -/
  | invoke (fn : Callback) (types : List FfiType) (values : List Value)
  deriving DecidableEq, Repr

/-! ## The first walk -/

/-- The types found by the first walk, or the error it raises. -/
abbrev Checked := Except String (List (Option FfiType))

/-- The types of a parameter before those of the parameters after it. -/
def Checked.after (types : List (Option FfiType)) : Checked → Checked
  | .ok rest => .ok (types ++ rest)
  | .error message => .error message

def mismatch (id : UInt32) (i : Nat) (param wire : UInt8) : String :=
  s!"method {id} param idx {i} should be {magicToString param} but was {magicToString wire}"

/-- The loop over the strings of an array, which stops when it has left the data. -/
def checkStrings (data : View) (dataI : Nat) : Nat → Nat → Except Fault (Option Nat)
  | 0, arrMessageLen => .ok (some arrMessageLen)
  | n + 1, arrMessageLen =>
      if data.size < wrap (dataI + arrMessageLen) then
        .ok none
      else do
        let (strLen, strlenLen) ← parseVarInt data (dataI + arrMessageLen)
          (wrapSub (wrapSub data.size dataI) arrMessageLen)
        checkStrings data dataI n (wrap (arrMessageLen + strLen + strlenLen))

/-- One turn of the first walk: the types of the parameter, and the index of the next
element. A turn can go past the parameter that follows. -/
inductive Param where
  | next (types : List (Option FfiType)) (dataI : Nat)
  | skip (types : List (Option FfiType)) (dataI : Nat)
  | failed (message : String)
  deriving DecidableEq, Repr

/-- The turn for parameter `i`, with the index `dataI` of its element. -/
def checkParam (data : View) (id : UInt32) (param : UInt8) (following : Option UInt8)
    (i dataI : Nat) : Except Fault Param := do
  let wireParam ← data.rawAt (wrap dataI)
  if param ≠ wireParam then
    return .failed (mismatch id i param wireParam)
  match EMessageMagic.ofByte param with
  | some .endMark => return .skip [ffiTypeFrom .endMark] dataI
  | some .typeFd => return .next [ffiTypeFrom .typeFd] (wrap (dataI + 1))
  | some .typeUint => return .next [ffiTypeFrom .typeUint] (wrap (dataI + 5))
  | some .typeF32 => return .next [ffiTypeFrom .typeF32] (wrap (dataI + 5))
  | some .typeInt => return .next [ffiTypeFrom .typeInt] (wrap (dataI + 5))
  | some .typeObject => return .next [ffiTypeFrom .typeObject] (wrap (dataI + 5))
  | some .typeSeq => return .next [ffiTypeFrom .typeSeq] (wrap (dataI + 5))
  | some .typeVarchar =>
      let (a, b) ← parseVarInt data (dataI + 1) (wrapSub data.size dataI)
      return .next [ffiTypeFrom .typeVarchar] (wrap (dataI + a + b + 1))
  | some .typeArray =>
      match following with
      | none => throw .outOfRange
      | some arrType =>
          let wireType ← data.rawAt (wrap (dataI + 1))
          if arrType ≠ wireType then
            return .failed (mismatch id (i + 1) param wireParam)
          -- The span starts at `dataI + 2`, and is given `data.size() - i` bytes.
          let (arrLen, lenLen) ← parseVarInt data (dataI + 2) (wrapSub data.size (i + 1))
          let types := [ffiTypeFrom .typeArray, ffiTypeFrom .typeUint]
          match EMessageMagic.ofByte arrType with
          | some .typeUint | some .typeF32 | some .typeInt | some .typeObject | some .typeSeq =>
              return .skip types (wrap (dataI + wrap (2 + lenLen + 4 * arrLen)))
          | some .typeVarchar =>
              match ← checkStrings data dataI arrLen (2 + lenLen) with
              | none => return .failed "failed demarshaling array message"
              | some arrMessageLen => return .skip types (wrap (dataI + arrMessageLen))
          | some .typeFd => return .skip types (wrap (dataI + (2 + lenLen)))
          | _ => return .failed "failed demarshaling array message"
  | some .typeObjectId => return .failed "object type is not impld"
  | none => return .next [none] dataI

/-- The loop over the parameters that are left, from parameter `i` on. -/
def typeCheck (data : View) (id : UInt32) : List UInt8 → Nat → Nat → Except Fault Checked
  | [], _, _ => .ok (.ok [])
  | param :: params, i, dataI => do
      match ← checkParam data id param params.head? i dataI with
      | .failed message => return .error message
      | .next types dataI => return (← typeCheck data id params (i + 1) dataI).after types
      | .skip types dataI =>
          match params with
          | [] => return .ok types
          | _ :: params => return (← typeCheck data id params (i + 2) dataI).after types

/-- The types behind a list of pointers, if none of them is null. -/
def pointees : List (Option FfiType) → Option (List FfiType)
  | [] => some []
  | none :: _ => none
  | some type :: rest => (pointees rest).map (type :: ·)

/-- `ffi_prep_cif`: the types are looked at, so a null pointer among them is followed.
It succeeds on the types there are. -/
def ffiPrepCif (types : List (Option FfiType)) : Except Fault (Option (List FfiType)) :=
  match pointees types with
  | some types => .ok (some types)
  | none => .error .nullDeref

/-! ## The second walk -/

/-- The loop that copies the words of an array. -/
def copyWords (data : View) : Nat → Nat → Except Fault (List UInt32)
  | 0, _ => .ok []
  | n + 1, start => do
      let value ← data.rawU32 start
      let rest ← copyWords data n (start + 4)
      return value :: rest

/-- The loop that copies the strings of the array at index `i`: the strings, and the
length of the array. -/
def copyStrings (data : View) (i : Nat) :
    Nat → Nat → Except Fault (List Str × Nat)
  | 0, arrMessageLen => .ok ([], arrMessageLen)
  | n + 1, arrMessageLen => do
      let (strLen, strlenLen) ←
        parseVarInt data (i + arrMessageLen) (wrapSub data.size i)
      let str ← data.copyString .ample (i + arrMessageLen + strlenLen) strLen
      let (rest, arrMessageLen) ←
        copyStrings data i n (wrap (arrMessageLen + strlenLen + strLen))
      return (str :: rest, arrMessageLen)

/-- One element of the second walk: the index and the number of the next descriptor
after it, and its values. -/
inductive Item where
  | next (i fdNo : Nat) (values : List Value)
  | stop
  | failed (message : String)
  deriving DecidableEq, Repr

/-- The values of an array: the elements, and their number. -/
def arrayValues (elements : Value) (arrLen : Nat) : List Value :=
  [elements, .word (UInt32.ofNat arrLen)]

/-- The element at index `i`, when `fdNo` descriptors have been used. The loop adds
one to the index by itself. Storage is taken to be had: the source does not look at
what `malloc` gives. -/
def demarshalItem (data : View) (fds : List Fd) (i fdNo : Nat) :
    Except Fault Item := do
  let param ← data.rawAt (wrap i)
  match EMessageMagic.ofByte param with
  | some .endMark => return .stop
  | some .typeUint | some .typeF32 | some .typeInt | some .typeObject | some .typeSeq =>
      let value ← data.rawU32 (i + 1)
      return .next (wrap (i + 4 + 1)) fdNo [.word value]
  | some .typeVarchar =>
      let (strLen, len) ← parseVarInt data (i + 1) (wrapSub (wrapSub data.size i) 1)
      let str ← data.copyString .ample (i + len + 1) strLen
      return .next (wrap (i + (strLen + len) + 1)) fdNo [.string str]
  | some .typeArray =>
      let arrType ← data.rawAt (wrap (i + 1))
      let (arrLen, lenLen) ← parseVarInt data (i + 2) (wrapSub data.size i)
      match EMessageMagic.ofByte arrType with
      | some .typeUint | some .typeF32 | some .typeInt | some .typeObject | some .typeSeq =>
          let elements ← copyWords data arrLen (i + (2 + lenLen))
          return .next (wrap (i + (2 + lenLen + 4 * arrLen))) fdNo
            (arrayValues (.words elements) arrLen)
      | some .typeVarchar =>
          let (elements, arrMessageLen) ← copyStrings data i arrLen (2 + lenLen)
          return .next (wrap (i + arrMessageLen)) fdNo (arrayValues (.strings elements) arrLen)
      | some .typeFd =>
          -- `fds.at(fdNo++)` for each element
          if fdNo + arrLen ≤ fds.length then
            return .next (wrap (i + (2 + lenLen))) (fdNo + arrLen)
              (arrayValues (.words ((fds.drop fdNo).take arrLen)) arrLen)
          else
            throw .outOfRange
      | _ => return .failed "failed demarshaling array message"
  | some .typeObjectId => return .failed "object type is not impld"
  | some .typeFd =>
      match fds[fdNo]? with
      | some fd => return .next (wrap (i + 1)) (fdNo + 1) [.word fd]
      | none => throw .outOfRange
  | none => return .next (wrap (i + 1)) fdNo []

/-- The second walk before an element. -/
structure ValueState where
  i : Nat
  fdNo : Nat
  values : List Value
  deriving DecidableEq, Repr

/-- One turn of the `for` loop: it leaves with the values, or with an error. -/
def demarshalTurn (data : View) (fds : List Fd) (s : ValueState) :
    Option (Turn ValueState (Except Fault (Except String (List Value)))) :=
  if s.i < data.size then
    match demarshalItem data fds s.i s.fdNo with
    | .ok (.next i fdNo values) => some (.again { i, fdNo, values := s.values ++ values })
    | .ok .stop => some (.leave (.ok (.ok s.values)))
    | .ok (.failed message) => some (.leave (.ok (.error message)))
    | .error fault => some (.leave (.error fault))
  else
    some (.leave (.ok (.ok s.values)))

def firstValue : ValueState := { i := 0, fdNo := 0, values := [] }

/-- The second walk. There is no value when it goes on for ever. -/
def demarshal (data : View) (fds : List Fd) :
    Option (Except Fault (Except String (List Value))) :=
  loop (demarshalTurn data fds) (2 ^ 64 * (fds.length + 1)) firstValue

/-! ## The call -/

/-- The parameters on the wire: the sequence comes first when an object is returned. -/
def SMethod.wireParams (method : SMethod) : List UInt8 :=
  (if method.returnsType ≠ [] then [EMessageMagic.typeSeq.code] else []) ++ method.params

/-- The walks over the data of a call, once the method and the listener are known. -/
def callListener (method : SMethod) (fn : Callback) (id : UInt32) (data : View)
    (fds : List Fd) : Option (Except Fault Outcome) :=
  match typeCheck data id method.wireParams 0 0 with
  | .error fault => some (.error fault)
  | .ok (.error message) => some (.ok (.error message))
  | .ok (.ok types) =>
      match ffiPrepCif types with
      | .error fault => some (.error fault)
      | .ok none => some (.ok .errd)
      | .ok (some types) =>
          (demarshal data fds).map fun result => result.map fun
            | .ok values => .invoke fn types values
            | .error message => .error message

/-- `IWireObject::called`. -/
def IWireObject.called (object : IWireObject) (methods : List SMethod) (id : UInt32)
    (data : View) (fds : List Fd) : Option (Except Fault Outcome) :=
  match methods[id.toNat]? with
  | none => some (.ok (.error s!"invalid method {id} for object {object.id}"))
  | some method =>
      match (object.listeners[id.toNat]?).join with
      | none => some (.ok .ignored)
      | some fn =>
          if object.version < method.since then
            some (.ok (.error s!"method {id} since {method.since} but has {object.version}"))
          else
            callListener method fn id data fds

end Hyprwire.Object
