import Mathlib.Tactic.Common

/-!
# Message codes and content magics

The first byte of a message is its code, and each of its parameters starts with a
magic that says what follows. Both are `uint8_t` enumerations that the source casts
raw bytes to; `ofByte` is the cast followed by the `switch`, whose default case is
a byte that is no enumerator.
-/

set_option autoImplicit false

namespace Hyprwire.Wire

/-- `eMessageType`. -/
inductive EMessageType where
  | invalid
  | sup
  | handshakeBegin
  | handshakeAck
  | handshakeProtocols
  | bindProtocol
  | newObject
  | fatalProtocolError
  | roundtripRequest
  | roundtripDone
  | genericProtocolMessage
  deriving DecidableEq, Repr

namespace EMessageType

/-- The code of a message type on the wire. -/
def code : EMessageType → UInt8
  | invalid => 0
  | sup => 1
  | handshakeBegin => 2
  | handshakeAck => 3
  | handshakeProtocols => 4
  | bindProtocol => 10
  | newObject => 11
  | fatalProtocolError => 12
  | roundtripRequest => 13
  | roundtripDone => 14
  | genericProtocolMessage => 100

/-- The message type a byte is the code of. -/
def ofByte (byte : UInt8) : Option EMessageType :=
  [invalid, sup, handshakeBegin, handshakeAck, handshakeProtocols, bindProtocol, newObject,
    fatalProtocolError, roundtripRequest, roundtripDone, genericProtocolMessage].find?
    fun type => type.code == byte

@[simp] theorem ofByte_code (type : EMessageType) : ofByte type.code = some type := by
  cases type <;> rfl

theorem ofByte_eq_some {byte : UInt8} {type : EMessageType} :
    ofByte byte = some type ↔ byte = type.code := by
  constructor
  · intro found
    have holds := List.find?_some found
    exact (beq_iff_eq.mp holds).symm
  · rintro rfl
    exact ofByte_code type

theorem code_injective {first second : EMessageType} (same : first.code = second.code) :
    first = second := by
  have both := congrArg ofByte same
  simpa using both

end EMessageType

/-- `eMessageMagic`. -/
inductive EMessageMagic where
  | endMark
  | typeUint
  | typeInt
  | typeF32
  | typeSeq
  | typeObjectId
  | typeVarchar
  | typeArray
  | typeObject
  | typeFd
  deriving DecidableEq, Repr

namespace EMessageMagic

/-- The byte a magic is written as. -/
def code : EMessageMagic → UInt8
  | endMark => 0x00
  | typeUint => 0x10
  | typeInt => 0x11
  | typeF32 => 0x12
  | typeSeq => 0x13
  | typeObjectId => 0x14
  | typeVarchar => 0x20
  | typeArray => 0x21
  | typeObject => 0x22
  | typeFd => 0x40

/-- The magic a byte is the code of. -/
def ofByte (byte : UInt8) : Option EMessageMagic :=
  [endMark, typeUint, typeInt, typeF32, typeSeq, typeObjectId, typeVarchar, typeArray, typeObject,
    typeFd].find? fun magic => magic.code == byte

@[simp] theorem ofByte_code (magic : EMessageMagic) : ofByte magic.code = some magic := by
  cases magic <;> rfl

theorem ofByte_eq_some {byte : UInt8} {magic : EMessageMagic} :
    ofByte byte = some magic ↔ byte = magic.code := by
  constructor
  · intro found
    have holds := List.find?_some found
    exact (beq_iff_eq.mp holds).symm
  · rintro rfl
    exact ofByte_code magic

theorem code_injective {first second : EMessageMagic} (same : first.code = second.code) :
    first = second := by
  have both := congrArg ofByte same
  simpa using both

/-- The magics of the primitive types, which take four bytes. -/
def IsWord : EMessageMagic → Bool
  | typeUint | typeF32 | typeInt | typeObject | typeSeq => true
  | _ => false

end EMessageMagic

/-- `magicToString`. -/
def magicToString (byte : UInt8) : String :=
  match EMessageMagic.ofByte byte with
  | some .endMark => "END"
  | some .typeUint => "UINT"
  | some .typeInt => "INT"
  | some .typeF32 => "F32"
  | some .typeSeq => "SEQUENCE"
  | some .typeObjectId => "OBJECT_ID"
  | some .typeVarchar => "VARCHAR"
  | some .typeArray => "ARRAY"
  | some .typeObject => "OBJECT"
  | some .typeFd => "FD"
  | none => "ERROR"

end Hyprwire.Wire
