import Hyprwire.Wire.Magic
import Hyprwire.Wire.VarInt

/-!
# Control messages

Every message class has two constructors. The sending one writes the bytes of the
message, here `encode`. The receiving one, here `decode`, reads a message at an
offset of the received bytes; it leaves `len` at zero to reject. It catches
`std::out_of_range` and nothing else.

The offset is an index of the buffer, so that adding a constant to it stays below
`2 ^ 64`. Sums with a length read from the message are reduced with `wrap`.

Fields keep the source's names without the prefix `m_`.
-/

set_option autoImplicit false

namespace Hyprwire.Wire

open Cpp

/-! ## `SUP` -/

structure CHelloMessage where
  len : Nat := 0
  deriving DecidableEq, Repr

namespace CHelloMessage

/-- `SUP`, and the string `VAX`. -/
def expected : List UInt8 :=
  [EMessageType.sup.code, EMessageMagic.typeVarchar.code, 0x03, 0x56, 0x41, 0x58,
    EMessageMagic.endMark.code]

def decode (data : View) (offset : Nat) : Except Fault CHelloMessage :=
  catchOutOfRange {} do
    let _ ← data.checkedAt offset
    -- `memcmp` is given the whole block after its first byte was checked.
    let block ← data.rawBlock offset expected.length
    if block ≠ expected then
      return {}
    return { len := expected.length }

def encode : List UInt8 := expected

end CHelloMessage

/-! ## `HANDSHAKE_BEGIN` -/

structure CHandshakeBeginMessage where
  versionsSupported : List UInt32 := []
  len : Nat := 0
  deriving DecidableEq, Repr

namespace CHandshakeBeginMessage

/-- The loop over the versions: the next one lies at `index`. -/
def readVersions (data : View) : Nat → Nat → Except Fault (List UInt32)
  | 0, _ => .ok []
  | n + 1, index => do
      let version ← data.u32At (wrap index)
      let rest ← readVersions data n (index + 4)
      return version :: rest

def decode (heap : Heap) (data : View) (offset : Nat) : Except Fault CHandshakeBeginMessage :=
  catchOutOfRange {} do
    if (← data.checkedAt offset) ≠ EMessageType.handshakeBegin.code then
      return {}
    if (← data.checkedAt (offset + 1)) ≠ EMessageMagic.typeArray.code then
      return {}
    if (← data.checkedAt (offset + 2)) ≠ EMessageMagic.typeUint.code then
      return {}
    let (nVers, varIntLen) ← parseVarIntAt data (offset + 3)
    let needle := 3 + varIntLen
    resize heap nVers 4
    let versionsSupported ← readVersions data nVers (offset + needle)
    let needle := wrap (needle + nVers * 4)
    if (← data.checkedAt (wrap (offset + needle))) ≠ EMessageMagic.endMark.code then
      return { versionsSupported }
    return { versionsSupported, len := wrap (needle + 1) }

def encode (versions : List UInt32) : List UInt8 :=
  [EMessageType.handshakeBegin.code, EMessageMagic.typeArray.code, EMessageMagic.typeUint.code] ++
    encodeVarInt versions.length ++ versions.flatMap u32Bytes ++ [EMessageMagic.endMark.code]

end CHandshakeBeginMessage

/-! ## `HANDSHAKE_ACK` -/

structure CHandshakeAckMessage where
  version : UInt32 := 0
  len : Nat := 0
  deriving DecidableEq, Repr

namespace CHandshakeAckMessage

def decode (data : View) (offset : Nat) : Except Fault CHandshakeAckMessage :=
  catchOutOfRange {} do
    if (← data.checkedAt offset) ≠ EMessageType.handshakeAck.code then
      return {}
    if (← data.checkedAt (offset + 1)) ≠ EMessageMagic.typeUint.code then
      return {}
    if (← data.checkedAt (offset + 6)) ≠ EMessageMagic.endMark.code then
      return {}
    if wrapSub (wrapSub data.size offset) 2 < 4 then
      return {}
    let version ← data.u32At (offset + 2)
    return { version, len := 7 }

def encode (version : UInt32) : List UInt8 :=
  [EMessageType.handshakeAck.code, EMessageMagic.typeUint.code] ++ u32Bytes version ++
    [EMessageMagic.endMark.code]

end CHandshakeAckMessage

/-! ## `HANDSHAKE_PROTOCOLS` -/

structure CHandshakeProtocolsMessage where
  protocols : List Str := []
  len : Nat := 0
  deriving DecidableEq, Repr

namespace CHandshakeProtocolsMessage

/-- The loop over the strings, with the needle before the next one. -/
def readProtocols (heap : Heap) (data : View) (offset : Nat) :
    Nat → Nat → Except Fault (List Str × Nat)
  | 0, needle => .ok ([], needle)
  | n + 1, needle => do
      let (strLen, strLenLen) ← parseVarIntAt data (wrap (offset + needle))
      let start := wrap (offset + needle + strLenLen)
      let _ ← data.checkedAt start
      let protocol ← data.copyString heap start strLen
      let (rest, needle) ← readProtocols heap data offset n (wrap (needle + strLen + strLenLen))
      return (protocol :: rest, needle)

def decode (heap : Heap) (data : View) (offset : Nat) :
    Except Fault CHandshakeProtocolsMessage :=
  catchOutOfRange {} do
    if (← data.checkedAt offset) ≠ EMessageType.handshakeProtocols.code then
      return {}
    if (← data.checkedAt (offset + 1)) ≠ EMessageMagic.typeArray.code then
      return {}
    if (← data.checkedAt (offset + 2)) ≠ EMessageMagic.typeVarchar.code then
      return {}
    let (els, varIntLen) ← parseVarIntAt data (offset + 3)
    resize heap els 32
    let (protocols, needle) ← readProtocols heap data offset els (3 + varIntLen)
    if (← data.checkedAt (wrap (offset + needle))) ≠ EMessageMagic.endMark.code then
      return { protocols }
    return { protocols, len := wrap (needle + 1) }

def encode (protocols : List Str) : List UInt8 :=
  [EMessageType.handshakeProtocols.code, EMessageMagic.typeArray.code,
    EMessageMagic.typeVarchar.code] ++
    encodeVarInt protocols.length ++
    protocols.flatMap (fun protocol => encodeVarInt protocol.length ++ protocol) ++
    [EMessageMagic.endMark.code]

end CHandshakeProtocolsMessage

/-! ## `BIND_PROTOCOL` -/

structure CBindProtocolMessage where
  protocol : Str := []
  seq : UInt32 := 0
  version : UInt32 := 0
  len : Nat := 0
  deriving DecidableEq, Repr

namespace CBindProtocolMessage

def decode (heap : Heap) (data : View) (offset : Nat) : Except Fault CBindProtocolMessage :=
  catchOutOfRange {} do
    if (← data.checkedAt offset) ≠ EMessageType.bindProtocol.code then
      return {}
    if (← data.checkedAt (offset + 1)) ≠ EMessageMagic.typeUint.code then
      return {}
    let seq ← data.u32At (offset + 2)
    if (← data.checkedAt (offset + 6)) ≠ EMessageMagic.typeVarchar.code then
      return { seq }
    let (strLen, varIntLen) ← parseVarIntAt data (offset + 7)
    let needle := 7 + varIntLen
    let _ ← data.checkedAt (wrap (offset + needle))
    let protocol ← data.copyString heap (wrap (offset + needle)) strLen
    let needle := wrap (needle + strLen)
    if (← data.checkedAt (wrap (offset + needle))) ≠ EMessageMagic.typeUint.code then
      return { seq, protocol }
    let version ← data.u32At (wrap (offset + needle + 1))
    if version = 0 then
      return { seq, protocol }
    let needle := wrap (needle + 5)
    if (← data.checkedAt (wrap (offset + needle))) ≠ EMessageMagic.endMark.code then
      return { seq, protocol, version }
    return { seq, protocol, version, len := wrap (needle + 1) }

def encode (protocol : Str) (seq version : UInt32) : List UInt8 :=
  [EMessageType.bindProtocol.code, EMessageMagic.typeUint.code] ++ u32Bytes seq ++
    [EMessageMagic.typeVarchar.code] ++ encodeVarInt protocol.length ++ protocol ++
    [EMessageMagic.typeUint.code] ++ u32Bytes version ++ [EMessageMagic.endMark.code]

/-- **An encoded message is read back, wherever it lies.** The version is not zero. -/
theorem decode_of_holds {data : View} {offset : Nat} {protocol : Str} {seq version : UInt32}
    (holds : data.Holds offset (encode protocol seq version))
    (inside : offset + (encode protocol seq version).length ≤ data.size)
    (small : data.size < 2 ^ 63) (short : protocol.length < 2 ^ 28) (nonzero : version ≠ 0) :
    decode .ample data offset =
      .ok { protocol, seq, version, len := (encode protocol seq version).length } := by
  have prefixShort := length_encodeVarInt short
  simp only [encode, View.holds_append, List.length_append, List.length_cons, List.length_nil,
    length_u32Bytes] at holds inside ⊢
  generalize lengthBytes : (encodeVarInt protocol.length).length = k at *
  obtain ⟨⟨⟨⟨⟨⟨⟨tags, seqHeld⟩, strTag⟩, lengthHeld⟩, strHeld⟩, tag⟩, versionHeld⟩, ends⟩ := holds
  have place : ∀ n, offset + n < data.size → wrap (offset + n) = offset + n :=
    fun n within => wrap_of_lt (by omega)
  have first := View.checkedAt_inside tags (by omega) small
  have second := View.checkedAt_inside (View.holds_cons.mp tags).2 (by omega) small
  have third := View.u32At_inside seqHeld (by omega) small
  have fourth := View.checkedAt_inside strTag (by omega) small
  have length : parseVarIntAt data (offset + 7) = .ok (protocol.length, k) := by
    have room : wrapSub data.size (offset + 7) = data.size - (offset + 7) :=
      wrapSub_of_le (by omega) (by omega)
    rw [parseVarIntAt, ← lengthBytes]
    exact parseVarInt_encodeVarInt short lengthHeld (by omega)
  -- The byte after the length is the first one of the string, or the tag after it.
  obtain ⟨byte, fifth⟩ : ∃ byte, data.checkedAt (offset + (7 + k)) = .ok byte := by
    cases protocol with
    | nil => exact ⟨_, View.checkedAt_inside tag (by omega) small⟩
    | cons byte rest => exact ⟨_, View.checkedAt_inside strHeld (by omega) small⟩
  have copied := View.copyString_of_holds strHeld (by omega)
  have sixth := View.checkedAt_inside tag (by omega) small
  have seventh := View.u32At_inside versionHeld (by omega) small
  have eighth := View.checkedAt_inside ends (by omega) small
  simp only [Nat.reduceAdd] at first second third fourth copied
  generalize total : 7 + k + protocol.length = n
  have sixth' : data.checkedAt (offset + n) = .ok EMessageMagic.typeUint.code := by
    rw [← sixth, ← total]
  have seventh' : data.u32At (offset + n + 1) = .ok version := by
    rw [← seventh, ← total]
    congr 1
  have eighth' : data.checkedAt (offset + (n + 5)) = .ok EMessageMagic.endMark.code := by
    rw [← eighth, ← total]
  have sizes : wrap n = n ∧ wrap (n + 5) = n + 5 ∧ wrap (n + 5 + 1) = n + 6 :=
    ⟨wrap_of_lt (by omega), wrap_of_lt (by omega), wrap_of_lt (by omega)⟩
  have version_place : wrap (offset + n + 1) = offset + n + 1 := wrap_of_lt (by omega)
  simp only [decode, first, second, third, fourth, length, ok_bind, ne_eq, not_true_eq_false,
    if_false, place (7 + k) (by omega), fifth, copied, total, sizes, place n (by omega), sixth',
    version_place, seventh', nonzero, place (n + 5) (by omega), eighth', pure_eq_ok,
    catchOutOfRange_ok]

end CBindProtocolMessage

/-! ## `NEW_OBJECT` -/

structure CNewObjectMessage where
  seq : UInt32 := 0
  id : UInt32 := 0
  len : Nat := 0
  deriving DecidableEq, Repr

namespace CNewObjectMessage

def decode (data : View) (offset : Nat) : Except Fault CNewObjectMessage :=
  catchOutOfRange {} do
    if (← data.checkedAt offset) ≠ EMessageType.newObject.code then
      return {}
    if (← data.checkedAt (offset + 1)) ≠ EMessageMagic.typeUint.code then
      return {}
    if wrapSub (wrapSub data.size offset) 2 < 4 then
      return {}
    let id ← data.u32At (offset + 2)
    if (← data.checkedAt (offset + 6)) ≠ EMessageMagic.typeUint.code then
      return { id }
    let seq ← data.u32At (offset + 7)
    if (← data.checkedAt (offset + 11)) ≠ EMessageMagic.endMark.code then
      return { id, seq }
    return { id, seq, len := 12 }

def encode (seq id : UInt32) : List UInt8 :=
  [EMessageType.newObject.code, EMessageMagic.typeUint.code] ++ u32Bytes id ++
    [EMessageMagic.typeUint.code] ++ u32Bytes seq ++ [EMessageMagic.endMark.code]

/-- **An encoded message is read back, wherever it lies.** -/
theorem decode_of_holds {data : View} {offset : Nat} {seq id : UInt32}
    (holds : data.Holds offset (encode seq id)) (inside : offset + 12 ≤ data.size)
    (small : data.size < 2 ^ 63) : decode data offset = .ok { seq, id, len := 12 } := by
  simp only [encode, View.holds_append, List.length_append, List.length_cons, List.length_nil,
    length_u32Bytes] at holds
  obtain ⟨⟨⟨⟨tags, idHeld⟩, tag⟩, seqHeld⟩, ends⟩ := holds
  have first := View.checkedAt_inside tags (by omega) small
  have second := View.checkedAt_inside (View.holds_cons.mp tags).2 (by omega) small
  have third := View.u32At_inside idHeld (by omega) small
  have fourth := View.checkedAt_inside tag (by omega) small
  have fifth := View.u32At_inside seqHeld (by omega) small
  have sixth := View.checkedAt_inside ends (by omega) small
  have room : ¬ wrapSub (wrapSub data.size offset) 2 < 4 := by
    have left : wrapSub data.size offset = data.size - offset := wrapSub_of_le (by omega) (by omega)
    rw [left, wrapSub_of_le (by omega) (by omega)]
    omega
  simp only [decode, first, second, third, fourth, fifth, sixth, ok_bind, ne_eq, not_true_eq_false,
    if_false, if_neg room, pure_eq_ok, catchOutOfRange_ok]

end CNewObjectMessage

/-! ## `FATAL_PROTOCOL_ERROR` -/

structure CFatalErrorMessage where
  objectId : UInt32 := 0
  errorId : UInt32 := 0
  errorMsg : Str := []
  len : Nat := 0
  deriving DecidableEq, Repr

namespace CFatalErrorMessage

def decode (heap : Heap) (data : View) (offset : Nat) : Except Fault CFatalErrorMessage :=
  catchOutOfRange {} do
    if (← data.checkedAt offset) ≠ EMessageType.fatalProtocolError.code then
      return {}
    if (← data.checkedAt (offset + 1)) ≠ EMessageMagic.typeUint.code then
      return {}
    let objectId ← data.u32At (offset + 2)
    if (← data.checkedAt (offset + 6)) ≠ EMessageMagic.typeUint.code then
      return { objectId }
    let errorId ← data.u32At (offset + 7)
    if (← data.checkedAt (offset + 11)) ≠ EMessageMagic.typeVarchar.code then
      return { objectId, errorId }
    let (strLen, strLenLen) ← parseVarIntAt data (offset + 12)
    let needle := 12 + strLenLen
    let errorMsg ← data.copyString heap (wrap (offset + needle)) strLen
    let needle := wrap (needle + strLen)
    if (← data.checkedAt (wrap (offset + needle))) ≠ EMessageMagic.endMark.code then
      return { objectId, errorId, errorMsg }
    return { objectId, errorId, errorMsg, len := wrap (needle + 1) }

/-- The object is absent when the error is not about one. -/
def encode (objectId : Option UInt32) (errorId : UInt32) (msg : Str) : List UInt8 :=
  [EMessageType.fatalProtocolError.code, EMessageMagic.typeUint.code] ++
    u32Bytes (objectId.getD 0) ++ [EMessageMagic.typeUint.code] ++ u32Bytes errorId ++
    [EMessageMagic.typeVarchar.code] ++ encodeVarInt msg.length ++ msg ++
    [EMessageMagic.endMark.code]

end CFatalErrorMessage

/-! ## `ROUNDTRIP_REQUEST` and `ROUNDTRIP_DONE` -/

/-- The messages that hold one sequence number. -/
structure SeqMessage where
  seq : UInt32 := 0
  len : Nat := 0
  deriving DecidableEq, Repr

namespace SeqMessage

/-- The receiving constructors of `CRoundtripRequestMessage` and
`CRoundtripDoneMessage` differ in the message type only. -/
def decode (type : EMessageType) (data : View) (offset : Nat) : Except Fault SeqMessage :=
  catchOutOfRange {} do
    if (← data.checkedAt offset) ≠ type.code then
      return {}
    if (← data.checkedAt (offset + 1)) ≠ EMessageMagic.typeUint.code then
      return {}
    if wrapSub (wrapSub data.size offset) 2 < 4 then
      return {}
    let seq ← data.u32At (offset + 2)
    if (← data.checkedAt (offset + 6)) ≠ EMessageMagic.endMark.code then
      return { seq }
    return { seq, len := 7 }

def encode (type : EMessageType) (seq : UInt32) : List UInt8 :=
  [type.code, EMessageMagic.typeUint.code] ++ u32Bytes seq ++ [EMessageMagic.endMark.code]

/-- **An encoded message is read back, wherever it lies.** -/
theorem decode_of_holds {type : EMessageType} {data : View} {offset : Nat} {seq : UInt32}
    (holds : data.Holds offset (encode type seq)) (inside : offset + 7 ≤ data.size)
    (small : data.size < 2 ^ 63) : decode type data offset = .ok { seq, len := 7 } := by
  simp only [encode, View.holds_append, List.length_append, List.length_cons, List.length_nil,
    length_u32Bytes] at holds
  obtain ⟨⟨tags, seqHeld⟩, ends⟩ := holds
  have first := View.checkedAt_inside tags (by omega) small
  have second := View.checkedAt_inside (View.holds_cons.mp tags).2 (by omega) small
  have third := View.u32At_inside seqHeld (by omega) small
  have fourth := View.checkedAt_inside ends (by omega) small
  have room : ¬ wrapSub (wrapSub data.size offset) 2 < 4 := by
    have left : wrapSub data.size offset = data.size - offset := wrapSub_of_le (by omega) (by omega)
    rw [left, wrapSub_of_le (by omega) (by omega)]
    omega
  simp only [decode, first, second, third, fourth, ok_bind, ne_eq, not_true_eq_false,
    if_false, if_neg room, pure_eq_ok, catchOutOfRange_ok]

end SeqMessage

abbrev CRoundtripRequestMessage := SeqMessage

namespace CRoundtripRequestMessage

def decode : View → Nat → Except Fault CRoundtripRequestMessage :=
  SeqMessage.decode .roundtripRequest

def encode : UInt32 → List UInt8 := SeqMessage.encode .roundtripRequest

end CRoundtripRequestMessage

abbrev CRoundtripDoneMessage := SeqMessage

namespace CRoundtripDoneMessage

def decode : View → Nat → Except Fault CRoundtripDoneMessage := SeqMessage.decode .roundtripDone

def encode : UInt32 → List UInt8 := SeqMessage.encode .roundtripDone

end CRoundtripDoneMessage

end Hyprwire.Wire
