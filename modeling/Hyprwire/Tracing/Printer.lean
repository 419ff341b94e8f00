import Hyprwire.Object.Spec
import Hyprwire.Wire.Lengths

/-!
# The printer of messages

With tracing on, a message is printed when it has been read and when it is sent.
`parseData` walks over `m_data` for this, by a `switch` of its own over the magics
(`formatItem`) and another one for the elements of arrays (`formatPrimitiveType`). It is
not the walk of the decoders: it goes by the bytes alone, and stops at the end of the
data and not at an `END`.

Outside of `m_data` there is nothing to read, so that a run that returns has read inside
of it only (`Printed`). The next index depends on the index alone, and a walk that has not
ended after as many turns as there are indices never ends (`parseData_eq_none`).
-/

set_option autoImplicit false

namespace Hyprwire.Tracing

open Cpp Wire Object

/-- `messageTypeToStr`. -/
def messageTypeToStr : EMessageType → String
  | .invalid => "INVALID"
  | .sup => "SUP"
  | .handshakeBegin => "HANDSHAKE_BEGIN"
  | .handshakeAck => "HANDSHAKE_ACK"
  | .handshakeProtocols => "HANDSHAKE_PROTOCOLS"
  | .bindProtocol => "BIND_PROTOCOL"
  | .newObject => "NEW_OBJECT"
  | .fatalProtocolError => "HW_MESSAGE_TYPE_FATAL_PROTOCOL_ERROR"
  | .genericProtocolMessage => "GENERIC_PROTOCOL_MESSAGE"
  | .roundtripRequest => "HW_MESSAGE_TYPE_ROUNDTRIP_REQUEST"
  | .roundtripDone => "HW_MESSAGE_TYPE_ROUNDTRIP_DONE"

/-- `std::format("\"{}\"", string)`. -/
def quoted (string : Str) : Str := text "\"" ++ string ++ text "\""

/-! ## Elements of arrays -/

/-- `std::vector<uint8_t>(s.data(), s.data() + s.size() - 1)`: a range that ends before it
starts is refused. -/
def copyButLast (s : View) : Except Fault (List UInt8) :=
  if s.size = 0 then .error .lengthError else s.rawBlock 0 (s.size - 1)

/-- Four bytes of an array, if they are there. -/
def formatBytes (s : View) (format : UInt32 → Str) : Except Fault (Str × Nat) :=
  if s.size < 4 then
    .ok ([], 0)
  else do
    let val ← s.rawU32 0
    return (format val, 4)

section Formats

-- How `std::format` prints a `float` does not matter.
variable (formatFloat : UInt32 → Str)

/-- `formatPrimitiveType`: what is printed, and the number of bytes it takes. -/
def formatPrimitiveType (s : View) (type : UInt8) : Except Fault (Str × Nat) :=
  match EMessageMagic.ofByte type with
  | some .typeUint => formatBytes s fun val => text s!"{val}"
  | some .typeInt => formatBytes s fun val => text s!"{val.toInt32}"
  | some .typeF32 => formatBytes s formatFloat
  | some .typeFd => .ok (text "<fd>", 0)
  | some .typeObject => formatBytes s fun id =>
      if id = 0 then text "object: null" else text s!"object: {id}"
  | some .typeVarchar => do
      let copied ← copyButLast s
      let (len, intLen) ← parseVarIntAt (spanOf copied) 0
      let string ← s.rawBlock intLen len
      return (quoted string, wrap (len + intLen))
  | _ => .ok ([], 0)

/-- The loop over the elements of an array: what is printed, and the needle behind it. -/
def formatElements (data : View) (thisType : UInt8) : Nat → Nat → Except Fault (Str × Nat)
  | 0, needle => .ok ([], needle)
  | els + 1, needle => do
      let (str, len) ←
        formatPrimitiveType formatFloat (data.span needle (wrapSub data.size needle)) thisType
      let (rest, needle) ← formatElements data thisType els (wrap (needle + len))
      return (str ++ text ", " ++ rest, needle)

/-! ## Items -/

/-- The four bytes of an item, if they are there. -/
def formatWord (data : View) (needle : Nat) (format : UInt32 → Str) : Except Fault (Str × Nat) :=
  if 4 ≤ wrapSub data.size needle then do
    let val ← data.u32At needle
    return (format val, wrap (needle + 4))
  else
    .ok ([], needle)

/-- The bytes of a string, whose first one is looked up with a check. -/
def stringAt (data : View) (start len : Nat) : Except Fault Str :=
  if 0 < len then do
    let _ ← data.checkedAt start
    data.rawBlock start len
  else
    .ok []

/-- The `switch` over an item: what is printed, and the needle behind it. -/
def formatItem (data : View) (needle : Nat) : Except Fault (Str × Nat) := do
  let magic ← data.checkedAt needle
  let needle := wrap (needle + 1)
  match EMessageMagic.ofByte magic with
  | some .typeSeq => formatWord data needle fun seq => text s!"seq: {seq}"
  | some .typeUint => formatWord data needle fun val => text s!"{val}"
  | some .typeInt => formatWord data needle fun val => text s!"{val.toInt32}"
  | some .typeF32 => formatWord data needle formatFloat
  | some .typeObject => formatWord data needle fun id => text s!"object({id})"
  | some .typeVarchar =>
      let (len, intLen) ← parseVarIntAt data needle
      let string ← stringAt data (wrap (needle + intLen)) len
      return (quoted string, wrap (needle + (intLen + len)))
  | some .typeArray =>
      let thisType ← data.checkedAt needle
      let needle := wrap (needle + 1)
      let (els, intLen) ← parseVarIntAt data needle
      let (items, needle) ←
        formatElements formatFloat data thisType els (wrap (needle + intLen))
      -- Each of the two `pop_back` takes a character of what follows the last element.
      return (text "\x7b " ++ items.dropLast.dropLast ++ text " \x7d", needle)
  | some .typeFd => return (text "<fd>", needle)
  | _ => return ([], needle)

/-! ## Messages -/

/-- The loop before an item: the needle, and what has been printed. -/
structure Printing where
  needle : Nat
  result : Str

/-- A turn of the `while` loop. -/
def printTurn (data : View) (s : Printing) : Option (Turn Printing (Except Fault Str)) :=
  if s.needle < data.size then
    match formatItem formatFloat data s.needle with
    | .error fault => some (.leave (.error fault))
    | .ok (item, needle) => some (.again ⟨needle, s.result ++ item ++ text ", "⟩)
  else
    some (.leave (.ok s.result))

/-- `if (result.at(result.size() - 2) == ',')`, and two `pop_back`. The index wraps around
when there are not two characters. -/
def trim (result : Str) : Except Fault Str :=
  if result.length < 2 then
    .error .outOfRange
  else if result[result.length - 2]? = some 0x2c then
    .ok result.dropLast.dropLast
  else
    .ok result

/-- The loop before the first item: the type is skipped. -/
def firstItem (type : EMessageType) : Printing where
  needle := 1
  result := text (messageTypeToStr type) ++ text " ( "

/-- What comes after the loop. -/
def closing (result : Str) : Except Fault Str := do
  let result ← trim result
  let result ← trim result
  return result ++ text " ) "

/-- `IMessage::parseData`. There is no value when the walk goes on for ever. -/
def parseData (type : EMessageType) (data : List UInt8) : Option (Except Fault Str) :=
  (loop (printTurn formatFloat (spanOf data)) (data.length + 1) (firstItem type)).map
    fun walked => walked.bind closing

/-! ## What a turn does -/

/-- The item at an index is printed, and ends at another index. -/
def Passes (data : View) (needle next : Nat) : Prop :=
  ∃ item, formatItem formatFloat data needle = .ok (item, next)

variable {formatFloat} {data : View}

theorem formatPrimitiveType_varchar (s : View) :
    formatPrimitiveType formatFloat s EMessageMagic.typeVarchar.code =
      copyButLast s >>= fun copied => parseVarIntAt (spanOf copied) 0 >>= fun (len, intLen) =>
        s.rawBlock intLen len >>= fun string => .ok (quoted string, wrap (len + intLen)) := rfl

theorem formatElements_succ (thisType : UInt8) (els needle : Nat) :
    formatElements formatFloat data thisType (els + 1) needle =
      formatPrimitiveType formatFloat (data.span needle (wrapSub data.size needle)) thisType >>=
        fun (str, len) => formatElements formatFloat data thisType els (wrap (needle + len)) >>=
          fun (rest, needle) => .ok (str ++ text ", " ++ rest, needle) := rfl

theorem printTurn_next_iff {s s' : Printing} :
    Next (printTurn formatFloat data) s s' ↔ s.needle < data.size ∧
      ∃ item, formatItem formatFloat data s.needle = .ok (item, s'.needle) ∧
        s'.result = s.result ++ item ++ text ", " := by
  obtain ⟨needle', result'⟩ := s'
  rw [Next, printTurn]
  split
  · next inside =>
    cases formatItem formatFloat data s.needle with
    | error fault => simp
    | ok printed =>
        obtain ⟨item, needle⟩ := printed
        simp only [inside, Option.some.injEq, Turn.again.injEq, Printing.mk.injEq, true_and,
          Except.ok.injEq, Prod.mk.injEq]
        constructor
        · rintro ⟨rfl, rfl⟩
          exact ⟨item, ⟨rfl, rfl⟩, rfl⟩
        · rintro ⟨_, ⟨rfl, rfl⟩, rfl⟩
          exact ⟨rfl, rfl⟩
  · next outside => simp [outside]

theorem printTurn_total (s : Printing) : ∃ t, printTurn formatFloat data s = some t := by
  rw [printTurn]
  split
  · split
    · exact ⟨_, rfl⟩
    · exact ⟨_, rfl⟩
  · exact ⟨_, rfl⟩

/-- **A walk that has not ended never ends.** -/
theorem parseData_eq_none {type : EMessageType} {data : List UInt8}
    (running : parseData formatFloat type data = none) (turns : Nat) :
    loop (printTurn formatFloat (spanOf data)) turns (firstItem type) = none := by
  rw [parseData, Option.map_eq_none_iff] at running
  -- An index outside of the data counts as the end of it: no turn starts there.
  let place : Printing → Fin (data.length + 1) := fun s =>
    ⟨min s.needle data.length, Nat.lt_succ_of_le (Nat.min_le_right _ _)⟩
  refine @loop_none_forever _ _ (printTurn formatFloat (spanOf data)) _ _ place (fun _ => True)
    (fun _ _ _ _ => trivial) (fun s _ => printTurn_total s) ?_ _ (by simp) _ trivial running turns
  intro s s' t _ _ same next
  obtain ⟨inside, item, printed, -⟩ := printTurn_next_iff.mp next
  replace inside : s.needle < data.length := inside
  have there : min s.needle data.length = min s'.needle data.length := Fin.mk.inj_iff.mp same
  have needle : s'.needle = s.needle := by omega
  refine ⟨⟨t.needle, s'.result ++ item ++ text ", "⟩, ?_, rfl⟩
  exact printTurn_next_iff.mpr ⟨needle ▸ inside, item, needle ▸ printed, rfl⟩

end Formats

/-! ## Printing a message -/

/-- **A message is printed**: the walk ends, no exception escapes, and only indices of
`m_data` are read, however floats are printed. -/
def Printed (type : EMessageType) (data : List UInt8) : Prop :=
  ∀ formatFloat, ∃ result, parseData formatFloat type data = some (.ok result)

end Hyprwire.Tracing
