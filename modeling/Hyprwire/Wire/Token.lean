import Hyprwire.Wire.Generic

/-!
# Elements as data

A `Token` is an element of a generic message as data: the magic, the length prefix
with the bytes it is written in, the payload, and the descriptors that go beside it.
Its fields keep what makes it well formed, so that `Token.bytes` is always an element
that the walk of the decoder goes past in one turn (`Token.element`). The walk over
the bytes of a list of tokens ends behind them, having taken their descriptors
(`reaches_tokens`), and a message made of tokens is accepted (`decode_tokens`).
-/

set_option autoImplicit false

namespace Hyprwire.Wire

open Cpp Base128

/-! ## Lengths -/

/-- A length prefix: a numeral that `parseVarInt` reads as a length. -/
structure Length where
  bytes : List UInt8
  numeral : Numeral bytes
  short : bytes.length ≤ 5
  nonneg : 0 ≤ signedLength bytes

namespace Length

def value (length : Length) : Nat := prefixLength length.bytes

theorem value_cast (length : Length) : (length.value : ℤ) = signedLength length.bytes :=
  prefixLength_of_nonneg length.short length.nonneg

theorem value_lt (length : Length) : length.value < 2 ^ 31 := by
  have bounds := signedLength_bounds length.short
  have cast := length.value_cast
  omega

/-- A length inside its span is what is read there. -/
theorem prefixAt (length : Length) {v : View} {start len : Nat}
    (holds : v.Holds start length.bytes) (inside : length.bytes.length ≤ len) :
    PrefixAt v start len length.bytes :=
  ⟨holds, .of_numeral length.numeral inside, length.short⟩

/-- The length the encoder writes for a number. -/
def ofNat (n : Nat) (small : n < 2 ^ 28) : Length where
  bytes := encodeVarInt n
  numeral := by
    rw [encodeVarInt_eq small]
    exact numeral_encode n
  short := Nat.le_succ_of_le (length_encodeVarInt small)
  nonneg := by
    rw [signedLength_eq (length_encodeVarInt small)]
    exact Int.natCast_nonneg _

@[simp] theorem bytes_ofNat (n : Nat) (small : n < 2 ^ 28) :
    (ofNat n small).bytes = encodeVarInt n := rfl

@[simp] theorem value_ofNat (n : Nat) (small : n < 2 ^ 28) : (ofNat n small).value = n := by
  rw [value, bytes_ofNat, prefixLength_eq (length_encodeVarInt small), encodeVarInt_eq small,
    value_encode]

end Length

/-! ## Tokens -/

/-- The magics that four bytes follow. -/
abbrev WordMagic := { magic : EMessageMagic // magic.IsWord = true }

/-- A string after its length. -/
structure WireString where
  length : Length
  string : Str
  fits : string.length = length.value

def WireString.bytes (s : WireString) : List UInt8 := s.length.bytes ++ s.string

/-- An element of a generic message. -/
inductive Token where
  | word (magic : WordMagic) (bits : UInt32)
  | varchar (string : WireString)
  | words (magic : WordMagic) (length : Length) (elements : List UInt32)
      (counted : elements.length = length.value)
  | varchars (length : Length) (elements : List WireString)
      (counted : elements.length = length.value)
  | fds (length : Length) (elements : List Fd) (counted : elements.length = length.value)
  | fd (number : Fd)

namespace Token

/-- The bytes of an element. -/
def bytes : Token → List UInt8
  | word magic bits => magic.val.code :: u32Bytes bits
  | varchar string => EMessageMagic.typeVarchar.code :: string.bytes
  | words magic length elements _ =>
      EMessageMagic.typeArray.code :: magic.val.code :: (length.bytes ++ elements.flatMap u32Bytes)
  | varchars length elements _ =>
      EMessageMagic.typeArray.code :: EMessageMagic.typeVarchar.code ::
        (length.bytes ++ elements.flatMap WireString.bytes)
  | fds length _ _ =>
      EMessageMagic.typeArray.code :: EMessageMagic.typeFd.code :: length.bytes
  | fd _ => [EMessageMagic.typeFd.code]

/-- The descriptors that go beside an element. -/
def descriptors : Token → List Fd
  | .fds _ elements _ => elements
  | .fd number => [number]
  | _ => []

end Token

theorem length_flatMap_u32Bytes (elements : List UInt32) :
    (elements.flatMap u32Bytes).length = 4 * elements.length := by
  induction elements with
  | nil => rfl
  | cons value rest ih =>
      rw [List.flatMap_cons, List.length_append, ih, length_u32Bytes, List.length_cons]
      ring

theorem stringsSize_eq (elements : List WireString) :
    CGenericProtocolMessage.stringsSize (elements.map fun s => s.length.bytes) =
      (elements.flatMap WireString.bytes).length := by
  induction elements with
  | nil => rfl
  | cons s rest ih =>
      rw [List.map_cons, CGenericProtocolMessage.stringsSize, ih, ← s.length.value_cast, ← s.fits,
        List.flatMap_cons, List.length_append, WireString.bytes, List.length_append]
      push_cast
      ring

/-- Strings that follow each other in the data have prefixes that do. -/
theorem prefixes_of_holds {data : View} {base size start : Nat} {elements : List WireString}
    (holds : data.Holds (base + start) (elements.flatMap WireString.bytes))
    (inside : start + (elements.flatMap WireString.bytes).length ≤ size) (small : size < 2 ^ 64) :
    CGenericProtocolMessage.Prefixes data base size start
      (elements.map fun s => s.length.bytes) := by
  induction elements generalizing start with
  | nil => trivial
  | cons s rest ih =>
      rw [List.flatMap_cons, WireString.bytes, List.append_assoc] at holds
      rw [List.flatMap_cons, List.length_append, WireString.bytes, List.length_append] at inside
      obtain ⟨prefixHeld, afterPrefix⟩ := View.holds_append.mp holds
      have next : advance start (signedLength s.length.bytes + s.length.bytes.length) =
          start + (s.length.bytes.length + s.string.length) := by
        rw [← s.length.value_cast, ← s.fits, ← Nat.cast_add, advance_natCast]
        rw [wrap_of_lt (by omega), Nat.add_comm s.string.length]
      refine ⟨s.length.prefixAt prefixHeld ?_, ?_⟩
      · rw [wrapSub_of_le (by omega) small]
        omega
      · rw [next]
        refine ih ?_ (by omega)
        have tail := (View.holds_append.mp afterPrefix).2
        rwa [Nat.add_assoc, Nat.add_assoc] at tail

namespace Token

open CGenericProtocolMessage

theorem size_varchar (string : WireString) :
    (varchar string).bytes.length =
      string.length.bytes.length + string.string.length + 1 := by
  simp only [bytes, WireString.bytes, List.length_cons, List.length_append]

section Arrays

variable (magic : WordMagic) (length : Length)

theorem size_words (elements : List UInt32) (counted : elements.length = length.value) :
    (words magic length elements counted).bytes.length =
      2 + length.bytes.length + 4 * elements.length := by
  simp only [bytes, List.length_cons, List.length_append, length_flatMap_u32Bytes]
  omega

theorem size_varchars (elements : List WireString) (counted : elements.length = length.value) :
    (varchars length elements counted).bytes.length =
      2 + length.bytes.length + (elements.flatMap WireString.bytes).length := by
  simp only [bytes, List.length_cons, List.length_append]
  omega

theorem size_fds (elements : List Fd) (counted : elements.length = length.value) :
    (fds length elements counted).bytes.length = 2 + length.bytes.length := by
  simp only [bytes, List.length_cons]
  omega

/-! The lengths that the walks compute from the prefixes. -/

theorem length_varchar (string : WireString) :
    ((varchar string).bytes.length : ℤ) =
      1 + string.length.bytes.length + signedLength string.length.bytes := by
  rw [← string.length.value_cast, ← string.fits, size_varchar]
  push_cast
  ring

theorem length_words (elements : List UInt32) (counted : elements.length = length.value) :
    ((words magic length elements counted).bytes.length : ℤ) =
      2 + length.bytes.length + 4 * signedLength length.bytes := by
  rw [← length.value_cast, ← counted, size_words]
  push_cast
  rfl

theorem length_varchars (elements : List WireString) (counted : elements.length = length.value) :
    ((varchars length elements counted).bytes.length : ℤ) =
      2 + length.bytes.length + stringsSize (elements.map fun s => s.length.bytes) := by
  rw [stringsSize_eq, size_varchars]
  push_cast
  rfl

theorem length_fds (elements : List Fd) (counted : elements.length = length.value) :
    ((fds length elements counted).bytes.length : ℤ) = 2 + length.bytes.length := by
  rw [size_fds]
  push_cast
  rfl

end Arrays

/-- The magic of the elements of an array is read, and its length prefix. -/
theorem array_read {length : Length} {data : View} {offset i : Nat} {first second : UInt8}
    {rest : List UInt8}
    (holds : data.Holds (offset + i) (first :: second :: (length.bytes ++ rest)))
    (inside : offset + i + 2 + length.bytes.length < data.size) (small : data.size < 2 ^ 63) :
    data.checkedAt (wrap (offset + i + 1)) = .ok second ∧
      PrefixAt data (offset + i + 2) (wrapSub data.size i) length.bytes := by
  have left : wrapSub data.size i = data.size - i := wrapSub_of_le (by omega) (by omega)
  have tail := (View.holds_cons.mp holds).2
  refine ⟨View.checkedAt_of_holds tail ?_, ?_⟩
  · rw [wrap_of_lt (by omega)]
    omega
  · refine length.prefixAt (View.holds_append.mp (View.holds_cons.mp tail).2).1 ?_
    omega

/-- **A token is an element**, wherever it lies. -/
theorem element (token : Token) {data : View} {offset i : Nat}
    (holds : data.Holds (offset + i) token.bytes)
    (inside : offset + i + token.bytes.length < data.size) (small : data.size < 2 ^ 63) :
    Element data offset i token.bytes.length token.descriptors.length := by
  have first : wrap (offset + i) < data.size := by
    rw [wrap_of_lt (by omega)]
    omega
  cases token with
  | word magic bits => exact .word magic.property (View.checkedAt_of_holds holds first)
  | fd number => exact .fd (View.checkedAt_of_holds holds first)
  | varchar string =>
      have tail := (View.holds_cons.mp holds).2
      rw [length_varchar]
      simp only [bytes, WireString.bytes, List.length_cons, List.length_append] at inside
      refine .varchar (View.checkedAt_of_holds holds first) ?_
      refine string.length.prefixAt (View.holds_append.mp tail).1 ?_
      rw [wrapSub_of_le (by omega) (by omega)]
      omega
  | words magic length elements counted =>
      rw [length_words]
      simp only [bytes, List.length_cons, List.length_append] at inside
      obtain ⟨second, lies⟩ := array_read holds (by omega) small
      exact .words magic.property (View.checkedAt_of_holds holds first) second lies
  | varchars length elements counted =>
      rw [length_varchars]
      simp only [bytes, List.length_cons, List.length_append] at inside
      obtain ⟨second, lies⟩ := array_read holds (by omega) small
      have payload := View.holds_append.mp (View.holds_cons.mp (View.holds_cons.mp holds).2).2
      have left : wrapSub data.size i = data.size - i := wrapSub_of_le (by omega) (by omega)
      have strings : Prefixes data (offset + i) (wrapSub data.size i) (2 + length.bytes.length)
          (elements.map fun s => s.length.bytes) := by
        refine prefixes_of_holds ?_ (by omega) (by omega)
        rw [← Nat.add_assoc (offset + i)]
        exact payload.2
      exact .varchars (View.checkedAt_of_holds holds first) second lies
        ((List.length_map _).trans counted) strings
  | fds length elements counted =>
      rw [length_fds, show (descriptors (.fds length elements counted)).length =
        prefixLength length.bytes from counted]
      simp only [bytes, List.length_cons] at inside
      have read := @array_read length data offset i _ _ []
        (by rw [List.append_nil]; exact holds) (by omega) small
      exact .fds (View.checkedAt_of_holds holds first) read.1 read.2

end Token

/-! ## Messages made of tokens -/

open CGenericProtocolMessage

/-- **The decoder goes past a token** in one turn. -/
theorem Token.next (token : Token) {data : View} {offset i : Nat} {taken left : List Fd}
    (holds : data.Holds (offset + i) token.bytes)
    (inside : offset + i + token.bytes.length < data.size) (small : data.size < 2 ^ 63) :
    Next (elementTurn data offset) ⟨i, taken, token.descriptors ++ left⟩
      ⟨i + token.bytes.length, taken ++ token.descriptors, left⟩ := by
  have element := token.element holds inside small
  refine next_iff.mpr (elementStep_eq_again.mpr ⟨_, _, element, ?_, ?_⟩)
  · simp only [List.length_append]
    omega
  · simp only [ElementState.past, advance_natCast]
    rw [wrap_of_lt (by omega), List.take_left, List.drop_left]

/-- **The walk over the bytes of tokens** ends behind them and has taken their
descriptors. -/
theorem reaches_tokens {data : View} {offset i : Nat} {tokens : List Token} {taken rest : List Fd}
    (holds : data.Holds (offset + i) (tokens.flatMap Token.bytes))
    (inside : offset + i + (tokens.flatMap Token.bytes).length < data.size)
    (small : data.size < 2 ^ 63) :
    Reaches (elementTurn data offset)
      ⟨i, taken, tokens.flatMap Token.descriptors ++ rest⟩
      ⟨i + (tokens.flatMap Token.bytes).length, taken ++ tokens.flatMap Token.descriptors,
        rest⟩ := by
  induction tokens generalizing i taken with
  | nil => simpa using Relation.ReflTransGen.refl
  | cons token tokens ih =>
      rw [List.flatMap_cons] at holds
      simp only [List.flatMap_cons, List.length_append, List.append_assoc] at inside ⊢
      obtain ⟨head, tail⟩ := View.holds_append.mp holds
      refine .head (token.next head (by omega) small) ?_
      rw [← Nat.add_assoc, ← List.append_assoc taken]
      refine ih ?_ (by omega)
      rwa [Nat.add_assoc] at tail

/-- **A message made of tokens is accepted**, and takes their descriptors from the
front of the queue. -/
theorem decode_tokens {data : View} {offset : Nat} {object method : UInt32} {tokens : List Token}
    {rest : List Fd} (header : decodeHeader data offset = .ok (some (object, method)))
    (holds : data.Holds (offset + 11)
      (tokens.flatMap Token.bytes ++ [EMessageMagic.endMark.code]))
    (inside : offset + 11 + (tokens.flatMap Token.bytes).length < data.size)
    (small : data.size < 2 ^ 63) :
    decode data (tokens.flatMap Token.descriptors ++ rest) offset =
      some (.ok
        ({ object, method, len := 12 + (tokens.flatMap Token.bytes).length,
           fds := tokens.flatMap Token.descriptors,
           dataSpan := data.span (offset + 11) ((tokens.flatMap Token.bytes).length + 1) },
          rest)) := by
  obtain ⟨payload, mark⟩ := View.holds_append.mp holds
  have reaches := @reaches_tokens data offset 11 tokens [] rest payload inside small
  generalize total : (tokens.flatMap Token.bytes).length = length at *
  have len : wrap (11 + length + 1) = 12 + length := by
    rw [wrap_of_lt (by omega), Nat.add_right_comm]
  have span : wrapSub (12 + length) 11 = length + 1 := by
    rw [wrapSub_of_le (by omega) (by omega)]
    omega
  refine (decode_accepts.mpr ⟨object, method, _, header, reaches, ?_, ?_, ?_⟩).1
  · show data.checkedAt (wrap (offset + (11 + length))) = _
    rw [Nat.add_assoc] at mark
    refine View.checkedAt_of_holds mark ?_
    rw [wrap_of_lt (by omega)]
    omega
  · show wrap (11 + length + 1) ≠ 0
    rw [len]
    exact Nat.ne_of_gt (Nat.lt_of_lt_of_le (Nat.succ_pos 11) (Nat.le_add_right 12 length))
  · simp only [finish, len, span, List.nil_append]

end Hyprwire.Wire
