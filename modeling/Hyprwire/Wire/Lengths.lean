import Hyprwire.Wire.VarInt

/-!
# Which lengths survive

A length is read by `parseVarInt` and written by `encodeVarInt`. Each of them is meant
to hold for every `size_t`, and each of them has a bound.

The reader shifts an `int`. A numeral of at most five bytes that stands for a number an
`int` holds is decoded as it should be, and no other one is: the sign bit spoils the
fifth group, and a sixth group is shifted too far (`decodesBase128_iff`).

The writer has four groups. A number below `2 ^ 28` is read back behind every
continuation, from the shortest numeral there is, and no other number is
(`roundTrips_iff`).
-/

set_option autoImplicit false

namespace Hyprwire.Wire

open Cpp Base128

/-! ## A span of bytes -/

/-- `std::span<const uint8_t>` of a list of bytes. -/
def spanOf (bytes : List UInt8) : View where
  size := bytes.length
  read i := bytes[i]?

/-- `CMessageParser::parseVarInt` on a span. -/
def parseVarIntOf (bytes : List UInt8) : Except Fault (Nat × Nat) :=
  parseVarInt (spanOf bytes) 0 bytes.length

theorem spanOf_holds {before bytes after : List UInt8}
    (small : before.length + bytes.length ≤ 2 ^ 64) :
    (spanOf (before ++ (bytes ++ after))).Holds before.length bytes := by
  intro k within
  have index : wrap (before.length + k) = before.length + k := wrap_of_lt (by omega)
  show (before ++ (bytes ++ after))[wrap (before.length + k)]? = some bytes[k]
  rw [index, List.getElem?_append_right (Nat.le_add_right _ _), Nat.add_sub_cancel_left,
    List.getElem?_append_left within, List.getElem?_eq_getElem within]

/-- The first bytes of a span lie at its start. -/
theorem spanOf_holds_take (bytes : List UInt8) {k : Nat} (small : k ≤ 2 ^ 64) :
    (spanOf bytes).Holds 0 (bytes.take k) := by
  have holds := @spanOf_holds [] (bytes.take k) (bytes.drop k)
    (by rw [List.length_nil, Nat.zero_add]; exact (List.length_take_le k bytes).trans small)
  rwa [List.nil_append, List.take_append_drop] at holds

/-! ## The first numeral of a span -/

/-- The number of bytes up to the first one that does not continue, or of all bytes. -/
def numeralLength (bytes : List UInt8) : Nat :=
  min bytes.length (1 + bytes.findIdx fun byte => decide (¬ Continues byte))

/-- The bytes of the first numeral. -/
def firstNumeral (bytes : List UInt8) : List UInt8 := bytes.take (numeralLength bytes)

theorem length_firstNumeral (bytes : List UInt8) :
    (firstNumeral bytes).length = numeralLength bytes := by
  rw [firstNumeral, List.length_take]
  exact Nat.min_eq_left (Nat.min_le_left _ _)

theorem numeralLength_of_stops {byte : UInt8} (rest : List UInt8) (stops : ¬ Continues byte) :
    numeralLength (byte :: rest) = 1 := by
  simp [numeralLength, List.findIdx_cons, stops]

theorem numeralLength_of_continues {byte : UInt8} (rest : List UInt8) (goes : Continues byte) :
    numeralLength (byte :: rest) = numeralLength rest + 1 := by
  simp only [numeralLength, List.findIdx_cons, goes, List.length_cons, not_true_eq_false,
    decide_false, cond_false]
  omega

theorem numeralLength_pos {bytes : List UInt8} (some : bytes ≠ []) : 0 < numeralLength bytes := by
  have := List.length_pos_iff.mpr some
  rw [numeralLength]
  omega

/-- **The first numeral is what `parseVarInt` takes.** -/
theorem header_firstNumeral {bytes : List UInt8} (some : bytes ≠ []) :
    Header bytes.length (firstNumeral bytes) := by
  induction bytes with
  | nil => exact absurd rfl some
  | cons byte rest ih =>
      by_cases goes : Continues byte
      · rw [firstNumeral, numeralLength_of_continues rest goes, List.take_succ_cons]
        cases rest with
        | nil => exact fun both => absurd both.1 (Nat.lt_irrefl 1)
        | cons next rest =>
            have tail := ih (List.cons_ne_nil _ _)
            have taken : (firstNumeral (next :: rest)).length ≠ 0 := by
              rw [length_firstNumeral]
              exact (numeralLength_pos (List.cons_ne_nil _ _)).ne'
            rw [firstNumeral] at tail taken
            cases is : (next :: rest).take (numeralLength (next :: rest)) with
            | nil => exact absurd (congrArg List.length is) taken
            | cons first others =>
                rw [is] at tail
                exact ⟨⟨by simp, goes⟩, tail⟩
      · rw [firstNumeral, numeralLength_of_stops rest goes]
        exact fun both => goes both.2

/-- Every byte of a numeral but the last continues. -/
theorem Header.continues {len : Nat} {bytes : List UInt8} (header : Header len bytes) {k : Nat}
    (more : k < bytes.length) : ∀ byte ∈ bytes.take k, Continues byte := by
  induction bytes generalizing len k with
  | nil => exact header.elim
  | cons first rest ih =>
      cases k with
      | zero => exact fun _ taken => absurd taken List.not_mem_nil
      | succ k =>
          cases rest with
          | nil => exact absurd more (by simp)
          | cons next rest =>
              intro byte taken
              rw [List.take_succ_cons] at taken
              rcases List.mem_cons.mp taken with rfl | later
              · exact header.1.2
              · exact ih header.2 (by simpa using more) byte later

/-- A numeral of at most five bytes is read as its prefix length. -/
theorem parseVarIntOf_eq {bytes : List UInt8} (some : bytes ≠ []) (short : numeralLength bytes ≤ 5) :
    parseVarIntOf bytes = .ok (prefixLength (firstNumeral bytes), numeralLength bytes) := by
  have read := parseVarInt_of_holds (spanOf_holds_take bytes (by omega : numeralLength bytes ≤ 2 ^ 64))
    (header_firstNumeral some) (by rwa [← firstNumeral, length_firstNumeral])
  rwa [← firstNumeral, length_firstNumeral] at read

/-- A longer one leads to the shift of its sixth byte. -/
theorem parseVarIntOf_eq_badShift {bytes : List UInt8} (some : bytes ≠ [])
    (long : 5 < numeralLength bytes) : parseVarIntOf bytes = .error .badShift := by
  have length := length_firstNumeral bytes
  have total : numeralLength bytes ≤ bytes.length := Nat.min_le_left _ _
  refine parseVarInt_eq_badShift.mpr ⟨by omega, bytes.take 6, ?_, ?_, ?_⟩
  · rw [List.length_take]
    omega
  · exact spanOf_holds_take bytes (by norm_num)
  · have first : (bytes.take 6).take 5 = (firstNumeral bytes).take 5 := by
      rw [firstNumeral, List.take_take, List.take_take, Nat.min_eq_left (by omega),
        Nat.min_eq_left (by omega)]
    rw [first]
    exact (header_firstNumeral some).continues (by omega)

/-! ## Decoding -/

/-- A span is decoded as a base-128 numeral: by its first numeral, modulo `2 ^ 64`, without
a shift that is undefined, and a numeral of at most nine bytes to no more than its groups
can hold. -/
structure DecodesBase128 (bytes : List UInt8) : Prop where
  decodes : parseVarIntOf bytes = .ok (wrap (value (firstNumeral bytes)), numeralLength bytes)
  holds : ∀ n k, parseVarIntOf bytes = .ok (n, k) → k ≤ 9 → n < 2 ^ (7 * k)

/-- The value of a numeral of at most five bytes is read when an `int` holds it. -/
theorem prefixLength_eq_wrap_value {bytes : List UInt8} (short : bytes.length ≤ 5) :
    prefixLength bytes = wrap (value bytes) ↔ value bytes < 2 ^ 31 := by
  rcases Nat.lt_or_ge bytes.length 5 with four | five
  · have low : value bytes < 2 ^ 28 :=
      Nat.lt_of_lt_of_le (value_lt bytes)
        (Nat.pow_le_pow_right (Nat.succ_pos 127) (Nat.le_of_lt_succ four))
    rw [prefixLength_eq (by omega), wrap_of_lt (by omega)]
    exact iff_of_true rfl (by omega)
  · obtain ⟨b₀, rest, rfl⟩ := List.exists_cons_of_length_eq_add_one (Nat.le_antisymm short five)
    obtain ⟨b₁, b₂, b₃, b₄, rfl⟩ := List.length_eq_four.mp
      (show rest.length = 4 by simp only [List.length_cons] at short five; omega)
    have low := @groupSum_eq 0 [b₀, b₁, b₂, b₃] (Nat.le_refl 4)
    have bound := value_lt [b₀, b₁, b₂, b₃]
    have sum : groupSum 0 [b₀, b₁, b₂, b₃, b₄] =
        groupSum 0 [b₀, b₁, b₂, b₃] + shiftInt (b₄.toNat % 128) 28 := by
      simp only [groupSum_cons, groupSum_nil, lowSeven_eq]
      ring
    have whole : value [b₀, b₁, b₂, b₃, b₄] =
        value [b₀, b₁, b₂, b₃] + b₄.toNat % 128 * 2 ^ 28 := by
      simp only [value_cons, value_nil]
      ring
    rw [prefixLength, sum, whole, low]
    simp only [wrap, shiftInt, List.length_cons, List.length_nil] at bound ⊢
    split <;> omega

/-- **The first numeral of a span is decoded as a base-128 numeral** exactly when it has at
most five bytes and stands for a number that an `int` holds. -/
theorem decodesBase128_iff {bytes : List UInt8} (some : bytes ≠ []) :
    DecodesBase128 bytes ↔ numeralLength bytes ≤ 5 ∧ value (firstNumeral bytes) < 2 ^ 31 := by
  have length := length_firstNumeral bytes
  constructor
  · intro decoded
    have short : numeralLength bytes ≤ 5 := by
      by_contra long
      have fault := parseVarIntOf_eq_badShift some (Nat.not_le.mp long)
      cases fault.symm.trans decoded.decodes
    refine ⟨short, (prefixLength_eq_wrap_value (by omega)).mp ?_⟩
    have read := (parseVarIntOf_eq some short).symm.trans decoded.decodes
    exact congrArg Prod.fst (Except.ok.inj read)
  · rintro ⟨short, fits⟩
    have read := parseVarIntOf_eq some short
    rw [(prefixLength_eq_wrap_value (by omega)).mpr fits] at read
    refine ⟨read, ?_⟩
    intro n k taken _
    cases read.symm.trans taken
    have bound := value_lt (firstNumeral bytes)
    rw [length] at bound
    rw [wrap_of_lt (by omega), Nat.pow_mul]
    exact bound

theorem decodesBase128_int_max : DecodesBase128 [0xff, 0xff, 0xff, 0xff, 0x07] :=
  (decodesBase128_iff (List.cons_ne_nil _ _)).mpr ⟨by decide, by decide⟩

/-- The fifth byte reaches the sign bit, and the length becomes negative. -/
theorem not_decodesBase128 : ¬ ∀ bytes, bytes ≠ [] → DecodesBase128 bytes := by
  intro all
  have decoded := (all [0x80, 0x80, 0x80, 0x80, 0x08] (List.cons_ne_nil _ _)).decodes
  exact absurd decoded (by decide)

/-! ## Round trips -/

/-- A number is read back from its encoding, whatever comes after it, and no shorter
encoding stands for it. -/
structure RoundTrips (n : Nat) : Prop where
  reads : ∀ suffix, parseVarIntOf (encodeVarInt n ++ suffix) = .ok (n, (encodeVarInt n).length)
  shortest : ∀ bytes, parseVarIntOf bytes = .ok (n, bytes.length) →
    (encodeVarInt n).length ≤ bytes.length

/-- What is read behind a place where a length was written: its lower 28 bits. -/
theorem parseVarInt_written {v : View} {start len n : Nat} (holds : v.Holds start (encodeVarInt n))
    (inside : (encodeVarInt n).length ≤ len) :
    parseVarInt v start len = .ok (n % 2 ^ 28, (encodeVarInt n).length) := by
  rw [encodeVarInt_mod] at holds inside ⊢
  exact parseVarInt_encodeVarInt (Nat.mod_lt _ (by decide)) holds inside

theorem parseVarIntOf_encodeVarInt (n : Nat) (suffix : List UInt8) :
    parseVarIntOf (encodeVarInt n ++ suffix) = .ok (n % 2 ^ 28, (encodeVarInt n).length) := by
  have short : (encodeVarInt n).length ≤ 4 := by
    rw [encodeVarInt_mod]
    exact length_encodeVarInt (Nat.mod_lt _ (by decide))
  have holds := @spanOf_holds [] (encodeVarInt n) suffix (by rw [List.length_nil]; omega)
  exact parseVarInt_written holds (by rw [List.length_append]; omega)

/-- **A number survives the round trip exactly when it is below `2 ^ 28`.** -/
theorem roundTrips_iff_lt {n : Nat} : RoundTrips n ↔ n < 2 ^ 28 := by
  constructor
  · intro trip
    have read := (parseVarIntOf_encodeVarInt n []).symm.trans (trip.reads [])
    have low : n % 2 ^ 28 = n := congrArg Prod.fst (Except.ok.inj read)
    omega
  · intro small
    refine ⟨?_, ?_⟩
    · intro suffix
      rw [parseVarIntOf_encodeVarInt, Nat.mod_eq_of_lt small]
    · intro bytes read
      obtain ⟨taken, lies, same, length⟩ := parseVarInt_eq_ok.mp read
      rw [length]
      rcases Nat.lt_or_ge taken.length 5 with few | many
      · rw [prefixLength_eq (by omega)] at same
        rw [encodeVarInt_eq small]
        refine length_encode_le lies.header.length_pos ?_
        rw [same]
        exact value_lt taken
      · have short := length_encodeVarInt small
        omega

end Hyprwire.Wire
