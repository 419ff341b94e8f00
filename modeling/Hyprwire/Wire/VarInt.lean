import Hyprwire.Cpp.Memory
import Hyprwire.Cpp.Base128
import Mathlib.Data.Nat.Bitwise
import Mathlib.Tactic.IntervalCases

/-!
# Length prefixes

Strings and arrays are preceded on the wire by their length, a base-128 numeral.
`encodeVarInt` writes four groups of seven bits and drops the leading zero groups,
so that below `2 ^ 28` it writes the shortest numeral (`encodeVarInt_eq`).

`parseVarInt` adds up the groups as it meets them. The group at position `i` is a
byte promoted to `int`, shifted left by `7 * i` there, and converted to `size_t`
when it is added. The shift by 28 can reach the sign bit, so a fifth byte can make
the length negative; a sixth byte asks for a shift by 35, which is undefined.
The bytes one call reads are a `Header`, and `parseVarInt_eq_ok` gives its result
from them.
-/

set_option autoImplicit false

namespace Hyprwire.Wire

open Cpp Base128

/-! ## Decoding -/

/-- `sc<uint8_t>(byte << 1) >> 1`. -/
def lowSeven (byte : UInt8) : Nat := byte.toNat * 2 % 256 / 2

/-- `x << shift` at type `int`, converted to `size_t`: a negative `int` is sign
extended. -/
def shiftInt (x shift : Nat) : Nat :=
  let bits := x * 2 ^ shift % 2 ^ 32
  if bits < 2 ^ 31 then bits else bits + (2 ^ 64 - 2 ^ 32)

/-- The `do` loop of `parseVarInt` over the span of `len` bytes at `start`, before
byte `i`. The first argument counts the shifts that are left below the width of
`int`. -/
def parseVarIntFrom (v : View) (start len : Nat) : Nat → Nat → Nat → Except Fault (Nat × Nat)
  | 0, i, _ => do
      let _ ← v.rawAt (wrap (start + i))
      throw .badShift
  | shifts + 1, i, rolling => do
      let byte ← v.rawAt (wrap (start + i))
      let rolling := wrap (rolling + shiftInt (lowSeven byte) (i * 7))
      if i + 1 < len ∧ byte &&& 0x80 ≠ 0 then
        parseVarIntFrom v start len shifts (i + 1) rolling
      else
        return (rolling, i + 1)

theorem parseVarIntFrom_zero (v : View) (start len i rolling : Nat) :
    parseVarIntFrom v start len 0 i rolling =
      v.rawAt (wrap (start + i)) >>= fun _ => .error .badShift := rfl

theorem parseVarIntFrom_succ (v : View) (start len shifts i rolling : Nat) :
    parseVarIntFrom v start len (shifts + 1) i rolling =
      v.rawAt (wrap (start + i)) >>= fun byte =>
        if i + 1 < len ∧ byte &&& 0x80 ≠ 0 then
          parseVarIntFrom v start len shifts (i + 1)
            (wrap (rolling + shiftInt (lowSeven byte) (i * 7)))
        else
          .ok (wrap (rolling + shiftInt (lowSeven byte) (i * 7)), i + 1) := rfl

/-- `CMessageParser::parseVarInt` on the span of `len` bytes at `start`: the value,
and the number of bytes it took. The shifts by 0, 7, 14, 21 and 28 are defined. -/
def parseVarInt (v : View) (start len : Nat) : Except Fault (Nat × Nat) :=
  parseVarIntFrom v start len 5 0 0

/-- `CMessageParser::parseVarInt` on a vector from an offset on. -/
def parseVarIntAt (v : View) (offset : Nat) : Except Fault (Nat × Nat) :=
  parseVarInt v offset (wrapSub v.size offset)

theorem lowSeven_eq (byte : UInt8) : lowSeven byte = byte.toNat % 128 := by
  unfold lowSeven
  omega

theorem and_0x80_ne_zero_iff (byte : UInt8) : byte &&& 0x80 ≠ 0 ↔ Continues byte := by
  have bound := byte.toNat_lt
  have bit : (byte &&& 0x80).toNat = (byte.toNat.testBit 7).toNat * 2 ^ 7 :=
    (UInt8.toNat_and byte 0x80).trans (Nat.and_two_pow byte.toNat 7)
  rw [ne_eq, ← UInt8.toNat_inj, bit, Nat.testBit_eq_decide_div_mod_eq, Continues]
  by_cases set : byte.toNat / 2 ^ 7 % 2 = 1
  · simp only [set]
    exact iff_of_true (by decide) (by omega)
  · simp only [set]
    exact iff_of_false (by decide) (by omega)

/-- Below the sign bit the shifted group is the group at its place. -/
theorem shiftInt_lowSeven (byte : UInt8) {i : Nat} (place : i < 4) :
    shiftInt (lowSeven byte) (i * 7) = byte.toNat % 128 * 128 ^ i := by
  have low : byte.toNat % 128 < 128 := Nat.mod_lt _ (by decide)
  rw [lowSeven_eq]
  have below : byte.toNat % 128 * 2 ^ (i * 7) < 2 ^ 31 := by
    interval_cases i <;> omega
  have narrow : byte.toNat % 128 * 2 ^ (i * 7) % 2 ^ 32 = byte.toNat % 128 * 2 ^ (i * 7) :=
    Nat.mod_eq_of_lt (by omega)
  simp only [shiftInt, narrow, if_pos below]
  rw [Nat.mul_comm i 7, Nat.pow_mul]

/-! ## The bytes of a prefix -/

/-- The bytes `parseVarInt` takes from a span of `len` bytes: it goes on as long as
the span does and the byte continues. -/
def Header (len : Nat) : List UInt8 → Prop
  | [] => False
  | [byte] => ¬ (1 < len ∧ Continues byte)
  | byte :: rest => (1 < len ∧ Continues byte) ∧ Header (len - 1) rest

theorem Header.length_pos {len : Nat} {bytes : List UInt8} (header : Header len bytes) :
    0 < bytes.length := by
  cases bytes with
  | nil => exact header.elim
  | cons byte rest => exact Nat.zero_lt_succ _

/-- A numeral inside the span is what is taken from it. -/
theorem Header.of_numeral {len : Nat} {bytes : List UInt8} (numeral : Numeral bytes)
    (inside : bytes.length ≤ len) : Header len bytes := by
  induction bytes generalizing len with
  | nil => exact numeral
  | cons byte rest ih =>
      cases rest with
      | nil => exact fun both => numeral both.2
      | cons next rest =>
          simp only [List.length_cons] at inside
          exact ⟨⟨by omega, numeral.1⟩, ih numeral.2 (by simp only [List.length_cons]; omega)⟩

/-- What is taken is a numeral, or it runs to the end of the span. -/
theorem Header.numeral_or_length {len : Nat} {bytes : List UInt8} (header : Header len bytes) :
    Numeral bytes ∨ len ≤ bytes.length := by
  induction bytes generalizing len with
  | nil => exact header.elim
  | cons byte rest ih =>
      cases rest with
      | nil =>
          by_cases goes : Continues byte
          · exact .inr (by simpa [Header, goes] using header)
          · exact .inl goes
      | cons next rest =>
          obtain ⟨⟨long, goes⟩, tail⟩ := header
          rcases ih tail with numeral | runs
          · exact .inl ⟨goes, numeral⟩
          · exact .inr (by simp only [List.length_cons] at runs ⊢; omega)

/-- The sum of the shifted groups of a prefix, from position `i` on. -/
def groupSum : Nat → List UInt8 → Nat
  | _, [] => 0
  | i, byte :: rest => shiftInt (lowSeven byte) (i * 7) + groupSum (i + 1) rest

theorem groupSum_nil (i : Nat) : groupSum i [] = 0 := rfl

theorem groupSum_cons (i : Nat) (byte : UInt8) (rest : List UInt8) :
    groupSum i (byte :: rest) = shiftInt (lowSeven byte) (i * 7) + groupSum (i + 1) rest := rfl

/-- The length `parseVarInt` gives for the bytes of a prefix. -/
def prefixLength (bytes : List UInt8) : Nat := wrap (groupSum 0 bytes)

theorem parseVarIntFrom_of_holds {v : View} {start len shifts i rolling : Nat}
    {bytes : List UInt8} (holds : v.Holds (start + i) bytes) (header : Header (len - i) bytes)
    (short : bytes.length ≤ shifts) :
    parseVarIntFrom v start len shifts i rolling =
      .ok (wrap (rolling + groupSum i bytes), i + bytes.length) := by
  induction bytes generalizing shifts i rolling with
  | nil => exact header.elim
  | cons byte rest ih =>
      obtain ⟨shifts, rfl⟩ : ∃ k, shifts = k + 1 := ⟨shifts - 1, by simp at short; omega⟩
      rw [parseVarIntFrom_succ, View.rawAt_of_holds holds, ok_bind]
      simp only [and_0x80_ne_zero_iff]
      cases rest with
      | nil =>
          have stops : ¬ (i + 1 < len ∧ Continues byte) := fun both =>
            header ⟨by omega, both.2⟩
          rw [if_neg stops]
          simp only [groupSum_cons, groupSum_nil, Nat.add_zero, List.length_singleton]
      | cons next rest =>
          obtain ⟨⟨long, goes⟩, tail⟩ := header
          have goesOn : i + 1 < len ∧ Continues byte := ⟨by omega, goes⟩
          rw [if_pos goesOn, ih (by simpa only [Nat.add_assoc] using (View.holds_cons.mp holds).2)
            (by rwa [Nat.sub_add_eq]) (by simpa using short)]
          simp only [groupSum_cons, List.length_cons, wrap]
          refine congrArg Except.ok (Prod.ext ?_ ?_)
          · simp only [Nat.mod_add_mod, Nat.add_assoc]
          · simp only
            omega

/-- **The value of a prefix, from the bytes it is made of.** -/
theorem parseVarInt_of_holds {v : View} {start len : Nat} {bytes : List UInt8}
    (holds : v.Holds start bytes) (header : Header len bytes) (short : bytes.length ≤ 5) :
    parseVarInt v start len = .ok (prefixLength bytes, bytes.length) := by
  have result := @parseVarIntFrom_of_holds v start len 5 0 0 bytes holds header short
  rwa [Nat.zero_add, Nat.zero_add] at result

/-- What one call of `parseVarInt` can give: the value of a prefix of at most five
bytes, an access outside the buffer, or the shift of a sixth byte. -/
theorem parseVarIntFrom_cases (v : View) (start len shifts i rolling : Nat) :
    (∃ bytes, v.Holds (start + i) bytes ∧ Header (len - i) bytes ∧ bytes.length ≤ shifts) ∨
      parseVarIntFrom v start len shifts i rolling = .error .outOfBounds ∨
      parseVarIntFrom v start len shifts i rolling = .error .badShift := by
  induction shifts generalizing i rolling with
  | zero =>
      refine .inr ?_
      cases read : v.rawAt (wrap (start + i)) with
      | ok byte => exact .inr (by rw [parseVarIntFrom_zero, read, ok_bind])
      | error fault =>
          refine .inl ?_
          have unmapped := View.rawAt_eq_error read
          rw [parseVarIntFrom_zero, read, error_bind, unmapped]
  | succ shifts ih =>
      cases read : v.read (wrap (start + i)) with
      | none => exact .inr (.inl (by rw [parseVarIntFrom_succ, View.rawAt_of_none read, error_bind]))
      | some byte =>
          by_cases goes : i + 1 < len ∧ Continues byte
          · have step : ∀ rolling, parseVarIntFrom v start len (shifts + 1) i rolling =
                parseVarIntFrom v start len shifts (i + 1)
                  (wrap (rolling + shiftInt (lowSeven byte) (i * 7))) := by
              intro rolling
              rw [parseVarIntFrom_succ, View.rawAt_eq_ok.mpr read, ok_bind]
              simp only [and_0x80_ne_zero_iff, if_pos goes]
            rw [step]
            rcases ih (i + 1) (wrap (rolling + shiftInt (lowSeven byte) (i * 7))) with
              ⟨bytes, holds, header, short⟩ | fault
            · refine .inl ⟨byte :: bytes, View.holds_cons.mpr ⟨read, ?_⟩, ?_, by simpa using short⟩
              · rwa [Nat.add_assoc]
              · cases bytes with
                | nil => exact header.elim
                | cons next rest =>
                    exact ⟨⟨by omega, goes.2⟩, by rwa [Nat.sub_sub]⟩
            · exact .inr fault
          · exact .inl ⟨[byte], View.holds_cons.mpr ⟨read, View.holds_nil _ _⟩,
              fun both => goes ⟨by omega, both.2⟩, by simp⟩

/-- A prefix that lies in the span of `len` bytes at `start`, and for which every
shift is defined. -/
structure PrefixAt (v : View) (start len : Nat) (bytes : List UInt8) : Prop where
  holds : v.Holds start bytes
  header : Header len bytes
  short : bytes.length ≤ 5

/-- **A call that returns has read a prefix, and returns its value and its length.** -/
theorem parseVarInt_eq_ok {v : View} {start len n k : Nat} :
    parseVarInt v start len = .ok (n, k) ↔
      ∃ bytes, PrefixAt v start len bytes ∧ n = prefixLength bytes ∧ k = bytes.length := by
  constructor
  · intro result
    rcases parseVarIntFrom_cases v start len 5 0 0 with ⟨bytes, holds, header, short⟩ | fault | fault
    · rw [Nat.add_zero] at holds
      rw [Nat.sub_zero] at header
      have value := parseVarInt_of_holds holds header short
      rw [result] at value
      cases value
      exact ⟨bytes, ⟨holds, header, short⟩, rfl, rfl⟩
    · cases result.symm.trans fault
    · cases result.symm.trans fault
  · rintro ⟨bytes, ⟨holds, header, short⟩, rfl, rfl⟩
    exact parseVarInt_of_holds holds header short

theorem PrefixAt.parseVarInt {v : View} {start len : Nat} {bytes : List UInt8}
    (lies : PrefixAt v start len bytes) :
    parseVarInt v start len = .ok (prefixLength bytes, bytes.length) :=
  parseVarInt_of_holds lies.holds lies.header lies.short

/-- The faults of `parseVarInt`. -/
theorem parseVarInt_eq_error {v : View} {start len : Nat} {fault : Fault}
    (failed : parseVarInt v start len = .error fault) :
    fault = .outOfBounds ∨ fault = .badShift := by
  rcases parseVarIntFrom_cases v start len 5 0 0 with ⟨bytes, holds, header, short⟩ | h | h
  · rw [Nat.add_zero] at holds
    rw [Nat.sub_zero] at header
    rw [parseVarInt_of_holds holds header short] at failed
    cases failed
  · exact .inl (Except.error.inj (failed.symm.trans h))
  · exact .inr (Except.error.inj (failed.symm.trans h))

/-- Six bytes lie in a span, and the first five continue. -/
def LongAt (v : View) (start len : Nat) : Prop :=
  5 < len ∧ ∃ bytes, bytes.length = 6 ∧ v.Holds start bytes ∧ ∀ byte ∈ bytes.take 5, Continues byte

theorem parseVarIntFrom_eq_badShift {v : View} {start len shifts i rolling : Nat} :
    parseVarIntFrom v start len shifts i rolling = .error .badShift ↔
      (0 < shifts → i + shifts < len) ∧ ∃ bytes, bytes.length = shifts + 1 ∧
        v.Holds (start + i) bytes ∧ ∀ byte ∈ bytes.take shifts, Continues byte := by
  induction shifts generalizing i rolling with
  | zero =>
      cases read : v.read (wrap (start + i)) with
      | none =>
          rw [parseVarIntFrom_zero, View.rawAt_of_none read, error_bind]
          refine iff_of_false (by simp) ?_
          rintro ⟨-, bytes, one, holds, -⟩
          have first := holds 0 (by omega)
          rw [Nat.add_zero, read] at first
          cases first
      | some byte =>
          rw [parseVarIntFrom_zero, View.rawAt_eq_ok.mpr read, ok_bind]
          refine iff_of_true rfl ⟨fun none => absurd none (Nat.lt_irrefl 0), [byte], rfl, ?_, ?_⟩
          · exact View.holds_cons.mpr ⟨read, View.holds_nil _ _⟩
          · exact fun _ taken => absurd taken List.not_mem_nil
  | succ shifts ih =>
      cases read : v.read (wrap (start + i)) with
      | none =>
          rw [parseVarIntFrom_succ, View.rawAt_of_none read, error_bind]
          refine iff_of_false (by simp) ?_
          rintro ⟨-, bytes, one, holds, -⟩
          have first := holds 0 (by omega)
          rw [Nat.add_zero, read] at first
          cases first
      | some byte =>
          rw [parseVarIntFrom_succ, View.rawAt_eq_ok.mpr read, ok_bind]
          simp only [and_0x80_ne_zero_iff]
          by_cases goes : i + 1 < len ∧ Continues byte
          · rw [if_pos goes, ih]
            constructor
            · rintro ⟨room, bytes, length, holds, continues⟩
              refine ⟨fun _ => ?_, byte :: bytes, by rw [List.length_cons, length], ?_, ?_⟩
              · cases shifts with
                | zero => exact goes.1
                | succ shifts =>
                    have := room (Nat.succ_pos _)
                    omega
              · refine View.holds_cons.mpr ⟨read, ?_⟩
                rwa [Nat.add_assoc]
              · intro other taken
                rw [List.take_succ_cons] at taken
                rcases List.mem_cons.mp taken with rfl | later
                · exact goes.2
                · exact continues other later
            · rintro ⟨room, bytes, length, holds, continues⟩
              obtain ⟨first, bytes, rfl⟩ := List.exists_cons_of_length_eq_add_one length
              refine ⟨fun _ => ?_, bytes, Nat.succ.inj length, ?_, ?_⟩
              · have := room (Nat.succ_pos _)
                omega
              · have tail := (View.holds_cons.mp holds).2
                rwa [Nat.add_assoc] at tail
              · exact fun other later => continues other (List.mem_cons_of_mem _ later)
          · rw [if_neg goes]
            refine iff_of_false (by simp) ?_
            rintro ⟨room, bytes, length, holds, continues⟩
            obtain ⟨first, bytes, rfl⟩ := List.exists_cons_of_length_eq_add_one length
            have same := (View.holds_cons.mp holds).1
            rw [read] at same
            cases same
            refine goes ⟨?_, continues byte (by simp)⟩
            have := room (Nat.succ_pos _)
            omega

/-- **The shift of a sixth byte is what a long prefix leads to.** -/
theorem parseVarInt_eq_badShift {v : View} {start len : Nat} :
    parseVarInt v start len = .error .badShift ↔ LongAt v start len := by
  rw [parseVarInt, parseVarIntFrom_eq_badShift, LongAt, Nat.zero_add, Nat.add_zero]
  exact and_congr_left' ⟨fun room => room (Nat.succ_pos 4), fun room _ => room⟩

/-! ## The value of a prefix -/

theorem groupSum_eq {i : Nat} {bytes : List UInt8} (short : i + bytes.length ≤ 4) :
    groupSum i bytes = 128 ^ i * value bytes := by
  induction bytes generalizing i with
  | nil => rw [groupSum_nil, value_nil, Nat.mul_zero]
  | cons byte rest ih =>
      simp only [List.length_cons] at short
      rw [groupSum_cons, shiftInt_lowSeven byte (by omega), ih (by omega), value_cons, Nat.pow_succ]
      ring

/-- **A prefix of at most four bytes stands for its base-128 value.** -/
theorem prefixLength_eq {bytes : List UInt8} (short : bytes.length ≤ 4) :
    prefixLength bytes = value bytes := by
  have bound : value bytes < 128 ^ 4 :=
    Nat.lt_of_lt_of_le (value_lt bytes) (Nat.pow_le_pow_right (by decide) short)
  rw [prefixLength, groupSum_eq (by omega), Nat.pow_zero, Nat.one_mul]
  exact wrap_of_lt (by omega)

theorem prefixLength_lt {bytes : List UInt8} (short : bytes.length ≤ 4) :
    prefixLength bytes < 2 ^ 28 := by
  rw [prefixLength_eq short]
  exact Nat.lt_of_lt_of_le (value_lt bytes) (Nat.pow_le_pow_right (by decide) short)

/-! ## The sign of a prefix -/

/-- The index a signed number of bytes further on, reduced to a `size_t`. -/
def advance (i : Nat) (size : ℤ) : Nat := ((i + size) % 2 ^ 64).toNat

theorem advance_cast (i : Nat) (size : ℤ) : (advance i size : ℤ) = (i + size) % 2 ^ 64 :=
  Int.toNat_of_nonneg (Int.emod_nonneg _ (by decide))

theorem advance_natCast (i n : Nat) : advance i n = wrap (i + n) := by
  rw [advance, wrap]
  exact congrArg Int.toNat (by norm_cast)

theorem advance_zero {i : Nat} (small : i < 2 ^ 64) : advance i 0 = i := by
  have same := advance_natCast i 0
  rwa [Nat.cast_zero, Nat.add_zero, wrap_of_lt small] at same

theorem advance_lt (i : Nat) (size : ℤ) : advance i size < 2 ^ 64 := by
  have cast := advance_cast i size
  have bound := Int.emod_lt_of_pos (i + size) (show (0 : ℤ) < 2 ^ 64 by decide)
  omega

theorem advance_eq_of_cast {i n : Nat} {size : ℤ}
    (same : ∃ k : ℤ, (n : ℤ) = i + size + k * 2 ^ 64) : advance i size = wrap n := by
  obtain ⟨k, same⟩ := same
  have reduced : (n : ℤ) % 2 ^ 64 = (i + size) % 2 ^ 64 := by
    rw [same, Int.add_mul_emod_self_right]
  rw [advance, ← reduced, wrap]
  exact congrArg Int.toNat (by norm_cast)

/-- Adding what is left after a step from `n`. -/
theorem advance_cast_add (i n : Nat) (size : ℤ) :
    advance i (advance n size : Nat) = advance i (n + size) := by
  rw [advance_cast, advance, advance, Int.add_emod_emod]

theorem advance_advance (i : Nat) (first second : ℤ) :
    advance (advance i first) second = advance i (first + second) := by
  rw [advance, advance_cast, Int.emod_add_emod, Int.add_assoc, ← advance]

/-- The `int` that a shifted group is. -/
def signedGroup (byte : UInt8) (shift : Nat) : ℤ :=
  let bits : Nat := lowSeven byte * 2 ^ shift % 2 ^ 32
  if bits < 2 ^ 31 then bits else bits - 2 ^ 32

/-- The sum of the groups of a prefix as signed numbers, from position `i` on. -/
def signedSum : Nat → List UInt8 → ℤ
  | _, [] => 0
  | i, byte :: rest => signedGroup byte (i * 7) + signedSum (i + 1) rest

theorem signedSum_nil (i : Nat) : signedSum i [] = 0 := rfl

theorem signedSum_cons (i : Nat) (byte : UInt8) (rest : List UInt8) :
    signedSum i (byte :: rest) = signedGroup byte (i * 7) + signedSum (i + 1) rest := rfl

/-- The length the bytes of a prefix stand for before it is reduced to a `size_t`. -/
def signedLength (bytes : List UInt8) : ℤ := signedSum 0 bytes

theorem shiftInt_cast (byte : UInt8) (shift : Nat) :
    ∃ k : ℤ, (shiftInt (lowSeven byte) shift : ℤ) = signedGroup byte shift + k * 2 ^ 64 := by
  simp only [shiftInt, signedGroup]
  split
  · exact ⟨0, by simp⟩
  · exact ⟨1, by push_cast; ring⟩

theorem groupSum_cast (i : Nat) (bytes : List UInt8) :
    ∃ k : ℤ, (groupSum i bytes : ℤ) = signedSum i bytes + k * 2 ^ 64 := by
  induction bytes generalizing i with
  | nil => exact ⟨0, by rw [groupSum_nil, signedSum_nil]; rfl⟩
  | cons byte rest ih =>
      obtain ⟨k, head⟩ := shiftInt_cast byte (i * 7)
      obtain ⟨k', tail⟩ := ih (i + 1)
      refine ⟨k + k', ?_⟩
      rw [groupSum_cons, signedSum_cons, Nat.cast_add, head, tail]
      ring

/-- **The value of a prefix is its signed length, reduced.** -/
theorem prefixLength_cast (bytes : List UInt8) :
    (prefixLength bytes : ℤ) = signedLength bytes % 2 ^ 64 := by
  obtain ⟨k, sum⟩ := groupSum_cast 0 bytes
  rw [prefixLength, wrap, Int.natCast_mod, sum, signedLength]
  simp

/-- Going on by a value that was read, and by `n` bytes more. -/
theorem wrap_add_prefixLength (i n : Nat) (bytes : List UInt8) :
    wrap (i + prefixLength bytes + n) = advance i (signedLength bytes + n) := by
  refine (advance_eq_of_cast ⟨-(signedLength bytes / 2 ^ 64), ?_⟩).symm
  rw [Nat.cast_add, Nat.cast_add, prefixLength_cast, Int.emod_def]
  ring

/-- Below the sign bit the groups are those of the numeral. -/
theorem signedSum_eq {i : Nat} {bytes : List UInt8} (short : i + bytes.length ≤ 4) :
    signedSum i bytes = groupSum i bytes := by
  induction bytes generalizing i with
  | nil => rfl
  | cons byte rest ih =>
      simp only [List.length_cons] at short
      have low : shiftInt (lowSeven byte) (i * 7) < 2 ^ 31 := by
        have digit : byte.toNat % 128 ≤ 127 := by omega
        rw [shiftInt_lowSeven byte (by omega)]
        calc byte.toNat % 128 * 128 ^ i ≤ 127 * 128 ^ 3 :=
              Nat.mul_le_mul digit (Nat.pow_le_pow_right (by decide) (by omega))
          _ < 2 ^ 31 := by decide
      have same : signedGroup byte (i * 7) = shiftInt (lowSeven byte) (i * 7) := by
        simp only [shiftInt, signedGroup] at low ⊢
        split at low <;> split <;> first | rfl | omega
      rw [signedSum_cons, groupSum_cons, ih (by omega), same, Nat.cast_add]

theorem signedLength_eq {bytes : List UInt8} (short : bytes.length ≤ 4) :
    signedLength bytes = prefixLength bytes := by
  rw [prefixLength_eq short, signedLength, signedSum_eq (by omega), groupSum_eq (by omega)]
  simp

/-- The fifth group is a multiple of `2 ^ 28` that an `int` holds. -/
theorem signedGroup_28 (byte : UInt8) :
    -2 ^ 31 ≤ signedGroup byte 28 ∧ signedGroup byte 28 ≤ 7 * 2 ^ 28 := by
  unfold signedGroup
  simp only [lowSeven_eq]
  split <;> omega

/-- A prefix of at most five bytes has the value of an `int`. -/
theorem signedLength_bounds {bytes : List UInt8} (short : bytes.length ≤ 5) :
    -2 ^ 31 ≤ signedLength bytes ∧ signedLength bytes < 2 ^ 31 := by
  rcases Nat.lt_or_ge bytes.length 5 with four | five
  · rw [signedLength_eq (by omega)]
    have low := @prefixLength_lt bytes (by omega)
    omega
  · obtain ⟨b₀, rest, rfl⟩ := List.exists_cons_of_length_eq_add_one (Nat.le_antisymm short five)
    obtain ⟨b₁, b₂, b₃, b₄, rfl⟩ := List.length_eq_four.mp
      (show rest.length = 4 by simp only [List.length_cons] at short five; omega)
    have four : [b₀, b₁, b₂, b₃].length ≤ 4 := Nat.le_refl 4
    have low := prefixLength_lt four
    have high := signedGroup_28 b₄
    have split : signedLength [b₀, b₁, b₂, b₃, b₄] =
        signedLength [b₀, b₁, b₂, b₃] + signedGroup b₄ 28 := by
      simp only [signedLength, signedSum_cons, signedSum_nil]
      ring
    rw [split, signedLength_eq four]
    omega

/-- A prefix that is not negative has the value of its signed length. -/
theorem prefixLength_of_nonneg {bytes : List UInt8} (short : bytes.length ≤ 5)
    (nonneg : 0 ≤ signedLength bytes) : (prefixLength bytes : ℤ) = signedLength bytes := by
  have bounds := signedLength_bounds short
  rw [prefixLength_cast]
  exact Int.emod_eq_of_lt nonneg (by omega)

/-- A prefix whose value is below the sign of a `size_t` is not negative. -/
theorem prefixLength_small {bytes : List UInt8} (short : bytes.length ≤ 5)
    (small : prefixLength bytes < 2 ^ 63) : prefixLength bytes < 2 ^ 31 := by
  have bounds := signedLength_bounds short
  have cast := prefixLength_cast bytes
  rcases lt_or_ge (signedLength bytes) 0 with negative | nonneg
  · rw [← Int.add_emod_right, Int.emod_eq_of_lt (by omega) (by omega)] at cast
    omega
  · have value := prefixLength_of_nonneg short nonneg
    omega

/-! ## Encoding -/

/-- `while (data.back() == 0x80 && data.size() > 1) data.pop_back()`, on the reversed
vector. -/
def popZeroGroups : List UInt8 → List UInt8
  | last :: next :: rest => if last = 0x80 then popZeroGroups (next :: rest) else last :: next :: rest
  | data => data

/-- `data.back() &= ~0x80`, on the reversed vector. -/
def clearTopBit : List UInt8 → List UInt8
  | last :: rest => (last &&& 0x7f) :: rest
  | [] => []

/-- `CMessageParser::encodeVarInt`. -/
def encodeVarInt (num : Nat) : List UInt8 :=
  let group (shift : Nat) : UInt8 := UInt8.ofNat (wrap (num * 2 ^ shift) / 2 ^ 25) ||| 0x80
  (clearTopBit (popZeroGroups [group 4, group 11, group 18, group 25])).reverse

theorem ofNat_or_0x80 (n : Nat) : UInt8.ofNat n ||| 0x80 = UInt8.ofNat (n % 128 + 128) := by
  apply UInt8.toNat_inj.mp
  rw [UInt8.toNat_or, UInt8.toNat_ofNat', UInt8.toNat_ofNat']
  change n % 2 ^ 8 ||| 128 = _
  have low : n % 128 < 2 ^ 7 := Nat.mod_lt _ (by decide)
  have set : 128 ||| n % 128 = 128 + n % 128 := (Nat.two_pow_add_eq_or_of_lt low 1).symm
  rcases Nat.mod_two_eq_zero_or_one (n / 128) with clear | already
  · rw [show n % 2 ^ 8 = n % 128 by omega, Nat.or_comm, set]
    omega
  · rw [show n % 2 ^ 8 = 128 + n % 128 by omega, ← set, Nat.or_comm, ← Nat.or_assoc, Nat.or_self,
      set]
    omega

theorem ofNat_add_and_0x7f {n : Nat} (small : n < 128) :
    UInt8.ofNat (n + 128) &&& 0x7f = UInt8.ofNat n := by
  apply UInt8.toNat_inj.mp
  rw [UInt8.toNat_and, UInt8.toNat_ofNat', UInt8.toNat_ofNat']
  refine (Nat.and_two_pow_sub_one_eq_mod _ 7).trans ?_
  omega

theorem ofNat_add_eq_0x80 {n : Nat} (small : n < 128) :
    UInt8.ofNat (n + 128) = 0x80 ↔ n = 0 := by
  rw [← UInt8.toNat_inj, UInt8.toNat_ofNat']
  simp only [UInt8.reduceToNat]
  omega

/-- A leading zero group is dropped. -/
theorem popZeroGroups_zero (next : UInt8) (rest : List UInt8) :
    popZeroGroups (UInt8.ofNat (0 + 128) :: next :: rest) = popZeroGroups (next :: rest) := rfl

/-- A group that is not zero stays, and so does the last group. -/
theorem clearTopBit_popZeroGroups {n : Nat} (small : n < 128) {rest : List UInt8}
    (stays : n ≠ 0 ∨ rest = []) :
    clearTopBit (popZeroGroups (UInt8.ofNat (n + 128) :: rest)) = UInt8.ofNat n :: rest := by
  have kept : popZeroGroups (UInt8.ofNat (n + 128) :: rest) = UInt8.ofNat (n + 128) :: rest := by
    cases rest with
    | nil => rfl
    | cons next rest =>
        have nonzero : n ≠ 0 := stays.resolve_right (List.cons_ne_nil _ _)
        rw [popZeroGroups, if_neg (mt (ofNat_add_eq_0x80 small).mp nonzero)]
  rw [kept, clearTopBit, ofNat_add_and_0x7f small]

/-- **Below `2 ^ 28` the encoder writes the shortest numeral.** -/
theorem encodeVarInt_eq {n : Nat} (small : n < 2 ^ 28) : encodeVarInt n = encode n := by
  have g₀ : wrap (n * 2 ^ 25) / 2 ^ 25 = n := by unfold wrap; omega
  have g₁ : wrap (n * 2 ^ 18) / 2 ^ 25 = n / 128 := by unfold wrap; omega
  have g₂ : wrap (n * 2 ^ 11) / 2 ^ 25 = n / 128 / 128 := by unfold wrap; omega
  have g₃ : wrap (n * 2 ^ 4) / 2 ^ 25 = n / 128 / 128 / 128 := by unfold wrap; omega
  simp only [encodeVarInt, g₀, g₁, g₂, g₃, ofNat_or_0x80]
  -- One case for each number of groups that are left.
  by_cases h₁ : n < 128
  · rw [show n / 128 = 0 by omega, popZeroGroups_zero, popZeroGroups_zero, popZeroGroups_zero,
      clearTopBit_popZeroGroups (Nat.mod_lt _ (by decide)) (.inr rfl),
      Nat.mod_eq_of_lt h₁, encode_of_lt h₁]
    rfl
  by_cases h₂ : n / 128 < 128
  · rw [show n / 128 / 128 = 0 by omega, popZeroGroups_zero, popZeroGroups_zero,
      clearTopBit_popZeroGroups (Nat.mod_lt _ (by decide)) (.inl (by omega)),
      Nat.mod_eq_of_lt h₂, encode_of_le (Nat.not_lt.mp h₁), encode_of_lt h₂]
    rfl
  by_cases h₃ : n / 128 / 128 < 128
  · rw [show n / 128 / 128 / 128 = 0 by omega, popZeroGroups_zero,
      clearTopBit_popZeroGroups (Nat.mod_lt _ (by decide)) (.inl (by omega)),
      Nat.mod_eq_of_lt h₃, encode_of_le (Nat.not_lt.mp h₁), encode_of_le (Nat.not_lt.mp h₂),
      encode_of_lt h₃]
    rfl
  · have h₄ : n / 128 / 128 / 128 < 128 := by omega
    rw [clearTopBit_popZeroGroups (Nat.mod_lt _ (by decide)) (.inl (by omega)),
      Nat.mod_eq_of_lt h₄, encode_of_le (Nat.not_lt.mp h₁), encode_of_le (Nat.not_lt.mp h₂),
      encode_of_le (Nat.not_lt.mp h₃), encode_of_lt h₄]
    rfl

/-- Of a length only the lower 28 bits are written. -/
theorem encodeVarInt_mod (n : Nat) : encodeVarInt n = encodeVarInt (n % 2 ^ 28) := by
  have group : ∀ shift ∈ [4, 11, 18, 25], UInt8.ofNat (wrap (n * 2 ^ shift) / 2 ^ 25) ||| 0x80 =
      UInt8.ofNat (wrap (n % 2 ^ 28 * 2 ^ shift) / 2 ^ 25) ||| 0x80 := by
    intro shift listed
    rw [ofNat_or_0x80, ofNat_or_0x80]
    simp only [wrap]
    congr 2
    simp only [List.mem_cons, List.not_mem_nil, or_false] at listed
    rcases listed with rfl | rfl | rfl | rfl <;> omega
  simp only [encodeVarInt, group 4 (by decide), group 11 (by decide), group 18 (by decide),
    group 25 (by decide)]

theorem length_encodeVarInt {n : Nat} (small : n < 2 ^ 28) : (encodeVarInt n).length ≤ 4 := by
  rw [encodeVarInt_eq small]
  exact length_encode_le (by decide) (by simpa using small)

/-- **An encoded length is read back, wherever it lies.** -/
theorem parseVarInt_encodeVarInt {v : View} {start len n : Nat} (small : n < 2 ^ 28)
    (holds : v.Holds start (encodeVarInt n)) (inside : (encodeVarInt n).length ≤ len) :
    parseVarInt v start len = .ok (n, (encodeVarInt n).length) := by
  have short := length_encodeVarInt small
  have numeral : Numeral (encodeVarInt n) := by
    rw [encodeVarInt_eq small]
    exact numeral_encode n
  rw [parseVarInt_of_holds holds (.of_numeral numeral inside) (by omega), prefixLength_eq short]
  rw [encodeVarInt_eq small, value_encode]

end Hyprwire.Wire
