import Mathlib.Data.Nat.Log
import Mathlib.Tactic.Ring

/-!
# Base-128 numerals

A number is written with seven bits in a byte, the least significant first. Every
byte but the last has its top bit set.

`Numeral` says that a list of bytes is one such numeral, `value` is the number it
stands for, and `encode` is its shortest numeral.

* `numeral_encode`, `value_encode`: the encoding of a number is a numeral of it.
* `value_lt`: a numeral of `k` bytes stands for a number below `128 ^ k`.
* `length_encode_le`: a number below `128 ^ k` is encoded in at most `k` bytes.
-/

set_option autoImplicit false

namespace Hyprwire.Cpp.Base128

/-- The top bit says that the numeral goes on. -/
def Continues (byte : UInt8) : Prop := 128 ≤ byte.toNat

instance (byte : UInt8) : Decidable (Continues byte) :=
  inferInstanceAs (Decidable (128 ≤ byte.toNat))

/-- The number a list of bytes stands for. -/
def value : List UInt8 → Nat
  | [] => 0
  | byte :: rest => byte.toNat % 128 + 128 * value rest

/-- A list of bytes that is one numeral: its last byte is the only one that does
not continue. -/
def Numeral : List UInt8 → Prop
  | [] => False
  | [byte] => ¬ Continues byte
  | byte :: rest => Continues byte ∧ Numeral rest

theorem value_nil : value [] = 0 := rfl

theorem value_cons (byte : UInt8) (rest : List UInt8) :
    value (byte :: rest) = byte.toNat % 128 + 128 * value rest := rfl

theorem numeral_singleton {byte : UInt8} : Numeral [byte] ↔ ¬ Continues byte := Iff.rfl

theorem Numeral.ne_nil {bytes : List UInt8} (numeral : Numeral bytes) : bytes ≠ [] := by
  rintro rfl
  exact numeral

theorem Numeral.length_pos {bytes : List UInt8} (numeral : Numeral bytes) : 0 < bytes.length :=
  List.length_pos_iff.mpr numeral.ne_nil

theorem Numeral.cons {byte : UInt8} {rest : List UInt8} (continues : Continues byte)
    (numeral : Numeral rest) : Numeral (byte :: rest) := by
  cases rest with
  | nil => exact numeral.elim
  | cons next rest => exact ⟨continues, numeral⟩

/-- A numeral of `k` bytes stands for a number below `128 ^ k`. -/
theorem value_lt (bytes : List UInt8) : value bytes < 128 ^ bytes.length := by
  induction bytes with
  | nil => exact Nat.one_pos
  | cons byte rest ih =>
      have low : byte.toNat % 128 < 128 := Nat.mod_lt _ (by decide)
      rw [List.length_cons, Nat.pow_succ, value_cons]
      omega

/-- The shortest numeral of a number. -/
def encode (n : Nat) : List UInt8 :=
  if n < 128 then [UInt8.ofNat n] else UInt8.ofNat (n % 128 + 128) :: encode (n / 128)
termination_by n

theorem encode_eq (n : Nat) :
    encode n =
      if n < 128 then [UInt8.ofNat n] else UInt8.ofNat (n % 128 + 128) :: encode (n / 128) := by
  rw [encode]

theorem encode_of_lt {n : Nat} (small : n < 128) : encode n = [UInt8.ofNat n] :=
  (encode_eq n).trans (if_pos small)

theorem encode_of_le {n : Nat} (large : 128 ≤ n) :
    encode n = UInt8.ofNat (n % 128 + 128) :: encode (n / 128) :=
  (encode_eq n).trans (if_neg (Nat.not_lt.mpr large))

/-- Induction on the groups of seven bits. -/
theorem group_induction {motive : Nat → Prop} (small : ∀ n < 128, motive n)
    (large : ∀ n, 128 ≤ n → motive (n / 128) → motive n) (n : Nat) : motive n := by
  induction n using Nat.strong_induction_on with
  | _ n ih =>
    rcases Nat.lt_or_ge n 128 with low | high
    · exact small n low
    · exact large n high (ih (n / 128) (by omega))

theorem numeral_encode (n : Nat) : Numeral (encode n) := by
  induction n using group_induction with
  | small n low =>
      rw [encode_of_lt low, numeral_singleton, Continues, UInt8.toNat_ofNat']
      omega
  | large n high ih =>
      rw [encode_of_le high]
      refine .cons ?_ ih
      rw [Continues, UInt8.toNat_ofNat']
      omega

theorem value_encode (n : Nat) : value (encode n) = n := by
  induction n using group_induction with
  | small n low =>
      rw [encode_of_lt low, value_cons, value_nil, UInt8.toNat_ofNat']
      omega
  | large n high ih =>
      rw [encode_of_le high, value_cons, ih, UInt8.toNat_ofNat']
      omega

/-- A number below `128 ^ k` is encoded in at most `k` bytes. -/
theorem length_encode_le {n k : Nat} (positive : 0 < k) (small : n < 128 ^ k) :
    (encode n).length ≤ k := by
  induction k generalizing n with
  | zero => exact absurd positive (Nat.lt_irrefl 0)
  | succ k ih =>
      by_cases low : n < 128
      · rw [encode_of_lt low, List.length_singleton]
        omega
      · rw [encode_of_le (Nat.not_lt.mp low), List.length_cons]
        have more : 0 < k := by
          rcases Nat.eq_zero_or_pos k with rfl | more
          · exact absurd small (by simpa using low)
          · exact more
        have smaller : n / 128 < 128 ^ k := by
          rw [Nat.pow_succ] at small
          exact Nat.div_lt_of_lt_mul (by omega)
        exact Nat.succ_le_succ (ih more smaller)

end Hyprwire.Cpp.Base128
