import Mathlib.Algebra.Group.Nat.Defs
import Mathlib.Data.List.Basic

/-!
# Bytes, views and faults

A C++ function that reads a byte buffer does one of three things: it returns, it
throws, or it leaves defined behaviour. `Fault` names the ways of not returning,
and a computation is a value of `Except Fault`.

A buffer is read through a `View`: a size, and the byte found at each index. The
checked read `checkedAt` compares the index with the size and throws, as `at()`
does. The unchecked read `rawAt` does not look at the size, as `operator[]`,
`memcpy` and the iterators do not, and faults when nothing is mapped at the index.
`ByteVec.strict` maps nothing outside the vector, so that with it a run that
returns has read inside the vector only. `ByteVec.viewIn` puts arbitrary memory
around the vector.

Sizes and indices are natural numbers below `2 ^ 64`; `wrap` is the reduction the
machine makes after an addition and `wrapSub` its subtraction.
-/

set_option autoImplicit false

namespace Hyprwire.Cpp

/-! ## Faults -/

/-- The ways a computation does not return: the exceptions of the standard
library, and undefined behaviour. -/
inductive Fault where
  /-- `std::out_of_range` -/
  | outOfRange
  /-- `std::length_error` -/
  | lengthError
  /-- `std::bad_alloc` -/
  | badAlloc
  /-- an access outside every object -/
  | outOfBounds
  /-- a shift by the width of the type or more -/
  | badShift
  /-- a null pointer followed -/
  | nullDeref
  /-- a variadic argument read at another type than it was passed at -/
  | badVararg
  /-- no stack left for a nested call -/
  | stackOverflow
  deriving DecidableEq, Repr

@[simp] theorem ok_bind {α β : Type} (a : α) (f : α → Except Fault β) :
    (Except.ok a >>= f) = f a := rfl

/-- A run that goes on from what has been read. -/
theorem bind_of_ok {α β : Type} {run : Except Fault α} {a : α} (ok : run = .ok a)
    (f : α → Except Fault β) : (run >>= f) = f a := by
  rw [ok, ok_bind]

@[simp] theorem error_bind {α β : Type} (e : Fault) (f : α → Except Fault β) :
    ((Except.error e : Except Fault α) >>= f) = .error e := rfl

@[simp] theorem pure_eq_ok {α : Type} (a : α) : (pure a : Except Fault α) = .ok a := rfl

@[simp] theorem throw_eq_error {α : Type} (e : Fault) :
    (throw e : Except Fault α) = .error e := rfl

/-- A bind returns exactly when both of its parts do. -/
theorem bind_eq_ok {α β : Type} {x : Except Fault α} {f : α → Except Fault β} {b : β} :
    (x >>= f) = .ok b ↔ ∃ a, x = .ok a ∧ f a = .ok b := by
  cases x with
  | ok a => simp
  | error e => simp

/-- A bind faults exactly when its first part does, or returns and the second part
faults. -/
theorem bind_eq_error {α β : Type} {x : Except Fault α} {f : α → Except Fault β} {e : Fault} :
    (x >>= f) = .error e ↔ x = .error e ∨ ∃ a, x = .ok a ∧ f a = .error e := by
  cases x with
  | ok a => simp
  | error e' => simp

theorem map_eq_ok {α β : Type} {x : Except Fault α} {f : α → β} {b : β} :
    x.map f = .ok b ↔ ∃ a, x = .ok a ∧ f a = b := by
  cases x with
  | ok a => simp [Except.map]
  | error e => simp [Except.map]

/-- `catch (std::out_of_range&)`: the handler's value replaces that exception, and
every other fault goes on. -/
def catchOutOfRange {α : Type} (handler : α) : Except Fault α → Except Fault α
  | .error .outOfRange => .ok handler
  | run => run

@[simp] theorem catchOutOfRange_ok {α : Type} (handler a : α) :
    catchOutOfRange handler (.ok a) = .ok a := rfl

@[simp] theorem catchOutOfRange_outOfRange {α : Type} (handler : α) :
    catchOutOfRange handler (.error .outOfRange) = .ok handler := rfl

@[simp] theorem catchOutOfRange_outOfBounds {α : Type} (handler : α) :
    catchOutOfRange handler (.error .outOfBounds) = .error .outOfBounds := rfl

/-! ## Sizes -/

/-- The reduction of a sum to a `size_t`. -/
def wrap (n : Nat) : Nat := n % 2 ^ 64

/-- The difference of two sizes as a `size_t`. -/
def wrapSub (m n : Nat) : Nat := wrap (m + (2 ^ 64 - n % 2 ^ 64))

theorem wrap_of_lt {n : Nat} (small : n < 2 ^ 64) : wrap n = n := Nat.mod_eq_of_lt small

theorem wrapSub_of_le {m n : Nat} (le : n ≤ m) (small : m < 2 ^ 64) : wrapSub m n = m - n := by
  unfold wrapSub wrap
  omega

/-! ## Views -/

/-- A range of memory: its size, and the byte at each index from its start. An index
at which nothing is mapped has no byte. -/
structure View where
  size : Nat
  read : Nat → Option UInt8

namespace View

/-- `v.at(i)`: the byte, or `std::out_of_range`. -/
def checkedAt (v : View) (i : Nat) : Except Fault UInt8 :=
  if i < v.size then
    match v.read i with
    | some byte => .ok byte
    | none => .error .outOfBounds
  else
    .error .outOfRange

/-- `v[i]`: the byte at the index, wherever it lies. -/
def rawAt (v : View) (i : Nat) : Except Fault UInt8 :=
  match v.read i with
  | some byte => .ok byte
  | none => .error .outOfBounds

/-- The view that traps every read outside its own size. -/
def guarded (v : View) : View where
  size := v.size
  read i := if i < v.size then v.read i else none

/-- `std::span{v.begin() + start, size}`. -/
def span (v : View) (start size : Nat) : View where
  size := size
  read i := v.read (wrap (start + i))

/-- The bytes of a list lie in the view from an index on. -/
def Holds (v : View) (start : Nat) (bytes : List UInt8) : Prop :=
  ∀ k (within : k < bytes.length), v.read (wrap (start + k)) = some bytes[k]

theorem holds_nil (v : View) (start : Nat) : v.Holds start [] :=
  fun _ within => absurd within (Nat.not_lt_zero _)

theorem holds_cons {v : View} {start : Nat} {byte : UInt8} {rest : List UInt8} :
    v.Holds start (byte :: rest) ↔
      v.read (wrap start) = some byte ∧ v.Holds (start + 1) rest := by
  constructor
  · intro holds
    refine ⟨holds 0 (Nat.zero_lt_succ _), fun k within => ?_⟩
    have next := holds (k + 1) (Nat.succ_lt_succ within)
    rwa [← Nat.add_assoc, Nat.add_right_comm] at next
  · rintro ⟨head, tail⟩ k within
    cases k with
    | zero => exact head
    | succ k =>
        have next := tail k (Nat.lt_of_succ_lt_succ within)
        rwa [Nat.add_right_comm, Nat.add_assoc] at next

theorem holds_append {v : View} {start : Nat} {first second : List UInt8} :
    v.Holds start (first ++ second) ↔
      v.Holds start first ∧ v.Holds (start + first.length) second := by
  induction first generalizing start with
  | nil => simp [holds_nil]
  | cons byte rest ih =>
      rw [List.cons_append, holds_cons, holds_cons, ih, List.length_cons, and_assoc,
        Nat.add_right_comm start 1, Nat.add_assoc start]

theorem rawAt_of_none {v : View} {i : Nat} (none : v.read i = none) :
    v.rawAt i = .error .outOfBounds := by
  rw [rawAt, none]

/-- A raw read returns the byte that is mapped at the index. -/
theorem rawAt_eq_ok {v : View} {i : Nat} {byte : UInt8} :
    v.rawAt i = .ok byte ↔ v.read i = some byte := by
  cases here : v.read i with
  | none => simp [rawAt_of_none here]
  | some other => simp [rawAt, here]

theorem rawAt_eq_error {v : View} {i : Nat} {fault : Fault} (failed : v.rawAt i = .error fault) :
    fault = .outOfBounds := by
  cases here : v.read i with
  | none => exact Except.error.inj (failed.symm.trans (rawAt_of_none here))
  | some byte => cases failed.symm.trans (rawAt_eq_ok.mpr here)

theorem rawAt_of_holds {v : View} {start : Nat} {byte : UInt8} {rest : List UInt8}
    (holds : v.Holds start (byte :: rest)) : v.rawAt (wrap start) = .ok byte :=
  rawAt_eq_ok.mpr (holds_cons.mp holds).1

theorem checkedAt_of_holds {v : View} {start : Nat} {byte : UInt8} {rest : List UInt8}
    (holds : v.Holds start (byte :: rest)) (inside : wrap start < v.size) :
    v.checkedAt (wrap start) = .ok byte := by
  simp only [checkedAt, (holds_cons.mp holds).1, if_pos inside]

/-- What lies inside a view is read under its guard. -/
theorem holds_guarded {v : View} {start : Nat} {bytes : List UInt8} (holds : v.Holds start bytes)
    (inside : start + bytes.length ≤ v.size) (small : v.size < 2 ^ 64) :
    v.guarded.Holds start bytes := by
  intro k within
  have index : wrap (start + k) < v.size := by
    rw [wrap_of_lt (by omega)]
    omega
  exact (if_pos index).trans (holds k within)

end View

/-- A `std::vector<uint8_t>`. Its length stays below its `max_size()`. -/
structure ByteVec where
  data : List UInt8
  length_lt : data.length < 2 ^ 63

namespace ByteVec

/-- The vector in memory that holds `outside` everywhere else. -/
def viewIn (v : ByteVec) (outside : Nat → Option UInt8) : View where
  size := v.data.length
  read i := if i < v.data.length then v.data[i]? else outside i

/-- The vector with nothing around it. -/
def strict (v : ByteVec) : View where
  size := v.data.length
  read i := v.data[i]?

@[simp] theorem size_strict (v : ByteVec) : v.strict.size = v.data.length := rfl

@[simp] theorem read_strict (v : ByteVec) (i : Nat) : v.strict.read i = v.data[i]? := rfl

@[simp] theorem size_viewIn (v : ByteVec) (outside : Nat → Option UInt8) :
    (v.viewIn outside).size = v.data.length := rfl

/-- The strict view is the vector in empty memory. -/
theorem viewIn_none (v : ByteVec) : v.viewIn (fun _ => none) = v.strict := by
  have reads : (v.viewIn fun _ => none).read = v.strict.read := by
    funext i
    simp only [viewIn, read_strict]
    split
    · rfl
    · next outside => exact (List.getElem?_eq_none (Nat.le_of_not_lt outside)).symm
  simp only [viewIn, strict] at reads ⊢
  rw [reads]

end ByteVec

/-- What lies in a span lies in the view. -/
theorem View.holds_span {v : View} {start size i : Nat} {bytes : List UInt8} :
    (v.span start size).Holds i bytes ↔ v.Holds (start + i) bytes := by
  have same : ∀ k, wrap (start + wrap (i + k)) = wrap (start + i + k) := by
    intro k
    simp only [wrap, Nat.add_mod_mod, Nat.add_assoc]
  simp only [Holds, span, same]

/-- A part of a vector lies in its strict view. -/
theorem ByteVec.holds_strict {v : ByteVec} {before bytes after : List UInt8}
    (split : v.data = before ++ bytes ++ after) : v.strict.Holds before.length bytes := by
  intro k within
  have bound := v.length_lt
  have total := congrArg List.length split
  simp only [List.length_append] at total
  have index : before.length + k < (before ++ bytes).length := by
    rw [List.length_append]
    omega
  rw [read_strict, wrap_of_lt (by omega), split, List.getElem?_append_left index,
    List.getElem?_append_right (Nat.le_add_right _ _), Nat.add_sub_cancel_left,
    List.getElem?_eq_getElem within]

/-! ## Blocks and integers -/

/-- The bytes of a `std::string`. -/
abbrev Str := List UInt8

namespace View

/-- `n` bytes read from `i` on, as a copy of a block does. -/
def rawBlock (v : View) (i : Nat) : Nat → Except Fault (List UInt8)
  | 0 => .ok []
  | n + 1 => do
      let byte ← v.rawAt (wrap i)
      let rest ← v.rawBlock (i + 1) n
      return byte :: rest

theorem rawBlock_succ (v : View) (i n : Nat) :
    v.rawBlock i (n + 1) =
      v.rawAt (wrap i) >>= fun byte => v.rawBlock (i + 1) n >>= fun rest => .ok (byte :: rest) := rfl

end View

/-- The integer four bytes hold, the least significant first. -/
def u32OfBytes (b₀ b₁ b₂ b₃ : UInt8) : UInt32 :=
  UInt32.ofNat
    (b₀.toNat + 256 * b₁.toNat + 65536 * b₂.toNat + 16777216 * b₃.toNat)

/-- The four bytes of an integer, the least significant first. -/
def u32Bytes (value : UInt32) : List UInt8 :=
  [UInt8.ofNat value.toNat, UInt8.ofNat (value.toNat / 256),
    UInt8.ofNat (value.toNat / 65536), UInt8.ofNat (value.toNat / 16777216)]

namespace View

/-- `memcpy(&value, &v[i], 4)`. -/
def rawU32 (v : View) (i : Nat) : Except Fault UInt32 := do
  let b₀ ← v.rawAt (wrap i)
  let b₁ ← v.rawAt (wrap (i + 1))
  let b₂ ← v.rawAt (wrap (i + 2))
  let b₃ ← v.rawAt (wrap (i + 3))
  return u32OfBytes b₀ b₁ b₂ b₃

/-- `memcpy(&value, &v.at(i), 4)`: only the first index is checked. -/
def u32At (v : View) (i : Nat) : Except Fault UInt32 := do
  let _ ← v.checkedAt i
  v.rawU32 i

end View

theorem View.rawBlock_of_holds {v : View} {start : Nat} {bytes : List UInt8}
    (holds : v.Holds start bytes) : v.rawBlock start bytes.length = .ok bytes := by
  induction bytes generalizing start with
  | nil => rfl
  | cons byte rest ih =>
      rw [List.length_cons, rawBlock_succ, rawAt_of_holds holds, ok_bind,
        ih (holds_cons.mp holds).2, ok_bind]

/-- A block that was read lies in the view. -/
theorem View.holds_of_rawBlock {v : View} {start n : Nat} {bytes : List UInt8}
    (read : v.rawBlock start n = .ok bytes) : v.Holds start bytes := by
  induction n generalizing start bytes with
  | zero =>
      cases read
      exact holds_nil _ _
  | succ n ih =>
      obtain ⟨byte, first, rest⟩ := bind_eq_ok.mp read
      obtain ⟨bytes, more, same⟩ := bind_eq_ok.mp rest
      cases same
      exact holds_cons.mpr ⟨rawAt_eq_ok.mp first, ih more⟩

/-- What the allocator grants. Whether a string of some length, or the storage of
some number of bytes of a vector, is to be had is not decided by the program; short
strings and empty vectors need no storage. -/
structure Heap where
  string : Nat → Bool
  vector : Nat → Bool
  short_string : ∀ n ≤ 15, string n = true
  empty_vector : vector 0 = true

/-- The heap from which everything is to be had. -/
def Heap.ample : Heap where
  string _ := true
  vector _ := true
  short_string _ _ := rfl
  empty_vector := rfl

/-- `std::string{std::string_view{&v[i], n}}`: the length is compared with
`max_size()`, the storage is taken, and the bytes are copied. -/
def View.copyString (heap : Heap) (v : View) (i n : Nat) : Except Fault (List UInt8) :=
  if 2 ^ 63 - 2 < n then
    .error .lengthError
  else if heap.string n then
    v.rawBlock i n
  else
    .error .badAlloc

/-- `std::vector<T>::resize(count)` with elements of `width` bytes. -/
def resize (heap : Heap) (count width : Nat) : Except Fault Unit :=
  if (2 ^ 63 - 1) / width < count then
    .error .lengthError
  else if heap.vector (count * width) then
    .ok ()
  else
    .error .badAlloc

/-- A string that lies in the view is copied. -/
theorem View.copyString_of_holds {v : View} {start : Nat} {bytes : List UInt8}
    (holds : v.Holds start bytes) (short : bytes.length ≤ 2 ^ 63 - 2) :
    v.copyString .ample start bytes.length = .ok bytes := by
  rw [copyString, if_neg (Nat.not_lt.mpr short), rawBlock_of_holds holds]
  rfl

@[simp] theorem length_u32Bytes (value : UInt32) : (u32Bytes value).length = 4 := rfl

/-- An integer is read back from its bytes. -/
theorem u32OfBytes_u32Bytes (value : UInt32) :
    u32OfBytes (UInt8.ofNat value.toNat) (UInt8.ofNat (value.toNat / 256))
      (UInt8.ofNat (value.toNat / 65536)) (UInt8.ofNat (value.toNat / 16777216)) = value := by
  have bound := value.toNat_lt
  apply UInt32.toNat_inj.mp
  simp only [u32OfBytes, UInt8.toNat_ofNat', UInt32.toNat_ofNat']
  omega

theorem View.rawU32_of_holds {v : View} {start : Nat} {value : UInt32} {rest : List UInt8}
    (holds : v.Holds start (u32Bytes value ++ rest)) : v.rawU32 start = .ok value := by
  have bytes := (holds_append.mp holds).1
  have h₀ := rawAt_of_holds bytes
  have h₁ := rawAt_of_holds (holds_cons.mp bytes).2
  have h₂ := rawAt_of_holds (holds_cons.mp (holds_cons.mp bytes).2).2
  have h₃ := rawAt_of_holds (holds_cons.mp (holds_cons.mp (holds_cons.mp bytes).2).2).2
  simp only [rawU32, h₀, h₁, h₂, h₃, ok_bind, u32OfBytes_u32Bytes, pure_eq_ok]

/-- A checked read below the size of a view that is no larger than a vector. -/
theorem View.checkedAt_inside {v : View} {i : Nat} {byte : UInt8} {rest : List UInt8}
    (holds : v.Holds i (byte :: rest)) (inside : i < v.size) (small : v.size < 2 ^ 63) :
    v.checkedAt i = .ok byte := by
  have reduced : wrap i = i := wrap_of_lt (by omega)
  have read := checkedAt_of_holds holds (by omega)
  rwa [reduced] at read

theorem View.u32At_inside {v : View} {i : Nat} {value : UInt32} (holds : v.Holds i (u32Bytes value))
    (inside : i < v.size) (small : v.size < 2 ^ 63) : v.u32At i = .ok value := by
  rw [u32At, checkedAt_inside holds inside small, ok_bind]
  rw [← List.append_nil (u32Bytes value)] at holds
  exact rawU32_of_holds holds

/-- Four bytes are the bytes of the integer they hold. -/
theorem u32Bytes_u32OfBytes (b₀ b₁ b₂ b₃ : UInt8) :
    u32Bytes (u32OfBytes b₀ b₁ b₂ b₃) = [b₀, b₁, b₂, b₃] := by
  have h₀ := b₀.toNat_lt
  have h₁ := b₁.toNat_lt
  have h₂ := b₂.toNat_lt
  have h₃ := b₃.toNat_lt
  have value : (u32OfBytes b₀ b₁ b₂ b₃).toNat =
      b₀.toNat + 256 * b₁.toNat + 65536 * b₂.toNat + 16777216 * b₃.toNat := by
    rw [u32OfBytes, UInt32.toNat_ofNat']
    exact Nat.mod_eq_of_lt (by omega)
  simp only [u32Bytes, value, List.cons.injEq, and_true]
  refine ⟨?_, ?_, ?_, ?_⟩ <;> apply UInt8.toNat_inj.mp <;> simp only [UInt8.toNat_ofNat'] <;> omega

end Hyprwire.Cpp
