import Hyprwire.Cpp.Loop
import Hyprwire.Cpp.Memory

/-!
# Views that read less

A view is below another one when it has its size and, where it has bytes, its bytes. What is
computed of the lower view is computed of the upper one as well, unless it reads where the
lower view has nothing (`Agrees`). This is closed under everything that a function is made of
(`Agrees.bind`, `Agrees.ite`, `agrees_loop`), so that a function that stays inside a view
depends on the bytes of that view only.

A view is at the front of another one when it has its first bytes and nothing else. What is
read of it is read of the longer view as well.
-/

set_option autoImplicit false

namespace Hyprwire.Cpp

/-! ## Agreement -/

/-- The view `u` has the size of `v`, and its bytes where it has any. -/
structure View.Below (u v : View) : Prop where
  size : u.size = v.size
  read : ∀ i byte, u.read i = some byte → v.read i = some byte

theorem View.guarded_below (v : View) : v.guarded.Below v where
  size := rfl
  read := by
    intro i byte here
    rw [View.guarded] at here
    simp only at here
    split at here
    · exact here
    · cases here

/-- Two runs of which the first leaves its view, or that are the same. -/
def Agrees {α : Type} (x y : Except Fault α) : Prop := x = .error .outOfBounds ∨ x = y

namespace Agrees

variable {α β : Type} {x y : Except Fault α}

theorem refl (x : Except Fault α) : Agrees x x := .inr rfl

theorem bind (agrees : Agrees x y) {f g : α → Except Fault β} (each : ∀ a, Agrees (f a) (g a)) :
    Agrees (x >>= f) (y >>= g) := by
  rcases agrees with outside | rfl
  · subst outside
    exact .inl rfl
  · cases x with
    | error fault => exact refl _
    | ok a => exact each a

theorem ite {c : Prop} [Decidable c] {x' y' : Except Fault α} (first : Agrees x y)
    (second : Agrees x' y') : Agrees (if c then x else x') (if c then y else y') := by
  split
  · exact first
  · exact second

end Agrees

/-- Two turns of which the first leaves its view, or that are the same. -/
def AgreesTurn {σ α : Type} (x y : Option (Turn σ (Except Fault α))) : Prop :=
  x = some (.leave (.error .outOfBounds)) ∨ x = y

/-- Two loops whose turns agree leave alike. -/
theorem agrees_loop {σ α : Type} {turn turn' : σ → Option (Turn σ (Except Fault α))}
    (each : ∀ s, AgreesTurn (turn s) (turn' s)) (turns : Nat) (s : σ) :
    loop turn turns s = some (.error .outOfBounds) ∨ loop turn turns s = loop turn' turns s := by
  induction turns generalizing s with
  | zero => exact .inr rfl
  | succ turns ih =>
      rw [loop, loop]
      rcases each s with outside | same
      · rw [outside]
        exact .inl rfl
      · rw [same]
        split
        · exact .inr rfl
        · exact ih _
        · exact .inr rfl

/-! ## Reading -/

namespace View.Below

variable {u v : View}

theorem rawAt (below : u.Below v) (i : Nat) : Agrees (u.rawAt i) (v.rawAt i) := by
  cases here : u.read i with
  | none => exact .inl (View.rawAt_of_none here)
  | some byte =>
      rw [View.rawAt_eq_ok.mpr here, View.rawAt_eq_ok.mpr (below.read i byte here)]
      exact .refl _

theorem rawU32 (below : u.Below v) (i : Nat) : Agrees (u.rawU32 i) (v.rawU32 i) := by
  refine (below.rawAt _).bind fun b₀ => ?_
  refine (below.rawAt _).bind fun b₁ => ?_
  refine (below.rawAt _).bind fun b₂ => ?_
  exact (below.rawAt _).bind fun b₃ => .refl _

theorem rawBlock (below : u.Below v) (i n : Nat) : Agrees (u.rawBlock i n) (v.rawBlock i n) := by
  induction n generalizing i with
  | zero => exact .refl _
  | succ n ih =>
      refine (below.rawAt _).bind fun byte => ?_
      exact (ih (i + 1)).bind fun rest => .refl _

theorem copyString (below : u.Below v) (heap : Heap) (i n : Nat) :
    Agrees (u.copyString heap i n) (v.copyString heap i n) :=
  .ite (.refl _) (.ite (below.rawBlock i n) (.refl _))

end View.Below

/-! ## Views that end earlier -/

/-- The view `u` has the first bytes of `v`, and nothing behind them. -/
structure View.Front (u v : View) : Prop where
  size : u.size ≤ v.size
  read : ∀ i byte, u.read i = some byte → i < u.size ∧ v.read i = some byte

/-- A vector that starts another one is at its front. -/
theorem ByteVec.front {u v : ByteVec} (starts : u.data <+: v.data) : u.strict.Front v.strict where
  size := starts.length_le
  read := by
    intro i byte here
    obtain ⟨within, same⟩ := List.getElem?_eq_some_iff.mp here
    obtain ⟨rest, all⟩ := starts
    refine ⟨within, ?_⟩
    rw [ByteVec.read_strict, ← all, List.getElem?_append_left within, List.getElem?_eq_getElem within,
      same]

namespace View.Front

variable {u v : View} {i : Nat}

theorem checkedAt (front : u.Front v) {byte : UInt8} (read : u.checkedAt i = .ok byte) :
    v.checkedAt i = .ok byte := by
  rw [View.checkedAt] at read
  split at read
  · next inside =>
    split at read
    · next here =>
      cases read
      rw [View.checkedAt, if_pos (Nat.lt_of_lt_of_le inside front.size), (front.read i byte here).2]
    · cases read
  · cases read

theorem rawAt (front : u.Front v) {byte : UInt8} (read : u.rawAt i = .ok byte) :
    v.rawAt i = .ok byte :=
  View.rawAt_eq_ok.mpr (front.read i byte (View.rawAt_eq_ok.mp read)).2

theorem holds (front : u.Front v) {bytes : List UInt8} (held : u.Holds i bytes) :
    v.Holds i bytes :=
  fun k within => (front.read _ _ (held k within)).2

theorem u32At (front : u.Front v) {value : UInt32} (read : u.u32At i = .ok value) :
    v.u32At i = .ok value := by
  obtain ⟨byte, first, rest⟩ := bind_eq_ok.mp read
  obtain ⟨b₀, h₀, rest⟩ := bind_eq_ok.mp rest
  obtain ⟨b₁, h₁, rest⟩ := bind_eq_ok.mp rest
  obtain ⟨b₂, h₂, rest⟩ := bind_eq_ok.mp rest
  obtain ⟨b₃, h₃, rest⟩ := bind_eq_ok.mp rest
  rw [View.u32At, front.checkedAt first, ok_bind, rawU32, front.rawAt h₀, ok_bind, front.rawAt h₁,
    ok_bind, front.rawAt h₂, ok_bind, front.rawAt h₃, ok_bind]
  exact rest

theorem rawBlock (front : u.Front v) {n : Nat} {bytes : List UInt8}
    (read : u.rawBlock i n = .ok bytes) : v.rawBlock i n = .ok bytes := by
  induction n generalizing i bytes with
  | zero => exact read
  | succ n ih =>
      obtain ⟨byte, first, rest⟩ := bind_eq_ok.mp read
      obtain ⟨others, more, same⟩ := bind_eq_ok.mp rest
      rw [View.rawBlock_succ, front.rawAt first, ok_bind, ih more]
      exact same

theorem copyString (front : u.Front v) {heap : Heap} {n : Nat} {string : List UInt8}
    (copied : u.copyString heap i n = .ok string) : v.copyString heap i n = .ok string := by
  rw [View.copyString] at copied ⊢
  split at copied
  · cases copied
  · next short =>
    rw [if_neg short]
    split at copied
    · next room =>
      rw [if_pos room]
      exact front.rawBlock copied
    · cases copied

/-- What lies at the front lies before its end. -/
theorem inside (front : u.Front v) {bytes : List UInt8} (held : u.Holds i bytes)
    (some_ : bytes ≠ []) (before : i + bytes.length < 2 ^ 64) :
    i + bytes.length ≤ u.size := by
  have length := List.length_pos_of_ne_nil some_
  have last := (front.read _ _ (held (bytes.length - 1) (by omega))).1
  rw [wrap_of_lt (by omega)] at last
  omega

end View.Front

end Hyprwire.Cpp
