import Hyprwire.Cpp.Memory

/-!
# Code that is called back

A library calls functions of its application, and these call the library again. Such
a function is a `Code`: it asks for one operation after the other, and what it asks
for next can depend on every answer. `Code.run` performs the operations on a state.

The operations can themselves call back. `exec` nests such calls up to a number of
frames, after which the stack is full.

The rules: what every operation keeps is kept by the code (`exec_keeps`), and code
run from two states that the operations do not tell apart does the same from both
(`exec_alike`).
-/

set_option autoImplicit false

namespace Hyprwire.Cpp

/-- A function that asks for operations. -/
inductive Code (ω : Type) (ρ : ω → Type) where
  | done
  | ask (request : ω) (next : ρ request → Code ω ρ)

variable {ω : Type} {ρ : ω → Type} {σ : Type}

/-- What it is to perform an operation: an answer, and the state after it. -/
abbrev Perform (ω : Type) (ρ : ω → Type) (σ : Type) :=
  (request : ω) → σ → Except Fault (ρ request × σ)

/-- The operations of a function, one after the other. -/
def Code.run (perform : Perform ω ρ σ) : Code ω ρ → σ → Except Fault σ
  | .done, s => .ok s
  | .ask request next, s =>
      match perform request s with
      | .error fault => .error fault
      | .ok (answer, s) => (next answer).run perform s

/-- Code run with a number of frames left on the stack. The operations are given the
run of code that they call back. -/
def exec (perform : (Code ω ρ → σ → Except Fault σ) → Perform ω ρ σ) :
    Nat → Code ω ρ → σ → Except Fault σ
  | 0, _, _ => .error .stackOverflow
  | frames + 1, code, s => code.run (perform (exec perform frames)) s

/-! ## What code keeps -/

/-- A step from a state keeps a relation when every state it returns has it to the
state before. -/
def Keeps {β : Type} (R : σ → σ → Prop) (result : β → σ) (run : σ → Except Fault β) : Prop :=
  ∀ s b, run s = .ok b → R s (result b)

/-- Code keeps a reflexive and transitive relation that its operations keep. -/
theorem Code.run_keeps {R : σ → σ → Prop} (refl : ∀ s, R s s)
    (trans : ∀ s t u, R s t → R t u → R s u) {perform : Perform ω ρ σ}
    (operations : ∀ request, Keeps R Prod.snd (perform request)) (code : Code ω ρ) :
    Keeps R id (code.run perform) := by
  induction code with
  | done =>
      intro s t run
      cases run
      exact refl s
  | ask request next ih =>
      intro s t run
      simp only [Code.run] at run
      split at run
      · cases run
      · next answer u performed =>
          exact trans s u t (operations request _ _ performed) (ih answer _ _ run)

/-- **What every operation keeps, with the code it calls back, is kept by code.** -/
theorem exec_keeps {R : σ → σ → Prop} (refl : ∀ s, R s s)
    (trans : ∀ s t u, R s t → R t u → R s u)
    {perform : (Code ω ρ → σ → Except Fault σ) → Perform ω ρ σ}
    (operations : ∀ callback, (∀ code, Keeps R id (callback code)) →
      ∀ request, Keeps R Prod.snd (perform callback request))
    (frames : Nat) (code : Code ω ρ) : Keeps R id (exec perform frames code) := by
  induction frames generalizing code with
  | zero =>
      intro s t run
      cases run
  | succ frames ih => exact code.run_keeps refl trans (operations _ ih)

/-! ## Code run twice -/

/-- Two runs that fault alike, or return alike values and related states. -/
def Alike {β : Type} (same : β → β → Prop) : Except Fault β → Except Fault β → Prop
  | .ok b, .ok b' => same b b'
  | .error fault, .error fault' => fault = fault'
  | _, _ => False

theorem Alike.ok {β : Type} {same : β → β → Prop} {x y : Except Fault β} (alike : Alike same x y)
    {b : β} (run : x = .ok b) : ∃ b', y = .ok b' ∧ same b b' := by
  subst run
  cases y with
  | error fault => exact alike.elim
  | ok b' => exact ⟨b', rfl, alike⟩

/-- Two runs that start with the same step. -/
theorem Alike.after {β γ : Type} {same : γ → γ → Prop} (run : Except Fault β)
    {f g : β → Except Fault γ} (each : ∀ b, Alike same (f b) (g b)) :
    Alike same (run >>= f) (run >>= g) := by
  cases run with
  | error fault => exact rfl
  | ok b => exact each b

/-- Two runs whose first steps are alike. -/
theorem Alike.bind {β γ : Type} {first : β → β → Prop} {same : γ → γ → Prop}
    {x y : Except Fault β} (alike : Alike first x y) {f g : β → Except Fault γ}
    (each : ∀ b b', first b b' → Alike same (f b) (g b')) :
    Alike same (x >>= f) (y >>= g) := by
  cases x with
  | error fault =>
      cases y with
      | error fault' => exact alike
      | ok b' => exact alike.elim
  | ok b =>
      cases y with
      | error fault' => exact alike.elim
      | ok b' => exact each b b' alike

/-- The answers are equal and the states related. -/
def SameAnswer {α : Type} (S : σ → σ → Prop) (p q : α × σ) : Prop := p.1 = q.1 ∧ S p.2 q.2

/-- Code runs alike from related states when its operations do. -/
theorem Code.run_alike {S : σ → σ → Prop} {perform : Perform ω ρ σ}
    (operations : ∀ request s s', S s s' →
      Alike (SameAnswer S) (perform request s) (perform request s'))
    (code : Code ω ρ) {s s' : σ} (related : S s s') :
    Alike S (code.run perform s) (code.run perform s') := by
  induction code generalizing s s' with
  | done => exact related
  | ask request next ih =>
      have both := operations request s s' related
      simp only [Code.run]
      cases first : perform request s with
      | error fault =>
          rw [first] at both
          cases second : perform request s' with
          | error fault' => rw [second] at both; exact both
          | ok result => rw [second] at both; exact both.elim
      | ok result =>
          rw [first] at both
          obtain ⟨result', second, answers, states⟩ := both.ok rfl
          obtain ⟨answer, t⟩ := result
          obtain ⟨answer', t'⟩ := result'
          obtain rfl : answer = answer' := answers
          simp only [second]
          exact ih answer states

/-- **Code runs alike from states that its operations do not tell apart.** -/
theorem exec_alike {S : σ → σ → Prop}
    {perform : (Code ω ρ → σ → Except Fault σ) → Perform ω ρ σ}
    (operations : ∀ callback : Code ω ρ → σ → Except Fault σ,
      (∀ code s s', S s s' → Alike S (callback code s) (callback code s')) →
      ∀ request s s', S s s' →
        Alike (SameAnswer S) (perform callback request s) (perform callback request s'))
    (frames : Nat) (code : Code ω ρ) {s s' : σ} (related : S s s') :
    Alike S (exec perform frames code s) (exec perform frames code s') := by
  induction frames generalizing code s s' with
  | zero => exact rfl
  | succ frames ih =>
      exact code.run_alike (operations _ fun code s s' related => ih code related) related

end Hyprwire.Cpp
