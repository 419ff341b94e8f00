import Mathlib.Data.List.Basic

/-!
# Labelled runs and their lengths

A `Trail` is a run of a labelled transition relation with the labels of its steps. When every
step makes a measure smaller, but for some labels that can make it larger by at most a constant,
a trail is at most as long as the measure at its start, and longer by the constant for each of
these labels (`Trail.length_le`). The same bounds how often some of the labels occur
(`Trail.countP_le`).
-/

set_option autoImplicit false

namespace Hyprwire.Cpp

variable {σ ℓ : Type} {step : σ → ℓ → σ → Prop}

/-- A run with the labels of its steps. -/
inductive Trail (step : σ → ℓ → σ → Prop) : σ → List ℓ → σ → Prop
  | nil {s : σ} : Trail step s [] s
  | cons {s t u : σ} {label : ℓ} {labels : List ℓ} (first : step s label t)
      (rest : Trail step t labels u) : Trail step s (label :: labels) u

namespace Trail

variable {s t : σ} {labels : List ℓ}

/-- **What every step keeps holds after a trail.** -/
theorem invariant {I : σ → Prop} (trail : Trail step s labels t)
    (keeps : ∀ s t, ∀ label ∈ labels, step s label t → I s → I t) (first : I s) : I t := by
  induction trail with
  | nil => exact first
  | cons step _ ih =>
      refine ih ?_ (keeps _ _ _ List.mem_cons_self step first)
      exact fun s t label member => keeps s t label (List.mem_cons_of_mem _ member)

/-- **A measure bounds how often labels occur** in a trail: those that are counted make it smaller,
and no others make it larger but for some, and these by a constant at most. -/
theorem countP_le {I : σ → Prop} {measure : σ → Nat} {counted larger : ℓ → Bool} {most : Nat}
    (keeps : ∀ s label t, step s label t → I s → I t)
    (smaller : ∀ s label t, step s label t → I s →
      measure t + (if counted label then 1 else 0) ≤ measure s + if larger label then most else 0)
    (trail : Trail step s labels t) (first : I s) :
    labels.countP counted + measure t ≤ measure s + most * labels.countP larger := by
  induction trail with
  | nil => simp
  | @cons s t u label labels step _ ih =>
      have less := smaller _ _ _ step first
      have rest := ih (keeps _ _ _ step first)
      have more : most * (labels.countP larger + if larger label then 1 else 0) =
          most * labels.countP larger + if larger label then most else 0 := by
        split <;> simp [Nat.mul_add]
      rw [List.countP_cons, List.countP_cons, more]
      omega

/-- So it bounds the trail, when every step makes it smaller. -/
theorem length_le {I : σ → Prop} {measure : σ → Nat} {larger : ℓ → Bool} {most : Nat}
    (keeps : ∀ s label t, step s label t → I s → I t)
    (smaller : ∀ s label t, step s label t → I s →
      measure t + 1 ≤ measure s + if larger label then most else 0)
    (trail : Trail step s labels t) (first : I s) :
    labels.length + measure t ≤ measure s + most * labels.countP larger := by
  have all := @countP_le _ _ _ _ _ _ I measure (fun _ => true) larger most keeps smaller trail first
  rwa [List.countP_true] at all

end Trail

end Hyprwire.Cpp
