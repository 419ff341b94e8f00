import Mathlib.Logic.Relation
import Mathlib.Data.Fintype.Card
import Mathlib.Data.Fintype.Pigeonhole

/-!
# Loops

A loop of the source is a function giving one turn: from the state before the turn,
either the state before the next turn or the result the loop leaves with. A turn
that itself never finishes has no value. `loop` takes a number of turns at most.

The results:

* `exits_iff`: a loop leaves exactly when it reaches a state whose turn leaves, and
  then with one result (`Exits.unique`) whatever number of turns is allowed
  (`loop_mono`).
* `Reaches.invariant`: what every turn keeps holds in every state reached.
* `exits_of_measure`: a loop whose turns decrease a measure leaves.
* `stateAfter_eq_none`: a loop whose turns raise a bounded number stops in time.
* `loop_eq_none_of_closed`: a loop that stays in a set of states none of which
  leaves never leaves.
* `loop_none_forever`: when the turns depend on one of finitely many values only, a
  loop that has not left after more turns than there are values never leaves.
-/

set_option autoImplicit false

namespace Hyprwire.Cpp

variable {σ ρ : Type}

/-- One turn of a loop. -/
inductive Turn (σ ρ : Type) where
  | again (state : σ)
  | leave (result : ρ)

/-- At most `turns` turns of a loop from a state. -/
def loop (turn : σ → Option (Turn σ ρ)) : Nat → σ → Option ρ
  | 0, _ => none
  | turns + 1, s =>
      match turn s with
      | none => none
      | some (.again s') => loop turn turns s'
      | some (.leave r) => some r

/-- One turn leads from a state to the next. -/
def Next (turn : σ → Option (Turn σ ρ)) (s s' : σ) : Prop :=
  turn s = some (.again s')

/-- The states a loop passes through. -/
abbrev Reaches (turn : σ → Option (Turn σ ρ)) : σ → σ → Prop :=
  Relation.ReflTransGen (Next turn)

/-- The loop leaves with a result. -/
def Exits (turn : σ → Option (Turn σ ρ)) (s : σ) (r : ρ) : Prop :=
  ∃ turns, loop turn turns s = some r

variable {turn : σ → Option (Turn σ ρ)}

theorem loop_succ (turn : σ → Option (Turn σ ρ)) (turns : Nat) (s : σ) :
    loop turn (turns + 1) s =
      match turn s with
      | none => none
      | some (.again s') => loop turn turns s'
      | some (.leave r) => some r :=
  rfl

theorem loop_again {s s' : σ} (next : Next turn s s') (turns : Nat) :
    loop turn (turns + 1) s = loop turn turns s' := by
  rw [loop_succ, show turn s = some (.again s') from next]

theorem loop_leave {s : σ} {r : ρ} (leaves : turn s = some (.leave r)) (turns : Nat) :
    loop turn (turns + 1) s = some r := by
  rw [loop_succ, leaves]

theorem loop_stuck {s : σ} (stuck : turn s = none) (turns : Nat) :
    loop turn (turns + 1) s = none := by
  rw [loop_succ, stuck]

/-- More turns do not change a result. -/
theorem loop_mono {n m : Nat} (le : n ≤ m) {s : σ} {r : ρ} (result : loop turn n s = some r) :
    loop turn m s = some r := by
  induction n generalizing m s with
  | zero => cases result
  | succ n ih =>
      obtain ⟨m, rfl⟩ : ∃ k, m = k + 1 := ⟨m - 1, by omega⟩
      cases h : turn s with
      | none => rw [loop_stuck h] at result; cases result
      | some t =>
          cases t with
          | again s' =>
              rw [loop_again h] at result ⊢
              exact ih (by omega) result
          | leave r' =>
              rw [loop_leave h] at result ⊢
              exact result

/-- **A loop has at most one result.** -/
theorem Exits.unique {s : σ} {r r' : ρ} (first : Exits turn s r) (second : Exits turn s r') :
    r = r' := by
  obtain ⟨n, hn⟩ := first
  obtain ⟨m, hm⟩ := second
  have left := loop_mono (Nat.le_max_left n m) hn
  have right := loop_mono (Nat.le_max_right n m) hm
  exact Option.some.inj (left.symm.trans right)

theorem Exits.leave {s : σ} {r : ρ} (leaves : turn s = some (.leave r)) : Exits turn s r :=
  ⟨1, loop_leave leaves 0⟩

theorem Exits.again {s s' : σ} {r : ρ} (next : Next turn s s') (exits : Exits turn s' r) :
    Exits turn s r := by
  obtain ⟨n, hn⟩ := exits
  exact ⟨n + 1, (loop_again next n).trans hn⟩

/-- A turn before the exit can be taken off. -/
theorem Exits.of_next {s s' : σ} {r : ρ} (next : Next turn s s') (exits : Exits turn s r) :
    Exits turn s' r := by
  obtain ⟨n, hn⟩ := exits
  cases n with
  | zero => cases hn
  | succ n => exact ⟨n, (loop_again next n).symm.trans hn⟩

theorem Exits.of_reaches {s t : σ} {r : ρ} (reaches : Reaches turn s t) (exits : Exits turn t r) :
    Exits turn s r := by
  induction reaches using Relation.ReflTransGen.head_induction_on with
  | refl => exact exits
  | head next _ ih => exact .again next ih

/-- The turns up to a state can be taken off. -/
theorem Exits.after {s t : σ} {r : ρ} (reaches : Reaches turn s t) (exits : Exits turn s r) :
    Exits turn t r := by
  induction reaches with
  | refl => exact exits
  | tail _ next ih => exact .of_next next ih

/-- **A loop leaves exactly when it reaches a state whose turn leaves.** -/
theorem exits_iff {s : σ} {r : ρ} :
    Exits turn s r ↔ ∃ t, Reaches turn s t ∧ turn t = some (.leave r) := by
  constructor
  · rintro ⟨n, hn⟩
    induction n generalizing s with
    | zero => cases hn
    | succ n ih =>
        cases h : turn s with
        | none => rw [loop_stuck h] at hn; cases hn
        | some t =>
            cases t with
            | again s' =>
                obtain ⟨t, reaches, leaves⟩ := ih ((loop_again h n).symm.trans hn)
                exact ⟨t, .head h reaches, leaves⟩
            | leave r' =>
                have same := (loop_leave h n).symm.trans hn
                exact ⟨s, .refl, by rw [h, Option.some.inj same]⟩
  · rintro ⟨t, reaches, leaves⟩
    exact .of_reaches reaches (.leave leaves)

/-- Loops that have the same turns in every state that is reached have the same results. -/
theorem loop_congr {turn' : σ → Option (Turn σ ρ)} {s : σ}
    (same : ∀ t, Reaches turn s t → turn' t = turn t) (turns : Nat) :
    loop turn' turns s = loop turn turns s := by
  induction turns generalizing s with
  | zero => rfl
  | succ turns ih =>
      rw [loop_succ, loop_succ, same s .refl]
      cases step : turn s with
      | none => rfl
      | some t =>
          cases t with
          | again s' => exact ih fun t reaches => same t (.head step reaches)
          | leave result => rfl

/-- A turn of a loop that keeps less. -/
def Turn.map {σ' ρ' : Type} (state : σ → σ') (result : ρ → ρ') : Turn σ ρ → Turn σ' ρ'
  | again s => again (state s)
  | leave r => leave (result r)

/-- **A loop that keeps more than another one** comes to what the other one comes to, and more. -/
theorem loop_map {σ' ρ' : Type} {turn' : σ' → Option (Turn σ' ρ')} {state : σ → σ'}
    {result : ρ → ρ'} (same : ∀ s, turn' (state s) = (turn s).map (Turn.map state result))
    (turns : Nat) (s : σ) : loop turn' turns (state s) = (loop turn turns s).map result := by
  induction turns generalizing s with
  | zero => rfl
  | succ turns ih =>
      rw [loop_succ, loop_succ, same s]
      cases turn s with
      | none => rfl
      | some t =>
          cases t with
          | again s' => exact ih s'
          | leave r => rfl

/-- **What every turn keeps holds in every state the loop reaches.** -/
theorem Reaches.invariant {I : σ → Prop} (keeps : ∀ s s', I s → Next turn s s' → I s') {s t : σ}
    (reaches : Reaches turn s t) (start : I s) : I t := by
  induction reaches with
  | refl => exact start
  | tail _ next ih => exact keeps _ _ ih next

/-- **A loop whose turns decrease a measure leaves.** -/
theorem exits_of_measure {I : σ → Prop} (measure : σ → Nat)
    (turns : ∀ s, I s → ∃ t, turn s = some t)
    (decreases : ∀ s s', I s → Next turn s s' → I s' ∧ measure s' < measure s)
    {s : σ} (start : I s) : ∃ r, Exits turn s r := by
  induction bound : measure s using Nat.strong_induction_on generalizing s with
  | _ n ih =>
      obtain ⟨t, ht⟩ := turns s start
      cases t with
      | leave r => exact ⟨r, .leave ht⟩
      | again s' =>
          obtain ⟨inside, smaller⟩ := decreases s s' start ht
          obtain ⟨r, exits⟩ := ih (measure s') (bound ▸ smaller) inside rfl
          exact ⟨r, .again ht exits⟩

/-- **A loop that stays in a set of states none of which leaves never leaves.** -/
theorem loop_eq_none_of_closed {I : σ → Prop} (closed : ∀ s, I s → ∃ s', Next turn s s' ∧ I s')
    {s : σ} (start : I s) (turns : Nat) : loop turn turns s = none := by
  induction turns generalizing s with
  | zero => rfl
  | succ turns ih =>
      obtain ⟨s', next, inside⟩ := closed s start
      rw [loop_again next]
      exact ih inside

/-! ## Finitely many values -/

/-- The state after a number of turns, when the loop has not left by then. -/
def stateAfter (turn : σ → Option (Turn σ ρ)) : Nat → σ → Option σ
  | 0, s => some s
  | n + 1, s =>
      match turn s with
      | some (.again s') => stateAfter turn n s'
      | _ => none

theorem stateAfter_again {s s' : σ} (next : Next turn s s') (n : Nat) :
    stateAfter turn (n + 1) s = stateAfter turn n s' := by
  have unfolded : stateAfter turn (n + 1) s =
      match turn s with
      | some (.again s') => stateAfter turn n s'
      | _ => none := rfl
  rw [unfolded, show turn s = some (.again s') from next]

/-- A loop that has a state after another turn has gone round. -/
theorem stateAfter_succ {n : Nat} {s t : σ} (running : stateAfter turn (n + 1) s = some t) :
    ∃ s', Next turn s s' ∧ stateAfter turn n s' = some t := by
  change (match turn s with
    | some (.again s') => stateAfter turn n s'
    | _ => none) = some t at running
  split at running
  · next s' next => exact ⟨s', next, running⟩
  · cases running

theorem stateAfter_add {n m : Nat} {s t : σ} (first : stateAfter turn n s = some t) :
    stateAfter turn (n + m) s = stateAfter turn m t := by
  induction n generalizing s with
  | zero =>
      cases first
      rw [Nat.zero_add]
  | succ n ih =>
      obtain ⟨s', next, first⟩ := stateAfter_succ first
      rw [Nat.succ_add, stateAfter_again next]
      exact ih first

/-- The turns after some turns. -/
theorem loop_add {n m : Nat} {s t : σ} (first : stateAfter turn n s = some t) :
    loop turn (n + m) s = loop turn m t := by
  induction n generalizing s with
  | zero =>
      cases first
      rw [Nat.zero_add]
  | succ n ih =>
      obtain ⟨s', next, first⟩ := stateAfter_succ first
      rw [Nat.succ_add, loop_again next]
      exact ih first

/-- The states that are reached are those after some number of turns. -/
theorem reaches_iff_stateAfter {s t : σ} : Reaches turn s t ↔ ∃ n, stateAfter turn n s = some t := by
  constructor
  · intro reaches
    induction reaches using Relation.ReflTransGen.head_induction_on with
    | refl => exact ⟨0, rfl⟩
    | @head s s' next _ ih =>
        obtain ⟨n, running⟩ := ih
        exact ⟨n + 1, (stateAfter_again next n).trans running⟩
  · rintro ⟨n, running⟩
    induction n generalizing s with
    | zero =>
        cases running
        exact .refl
    | succ n ih =>
        obtain ⟨s', next, running⟩ := stateAfter_succ running
        exact .head next (ih running)

/-- A loop that has a state after some turns has one after fewer. -/
theorem exists_stateAfter_of_le {n m : Nat} (le : n ≤ m) {s t : σ}
    (running : stateAfter turn m s = some t) :
    ∃ u, stateAfter turn n s = some u ∧ stateAfter turn (m - n) u = some t := by
  induction n generalizing m s with
  | zero => exact ⟨s, rfl, running⟩
  | succ n ih =>
      obtain ⟨m, rfl⟩ : ∃ k, m = k + 1 := ⟨m - 1, by omega⟩
      obtain ⟨s', next, running⟩ := stateAfter_succ running
      rw [stateAfter_again next, Nat.add_sub_add_right]
      exact ih (Nat.le_of_succ_le_succ le) running

/-- A loop that goes along a path. -/
theorem stateAfter_path {path : Nat → σ} {len : Nat}
    (goes : ∀ n < len, Next turn (path n) (path (n + 1))) {n : Nat} (le : n ≤ len) :
    stateAfter turn n (path 0) = some (path n) := by
  induction n with
  | zero => rfl
  | succ n ih =>
      rw [stateAfter_add (ih (Nat.le_of_succ_le le))]
      exact stateAfter_again (goes n le) 0

/-- **A loop that goes along a path and leaves at its end** has the states of the path and
no others. -/
theorem stateAfter_path_iff {path : Nat → σ} {len : Nat}
    (goes : ∀ n < len, Next turn (path n) (path (n + 1))) {r : ρ}
    (leaves : turn (path len) = some (.leave r)) {n : Nat} {s : σ} :
    stateAfter turn n (path 0) = some s ↔ n ≤ len ∧ s = path n := by
  constructor
  · intro running
    by_cases le : n ≤ len
    · rw [stateAfter_path goes le] at running
      exact ⟨le, (Option.some.inj running).symm⟩
    · obtain ⟨more, rfl⟩ := Nat.exists_eq_add_of_lt (Nat.lt_of_not_le le)
      rw [Nat.add_assoc, stateAfter_add (stateAfter_path goes le_rfl)] at running
      obtain ⟨s', next, -⟩ := stateAfter_succ running
      cases leaves.symm.trans next
  · rintro ⟨le, rfl⟩
    exact stateAfter_path goes le

/-- A loop of total turns that has not left after `n` turns has a state there. -/
theorem exists_stateAfter {I : σ → Prop} (keeps : ∀ s s', I s → Next turn s s' → I s')
    (total : ∀ s, I s → ∃ t, turn s = some t) {n : Nat} {s : σ} (start : I s)
    (running : loop turn n s = none) : ∃ t, stateAfter turn n s = some t ∧ I t := by
  induction n generalizing s with
  | zero => exact ⟨s, rfl, start⟩
  | succ n ih =>
      obtain ⟨t, ht⟩ := total s start
      cases t with
      | leave r => rw [loop_leave ht] at running; cases running
      | again s' =>
          rw [loop_again ht] at running
          rw [stateAfter_again ht]
          exact ih (keeps s s' start ht) running

theorem loop_eq_none_of_stateAfter {n : Nat} {s t : σ} (running : stateAfter turn n s = some t) :
    loop turn n s = none := by
  induction n generalizing s with
  | zero => rfl
  | succ n ih =>
      obtain ⟨s', next, running⟩ := stateAfter_succ running
      rw [loop_again next]
      exact ih running

/-- Turns that raise a bounded number raise it by at least one each. -/
theorem stateAfter_rises {start : σ} {measure : σ → Nat} {bound : Nat}
    (rises : ∀ s s', Reaches turn start s → Next turn s s' →
      measure s < measure s' ∧ measure s' ≤ bound)
    {n : Nat} {s t : σ} (reaches : Reaches turn start s) (running : stateAfter turn n s = some t) :
    measure s + n ≤ measure t ∧ (0 < n → measure t ≤ bound) := by
  induction n generalizing s with
  | zero =>
      cases running
      exact ⟨le_rfl, fun none => absurd none (Nat.lt_irrefl 0)⟩
  | succ n ih =>
      obtain ⟨u, next, running⟩ := stateAfter_succ running
      obtain ⟨more, inside⟩ := rises s u reaches next
      obtain ⟨rest, below⟩ := ih (reaches.tail next) running
      refine ⟨by omega, fun _ => ?_⟩
      cases n with
      | zero => cases running; exact inside
      | succ n => exact below (Nat.succ_pos n)

/-- **A loop whose turns raise a bounded number has stopped** after as many turns as the
bound allows. -/
theorem stateAfter_eq_none {start : σ} {measure : σ → Nat} {bound : Nat}
    (rises : ∀ s s', Reaches turn start s → Next turn s s' →
      measure s < measure s' ∧ measure s' ≤ bound) :
    stateAfter turn (bound + 1) start = none := by
  cases running : stateAfter turn (bound + 1) start with
  | none => rfl
  | some t =>
      obtain ⟨more, below⟩ := stateAfter_rises rises .refl running
      have inside := below (Nat.succ_pos bound)
      omega

/-- Two states with one value run alike. -/
theorem stateAfter_congr {β : Type} {value : σ → β} {I : σ → Prop}
    (keeps : ∀ s s', I s → Next turn s s' → I s')
    (decided : ∀ s s' t, I s → I s' → value s = value s' → Next turn s t →
      ∃ t', Next turn s' t' ∧ value t' = value t)
    {n : Nat} {s s' t : σ} (start : I s) (start' : I s') (same : value s = value s')
    (running : stateAfter turn n s = some t) :
    ∃ t', stateAfter turn n s' = some t' ∧ value t' = value t ∧ I t' := by
  induction n generalizing s s' with
  | zero =>
      obtain rfl : s = t := Option.some.inj running
      exact ⟨s', rfl, same.symm, start'⟩
  | succ n ih =>
      obtain ⟨u, next, running⟩ := stateAfter_succ running
      obtain ⟨u', next', sameNext⟩ := decided s s' u start start' same next
      obtain ⟨t', running', value'⟩ :=
        ih (keeps s u start next) (keeps s' u' start' next') sameNext.symm running
      exact ⟨t', (stateAfter_again next' n).trans running', value'⟩

/-- **When the turns depend on one of finitely many values only, a loop that has not
left after more turns than there are values never leaves.** -/
theorem loop_none_forever {β : Type} [Fintype β] {value : σ → β} {I : σ → Prop}
    (keeps : ∀ s s', I s → Next turn s s' → I s')
    (total : ∀ s, I s → ∃ t, turn s = some t)
    (decided : ∀ s s' t, I s → I s' → value s = value s' → Next turn s t →
      ∃ t', Next turn s' t' ∧ value t' = value t)
    {turns : Nat} (many : Fintype.card β ≤ turns) {s : σ} (start : I s)
    (running : loop turn turns s = none) (more : Nat) : loop turn more s = none := by
  -- Every number of turns up to the bound has a state, and two of these states agree.
  have before : ∀ n ≤ turns, ∃ t, stateAfter turn n s = some t ∧ I t := by
    intro n le
    refine exists_stateAfter keeps total start ?_
    cases h : loop turn n s with
    | none => rfl
    | some r => rw [loop_mono le h] at running; cases running
  choose state hstate inside using fun n : Fin (turns + 1) => before n (by omega)
  obtain ⟨i, j, differ, same⟩ := Fintype.exists_ne_map_eq_of_card_lt (fun n => value (state n))
    (by simpa using Nat.lt_succ_of_le many)
  wlog order : (i : Nat) < j generalizing i j
  · exact this j i differ.symm same.symm (by omega)
  -- From the first of the two on, the loop goes round: every number of turns has a state.
  have round : ∀ k (t : σ), I t → value t = value (state i) →
      ∃ t', stateAfter turn k t = some t' := by
    intro k
    induction k using Nat.strong_induction_on with
    | _ k ih =>
        intro t hI ht
        have step : stateAfter turn (j - i) (state i) = some (state j) := by
          rw [← stateAfter_add (hstate i), Nat.add_sub_cancel' order.le]
          exact hstate j
        obtain ⟨u, hu, valueU, insideU⟩ :=
          stateAfter_congr keeps decided (inside i) hI ht.symm step
        by_cases short : k < j - i
        · obtain ⟨t', ht', _⟩ := exists_stateAfter keeps total (n := k) hI (by
            cases h : loop turn k t with
            | none => rfl
            | some r =>
                have := loop_mono short.le h
                rw [loop_eq_none_of_stateAfter hu] at this
                cases this)
          exact ⟨t', ht'⟩
        · obtain ⟨t', ht'⟩ := ih (k - (j - i)) (by omega) u insideU (valueU.trans same.symm)
          refine ⟨t', ?_⟩
          rw [show k = (j - i) + (k - (j - i)) by omega, stateAfter_add hu]
          exact ht'
  obtain ⟨t, ht⟩ := round more (state i) (inside i) rfl
  have long : loop turn (i + more) s = none := by
    refine loop_eq_none_of_stateAfter (t := t) ?_
    rw [stateAfter_add (hstate i)]
    exact ht
  cases h : loop turn more s with
  | none => rfl
  | some r => rw [loop_mono (Nat.le_add_left _ _) h] at long; cases long

end Hyprwire.Cpp
