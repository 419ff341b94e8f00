import Mathlib.Logic.Function.Basic
import Mathlib.Logic.Relation
import Hyprwire.Object.Spec

/-!
# The path of a server

`CServerSocket::attempt` takes a path. When there is a file, it tries to connect to it. If nobody
listens, the file is removed, and then the socket is bound to the path. The destructor closes the
socket and removes the path. A `Host` is a file system with any number of servers, which are
between these calls, and a `Step` is one call of one server. A call can also fail for a reason of
its own.

A server that listens keeps its path, whatever the others do, exactly if the file is its own
and no other server holds the path or is about to remove it (`path_kept_iff`). That is so when no
two servers are in `attempt` or in the destructor at one path (`paths_kept`). But two servers that
find the same stale file can both end up listening, and the one that is destroyed takes the path
of the other along (`path_lost`).

Paths that name the same directory entry are told by a function `entry`. What is bound to the
empty path is no file, and left out.
-/

set_option autoImplicit false

namespace Hyprwire.Server

open Cpp

variable {Entry : Type}

/-! ## Files and servers -/

/-- What a directory entry is. -/
inductive File where
  /-- the address that the socket of a server was bound to -/
  | socket (server : Nat)
  | other
  deriving DecidableEq, Repr

/-- Where a server is in `attempt` and in its destructor. -/
inductive Phase where
  | unopened
  /-- there is a file, before `connect` -/
  | probing (path : Str)
  /-- `connect` was refused, before the file is removed -/
  | refused (path : Str)
  /-- before `bind` -/
  | absent (path : Str)
  /-- before `listen` -/
  | bound (path : Str)
  /-- `attempt` has returned `true` -/
  | listening (path : Str)
  /-- the descriptor is closed, before the path is removed -/
  | closed (path : Str)
  /-- `attempt` has returned `false`, or the destructor has returned -/
  | gone
  deriving DecidableEq, Repr

namespace Phase

/-- The path that a server has bound its socket to, or is about to remove. -/
def claim : Phase → Option Str
  | refused path | bound path | listening path | closed path => some path
  | _ => none

/-- The path that a server is opening or closing. -/
def busy : Phase → Option Str
  | probing path | refused path | absent path | bound path | closed path => some path
  | _ => none

/-- The path that its socket is bound to. -/
def holds : Phase → Option Str
  | bound path | listening path | closed path => some path
  | _ => none

/-- It accepts connections. -/
def listens : Phase → Bool
  | listening _ => true
  | _ => false

theorem claim_of_holds {phase : Phase} {path : Str} (holds : phase.holds = some path) :
    phase.claim = some path := by
  cases phase <;> cases holds <;> rfl

theorem busy_of_claim {phase : Phase} {path : Str} (claims : phase.claim = some path) :
    phase.busy = some path ∨ phase = .listening path := by
  cases phase <;> cases claims
  all_goals first | exact .inl rfl | exact .inr rfl

end Phase

/-- The errors of `connect` that are told apart. -/
inductive Errno where
  | noEntry
  | refused
  deriving DecidableEq, Repr

/-- A file system and the servers. -/
structure Host (Entry : Type) where
  files : Entry → Option File
  phase : Nat → Phase := fun _ => .unopened

namespace Host

/-- A server is in another place. -/
def goes (w : Host Entry) (i : Nat) (phase : Phase) : Host Entry :=
  { w with phase := Function.update w.phase i phase }

@[simp] theorem files_goes (w : Host Entry) (i : Nat) (phase : Phase) :
    (w.goes i phase).files = w.files := rfl

@[simp] theorem phase_goes (w : Host Entry) (i : Nat) (phase : Phase) :
    (w.goes i phase).phase i = phase := Function.update_self ..

theorem phase_goes_of_ne (w : Host Entry) {i j : Nat} (phase : Phase) (other : j ≠ i) :
    (w.goes i phase).phase j = w.phase j := Function.update_of_ne other ..

@[simp] theorem goes_goes (w : Host Entry) (i : Nat) (first second : Phase) :
    (w.goes i first).goes i second = w.goes i second := by
  rw [goes, goes, goes, Function.update_idem]

/-- `connect`. A file that is no socket refuses as well. -/
def connect (w : Host Entry) (at' : Entry) : Except Errno Nat :=
  match w.files at' with
  | none => .error .noEntry
  | some (.socket i) => if (w.phase i).listens then .ok i else .error .refused
  | some .other => .error .refused

/-- `CClientSocket::attempt`: the server that a client is connected to. -/
def connects (entry : Str → Entry) (w : Host Entry) (path : Str) : Option Nat :=
  if 108 ≤ path.length then none else (w.connect (entry path)).toOption

/-- A file is connected to exactly when its server listens. -/
theorem connect_eq_ok {w : Host Entry} {at' : Entry} {i : Nat} :
    w.connect at' = .ok i ↔ w.files at' = some (.socket i) ∧ (w.phase i).listens = true := by
  rw [connect]
  cases w.files at' with
  | none => simp
  | some file =>
      cases file with
      | other => simp
      | socket j =>
          dsimp only
          split
          · next listens =>
            constructor
            · intro same
              cases same
              exact ⟨rfl, listens⟩
            · rintro ⟨same, -⟩
              cases same
              rfl
          · next silent =>
            constructor
            · intro same
              cases same
            · rintro ⟨same, listens⟩
              cases same
              exact absurd listens silent

/-- `connect` is refused exactly when there is a file and no server that listens at it. -/
theorem connect_eq_refused {w : Host Entry} {at' : Entry} :
    w.connect at' = .error .refused ↔
      (w.files at').isSome ∧ ∀ k, w.files at' = some (.socket k) → (w.phase k).listens = false := by
  rw [connect]
  cases w.files at' with
  | none => simp
  | some file =>
      cases file with
      | other => simp
      | socket k => cases listens : (w.phase k).listens <;> simp [listens]

/-- A server that does not listen makes no difference. -/
theorem connect_goes {w : Host Entry} {at' : Entry} {phase : Phase}
    (refuses : w.connect at' = .error .refused) (silent : phase.listens = false) (i : Nat) :
    (w.goes i phase).connect at' = .error .refused := by
  obtain ⟨there, stale⟩ := connect_eq_refused.mp refuses
  refine connect_eq_refused.mpr ⟨there, fun k own => ?_⟩
  by_cases mover : k = i
  · rw [mover, phase_goes]
    exact silent
  · rw [phase_goes_of_ne _ _ mover]
    exact stale k own

theorem connects_eq_some {entry : Str → Entry} {w : Host Entry} {path : Str} {i : Nat} :
    w.connects entry path = some i ↔
      path.length < 108 ∧ w.files (entry path) = some (.socket i) ∧
        (w.phase i).listens = true := by
  rw [connects, ← connect_eq_ok]
  split
  · next long =>
    constructor
    · intro same
      cases same
    · rintro ⟨short, -⟩
      omega
  · next short =>
    cases w.connect (entry path) with
    | error fault => simp [Except.toOption]
    | ok j => simp [Except.toOption]; omega

variable [DecidableEq Entry]

/-- A directory entry is another one. -/
def writes (w : Host Entry) (at' : Entry) (file : Option File) : Host Entry :=
  { w with files := Function.update w.files at' file }

@[simp] theorem phase_writes (w : Host Entry) (at' : Entry) (file : Option File) :
    (w.writes at' file).phase = w.phase := rfl

@[simp] theorem files_writes (w : Host Entry) (at' : Entry) (file : Option File) :
    (w.writes at' file).files at' = file := Function.update_self ..

@[simp] theorem writes_writes (w : Host Entry) (at' : Entry) (first second : Option File) :
    (w.writes at' first).writes at' second = w.writes at' second := by
  rw [writes, writes, writes, Function.update_idem]

@[simp] theorem writes_goes (w : Host Entry) (i : Nat) (phase : Phase) (at' : Entry)
    (file : Option File) : (w.goes i phase).writes at' file = (w.writes at' file).goes i phase :=
  rfl

theorem files_writes_of_ne (w : Host Entry) {at' other : Entry} (file : Option File)
    (elsewhere : other ≠ at') : (w.writes at' file).files other = w.files other :=
  Function.update_of_ne elsewhere ..

/-! ## The calls -/

/-- The end of `attempt`: the socket is bound and listens. -/
def bind (entry : Str → Entry) (w : Host Entry) (i : Nat) (path : Str) : Host Entry × Bool :=
  if 108 ≤ path.length then (w.goes i .gone, false)
  else if (w.files (entry path)).isSome then (w.goes i .gone, false)
  else ((w.writes (entry path) (some (.socket i))).goes i (.listening path), true)

/-- `CServerSocket::attempt`, when no other server does anything. -/
def attempt (entry : Str → Entry) (w : Host Entry) (i : Nat) (path : Str) : Host Entry × Bool :=
  if (w.files (entry path)).isSome then
    if 108 ≤ path.length then (w.goes i .gone, false)
    else
      match w.connect (entry path) with
      | .error .refused => (w.writes (entry path) none).bind entry i path
      | _ => (w.goes i .gone, false)
  else
    w.bind entry i path

/-- The destructor. -/
def destroy (entry : Str → Entry) (w : Host Entry) (i : Nat) (path : Str) : Host Entry :=
  (w.goes i .gone).writes (entry path) none

/-! ## Steps -/

/-- A call of a server. -/
inductive Step (entry : Str → Entry) (w : Host Entry) : Host Entry → Prop
  | found {i : Nat} (path : Str) (unopened : w.phase i = .unopened) (named : path ≠ [])
      (there : (w.files (entry path)).isSome) : Step entry w (w.goes i (.probing path))
  -- `exists` is also false when it fails.
  | missed {i : Nat} (path : Str) (unopened : w.phase i = .unopened) (named : path ≠ []) :
      Step entry w (w.goes i (.absent path))
  | refused {i : Nat} {path : Str} (place : w.phase i = .probing path) (short : path.length < 108)
      (refuses : w.connect (entry path) = .error .refused) :
      Step entry w (w.goes i (.refused path))
  | removes {i : Nat} {path : Str} (place : w.phase i = .refused path) :
      Step entry w ((w.writes (entry path) none).goes i (.absent path))
  | binds {i : Nat} {path : Str} (place : w.phase i = .absent path) (short : path.length < 108)
      (free : w.files (entry path) = none) :
      Step entry w ((w.writes (entry path) (some (.socket i))).goes i (.bound path))
  | listens {i : Nat} {path : Str} (place : w.phase i = .bound path) :
      Step entry w (w.goes i (.listening path))
  | fails {i : Nat} {path : Str}
      (place : w.phase i = .probing path ∨ w.phase i = .refused path ∨ w.phase i = .absent path) :
      Step entry w (w.goes i .gone)
  | closes {i : Nat} {path : Str} (place : w.phase i = .listening path) :
      Step entry w (w.goes i (.closed path))
  | unlinks {i : Nat} {path : Str} (place : w.phase i = .closed path) :
      Step entry w ((w.writes (entry path) none).goes i .gone)

/-- Any number of calls, in any order. -/
abbrev Steps (entry : Str → Entry) : Host Entry → Host Entry → Prop :=
  Relation.ReflTransGen (Step entry)

/-- No server has been opened. There may be files. -/
def Started (w : Host Entry) : Prop := ∀ i, w.phase i = .unopened

/-- The file is the server's own, and no other server holds the path or is about to remove it. -/
def Held (entry : Str → Entry) (w : Host Entry) (i : Nat) (path : Str) : Prop :=
  w.files (entry path) = some (.socket i) ∧
    ∀ j other, (w.phase j).claim = some other → entry other = entry path → j = i

/-- No two servers are opening or closing one path. -/
def Exclusive (entry : Str → Entry) (w : Host Entry) : Prop :=
  ∀ i j path other, (w.phase i).busy = some path → (w.phase j).busy = some other →
    entry path = entry other → i = j

/-- Calls after which no two servers are opening or closing one path. -/
abbrev ExclusiveSteps (entry : Str → Entry) : Host Entry → Host Entry → Prop :=
  Relation.ReflTransGen fun x y => Step entry x y ∧ y.Exclusive entry

variable {entry : Str → Entry} {w : Host Entry} {i j : Nat} {path : Str}

/-! ## Calls without others between them -/

/-- The socket is bound where there is no file, and listens. -/
theorem binds_steps (place : w.phase i = .absent path) (short : path.length < 108)
    (free : w.files (entry path) = none) :
    Steps entry w ((w.writes (entry path) (some (.socket i))).goes i (.listening path)) := by
  have listens : Step entry _ _ := .listens
    (phase_goes (w.writes (entry path) (some (.socket i))) i (.bound path))
  rw [goes_goes] at listens
  exact .tail (.single (.binds place short free)) listens

/-- A file is removed, and the socket bound in its place. -/
theorem removes_steps (place : w.phase i = .refused path) (short : path.length < 108) :
    Steps entry w ((w.writes (entry path) (some (.socket i))).goes i (.listening path)) := by
  have binds := @binds_steps _ _ entry _ _ _
    (phase_goes (w.writes (entry path) none) i (.absent path)) short (files_writes ..)
  rw [writes_goes, writes_writes, goes_goes] at binds
  exact .head (.removes place) binds

/-- A file at which nobody listens is found. -/
theorem refused_steps (unopened : w.phase i = .unopened) (named : path ≠ [])
    (short : path.length < 108) (refuses : w.connect (entry path) = .error .refused) :
    Steps entry w (w.goes i (.refused path)) := by
  have there := (connect_eq_refused.mp refuses).1
  have refused := Step.refused (phase_goes w i (.probing path)) short
    (connect_goes refuses rfl i)
  rw [goes_goes] at refused
  exact .tail (.single (.found path unopened named there)) refused

theorem fails_steps {phase : Phase} (first : Step entry w (w.goes i phase))
    (trying : phase = .probing path ∨ phase = .refused path ∨ phase = .absent path) :
    Steps entry w (w.goes i .gone) := by
  rw [← phase_goes w i phase] at trying
  have fails : Step entry (w.goes i phase) _ := .fails trying
  rw [goes_goes] at fails
  exact .tail (.single first) fails

/-- **`attempt` is calls of one server.** -/
theorem attempt_steps (unopened : w.phase i = .unopened) (named : path ≠ []) :
    Steps entry w (w.attempt entry i path).1 := by
  rw [attempt]
  split
  · next there =>
    have fails : Steps entry w (w.goes i .gone) :=
      fails_steps (.found path unopened named there) (.inl rfl)
    split
    · exact fails
    · next short =>
      split
      · next refuses =>
        have short := Nat.lt_of_not_le short
        rw [bind, if_neg (Nat.not_le.mpr short), if_neg (by simp), writes_writes]
        have removes := @removes_steps _ _ entry _ _ _ (phase_goes w i (.refused path)) short
        rw [writes_goes, goes_goes] at removes
        exact (refused_steps unopened named short refuses).trans removes
      · exact fails
  · next none =>
    have fails : Steps entry w (w.goes i .gone) :=
      fails_steps (.missed path unopened named) (.inr (.inr rfl))
    rw [bind]
    split
    · exact fails
    · next short =>
      have binds := @binds_steps _ _ entry _ _ _ (phase_goes w i (.absent path))
        (Nat.lt_of_not_le short) (Option.not_isSome_iff_eq_none.mp none)
      rw [writes_goes, goes_goes] at binds
      exact .head (.missed path unopened named) binds

/-- **`attempt` succeeds alone** exactly when the path is short and nobody listens there. A file
that is no socket does not stop it. -/
theorem attempt_iff : (w.attempt entry i path).2 = true ↔
    path.length < 108 ∧ ∀ j, w.connect (entry path) ≠ .ok j := by
  by_cases short : 108 ≤ path.length
  · simp [attempt, bind, short]
  · have free : path.length < 108 := Nat.lt_of_not_le short
    rw [attempt]
    cases there : w.files (entry path) with
    | none => simp [bind, there, short, free, connect]
    | some file =>
        rw [if_pos Option.isSome_some, if_neg short]
        cases connects : w.connect (entry path) with
        | ok j => simp
        | error fault =>
            cases fault with
            | noEntry =>
                have missing : w.connect (entry path) ≠ .error .noEntry := by
                  rw [connect, there]
                  cases file with
                  | other => simp
                  | socket k => dsimp only; split <;> simp
                exact absurd connects missing
            | refused => simp [bind, short, free]

/-- **The destructor is calls of one server.** -/
theorem destroy_steps (listening : w.phase i = .listening path) :
    Steps entry w (w.destroy entry i path) := by
  have unlinks : Step entry _ _ := .unlinks (phase_goes w i (.closed path))
  rw [writes_goes, goes_goes] at unlinks
  exact .tail (.single (.closes listening)) unlinks

/-! ## A server that listens -/

/-- A server that has listened goes on to its destructor. -/
inductive Onward (path : Str) : Phase → Prop
  | listening : Onward path (.listening path)
  | closed : Onward path (.closed path)
  | gone : Onward path .gone

omit [DecidableEq Entry] in
theorem Held.goes (held : w.Held entry i path) {phase : Phase}
    (apart : ∀ other, phase.claim = some other → entry other ≠ entry path) :
    (w.goes j phase).Held entry i path := by
  refine ⟨held.1, ?_⟩
  intro k other claims same
  by_cases mover : k = j
  · rw [mover, phase_goes] at claims
    exact absurd same (apart other claims)
  · rw [phase_goes_of_ne _ _ mover] at claims
    exact held.2 k other claims same

theorem Held.writes (held : w.Held entry i path) {at' : Entry} (file : Option File)
    (elsewhere : entry path ≠ at') : (w.writes at' file).Held entry i path :=
  ⟨(files_writes_of_ne _ _ elsewhere).trans held.1, held.2⟩

omit [DecidableEq Entry] in
/-- What another server claims is elsewhere. -/
theorem Held.apart (held : w.Held entry i path) (other : j ≠ i) {path' : Str}
    (claims : (w.phase j).claim = some path') : entry path' ≠ entry path :=
  fun same => other (held.2 j path' claims same)

/-- **A call leaves the path held**, if the server still listens. -/
theorem Held.step {z : Host Entry} (held : w.Held entry i path)
    (listening : w.phase i = .listening path) (step : Step entry w z)
    (still : z.phase i = .listening path) : z.Held entry i path := by
  have lies : ∀ {j phase}, w.phase j = phase → phase ≠ .listening path → j ≠ i := by
    rintro j phase rfl elsewhere rfl
    exact elsewhere listening
  cases step with
  | found other unopened named there => exact held.goes fun _ claims => by cases claims
  | missed other unopened named => exact held.goes fun _ claims => by cases claims
  | @refused j other place short refuses =>
      refine held.goes ?_
      intro _ claims same
      cases claims
      have connects : w.connect (entry path) = .ok i :=
        connect_eq_ok.mpr ⟨held.1, by rw [listening]; rfl⟩
      rw [same, connects] at refuses
      cases refuses
  | @removes j other place =>
      have apart := held.apart (lies place (by simp)) (by rw [place]; rfl)
      exact (held.writes _ apart.symm).goes fun _ claims => by cases claims
  | @binds j other place short free =>
      have apart : entry other ≠ entry path := by
        intro same
        rw [same, held.1] at free
        cases free
      refine (held.writes _ apart.symm).goes ?_
      intro _ claims
      cases claims
      exact apart
  | @listens j other place =>
      have apart := held.apart (lies place (by simp)) (by rw [place]; rfl)
      refine held.goes ?_
      intro _ claims
      cases claims
      exact apart
  | fails place => exact held.goes fun _ claims => by cases claims
  | @closes j other place =>
      have mover : j ≠ i := by
        rintro rfl
        rw [phase_goes] at still
        cases still
      have apart := held.apart mover (by rw [place]; rfl)
      refine held.goes ?_
      intro _ claims
      cases claims
      exact apart
  | @unlinks j other place =>
      have apart := held.apart (lies place (by simp)) (by rw [place]; rfl)
      exact (held.writes _ apart.symm).goes fun _ claims => by cases claims

/-- A server that has listened goes on to the end of its destructor, and does not come back. -/
theorem Onward.step {z : Host Entry} (onward : Onward path (w.phase i)) (step : Step entry w z) :
    Onward path (z.phase i) ∧ (z.phase i = .listening path → w.phase i = .listening path) := by
  have moves : ∀ {j : Nat} {phase : Phase},
      (j = i → Onward path phase ∧ phase ≠ .listening path) →
      Onward path ((w.goes j phase).phase i) ∧
        ((w.goes j phase).phase i = .listening path → w.phase i = .listening path) := by
    intro j phase goes
    by_cases mover : i = j
    · rw [mover, phase_goes]
      obtain ⟨onward, elsewhere⟩ := goes mover.symm
      exact ⟨onward, fun back => absurd back elsewhere⟩
    · rw [phase_goes_of_ne _ _ mover]
      exact ⟨onward, id⟩
  cases step with
  | closes place =>
      refine moves ?_
      rintro rfl
      rw [place] at onward
      cases onward
      exact ⟨.closed, by simp⟩
  | unlinks place | fails place => exact moves fun _ => ⟨.gone, by simp⟩
  | found other place | missed other place | refused place | removes place | binds place
  | listens place =>
      refine moves ?_
      rintro rfl
      rw [place] at onward
      cases onward

/-- **A path that is held stays held** as long as the server listens. -/
theorem Held.steps {z : Host Entry} (held : w.Held entry i path)
    (listening : w.phase i = .listening path) (steps : Steps entry w z) :
    Onward path (z.phase i) ∧ (z.phase i = .listening path → z.Held entry i path) := by
  induction steps with
  | refl => exact ⟨listening ▸ .listening, fun _ => held⟩
  | tail _ step ih =>
      obtain ⟨onward, kept⟩ := ih
      obtain ⟨onward, before⟩ := onward.step step
      exact ⟨onward, fun still => (kept (before still)).step (before still) step still⟩

/-- A path of which the file is gone. -/
theorem connects_ne_of_writes (w : Host Entry) {j : Nat} (phase : Phase) :
    ((w.writes (entry path) none).goes j phase).connects entry path ≠ some i := by
  intro connects
  obtain ⟨-, there, -⟩ := connects_eq_some.mp connects
  rw [files_goes, files_writes] at there
  cases there

/-- **A path that is not held can be lost**: another server removes the file. -/
theorem exists_loses (listening : w.phase i = .listening path) (unheld : ¬ w.Held entry i path) :
    ∃ z, Steps entry w z ∧ z.phase i = .listening path ∧ z.connects entry path ≠ some i := by
  by_cases own : w.files (entry path) = some (.socket i)
  · -- Another server has a claim, and goes on to where it removes the file.
    obtain ⟨j, other, claims, same, mover⟩ :
        ∃ j other, (w.phase j).claim = some other ∧ entry other = entry path ∧ i ≠ j := by
      by_contra none
      refine unheld ⟨own, fun j other claims same => ?_⟩
      by_contra mover
      exact none ⟨j, other, claims, same, Ne.symm mover⟩
    have keeps : ∀ {w : Host Entry} {phase}, w.phase i = .listening path →
        (w.goes j phase).phase i = .listening path :=
      fun listening => (phase_goes_of_ne _ _ mover).trans listening
    have unlinks : ∀ {w : Host Entry}, w.phase i = .listening path →
        w.phase j = .closed other →
        ∃ z, Steps entry w z ∧ z.phase i = .listening path ∧ z.connects entry path ≠ some i := by
      intro w listening place
      refine ⟨_, .single (.unlinks place), keeps listening, ?_⟩
      rw [same]
      exact connects_ne_of_writes w _
    have closes : ∀ {w : Host Entry}, w.phase i = .listening path →
        w.phase j = .listening other →
        ∃ z, Steps entry w z ∧ z.phase i = .listening path ∧ z.connects entry path ≠ some i := by
      intro w listening place
      obtain ⟨z, steps, lost⟩ := unlinks (keeps listening) (phase_goes w j (.closed other))
      exact ⟨z, .head (.closes place) steps, lost⟩
    cases place : w.phase j with
    | refused _ =>
        rw [place] at claims
        cases claims
        refine ⟨_, .single (.removes place), keeps listening, ?_⟩
        rw [same]
        exact connects_ne_of_writes w _
    | bound _ =>
        rw [place] at claims
        cases claims
        obtain ⟨z, steps, lost⟩ := closes (keeps listening) (phase_goes w j (.listening other))
        exact ⟨z, .head (.listens place) steps, lost⟩
    | listening _ =>
        rw [place] at claims
        cases claims
        exact closes listening place
    | closed _ =>
        rw [place] at claims
        cases claims
        exact unlinks listening place
    | unopened | probing _ | absent _ | gone =>
        rw [place] at claims
        cases claims
  · refine ⟨w, .refl, listening, fun connects => own ?_⟩
    exact (connects_eq_some.mp connects).2.1

/-- The path that a socket is bound to is short enough. -/
theorem short_of_steps {start : Host Entry} (started : Started start)
    (reached : Steps entry start w) (holds : (w.phase i).holds = some path) :
    path.length < 108 := by
  induction reached generalizing i path with
  | refl =>
      rw [started i] at holds
      cases holds
  | @tail y z _ step ih =>
      have moves : ∀ {w : Host Entry} {j : Nat} {phase : Phase}, w.phase = y.phase →
          (∀ other, phase.holds = some other → other.length < 108) →
          ((w.goes j phase).phase i).holds = some path → path.length < 108 := by
        intro w j phase same own holds
        by_cases mover : i = j
        · rw [mover, phase_goes] at holds
          exact own path holds
        · rw [phase_goes_of_ne _ _ mover, same] at holds
          exact ih holds
      cases step with
      | binds place short free =>
          refine moves (phase_writes ..) (fun _ own => ?_) holds
          cases own
          exact short
      | listens place | closes place =>
          refine moves rfl (fun _ own => ?_) holds
          cases own
          exact ih (by rw [place]; rfl)
      | found _ place named there | missed _ place named =>
          exact moves rfl (fun _ own => by cases own) holds
      | refused place short refuses | fails place =>
          exact moves rfl (fun _ own => by cases own) holds
      | removes place | unlinks place =>
          exact moves (phase_writes ..) (fun _ own => by cases own) holds

/-! ## Servers that are opened and closed one after another -/

/-- No two servers claim one path, and what a socket is bound to is its own. -/
structure Apart (entry : Str → Entry) (w : Host Entry) : Prop where
  claims : ∀ i j path other, (w.phase i).claim = some path → (w.phase j).claim = some other →
    entry path = entry other → i = j
  own : ∀ i path, (w.phase i).holds = some path → w.files (entry path) = some (.socket i)

namespace Apart

omit [DecidableEq Entry] in
theorem of_started {start : Host Entry} (started : Started start) : Apart entry start := by
  constructor
  · intro i j path other claims
    rw [started i] at claims
    cases claims
  · intro i path holds
    rw [started i] at holds
    cases holds

omit [DecidableEq Entry] in
/-- A server is in another place, where it claims a path of its own, if any. -/
theorem goes (apart : Apart entry w) {phase : Phase}
    (claims : ∀ path, phase.claim = some path → ∀ k other, k ≠ j →
      (w.phase k).claim = some other → entry path ≠ entry other)
    (own : ∀ path, phase.holds = some path → w.files (entry path) = some (.socket j)) :
    Apart entry (w.goes j phase) := by
  constructor
  · intro k l path other first second same
    by_cases one : k = j <;> by_cases two : l = j
    · exact one.trans two.symm
    · rw [one, phase_goes] at first
      rw [phase_goes_of_ne _ _ two] at second
      exact absurd same (claims path first l other two second)
    · rw [two, phase_goes] at second
      rw [phase_goes_of_ne _ _ one] at first
      exact absurd same.symm (claims other second k path one first)
    · rw [phase_goes_of_ne _ _ one] at first
      rw [phase_goes_of_ne _ _ two] at second
      exact apart.claims k l path other first second same
  · intro k path holds
    by_cases mover : k = j
    · rw [mover, phase_goes] at holds
      rw [mover]
      exact own path holds
    · rw [phase_goes_of_ne _ _ mover] at holds
      exact apart.own k path holds

/-- An entry that no socket is bound to is another one. -/
theorem writes (apart : Apart entry w) {at' : Entry} (file : Option File)
    (unheld : ∀ k path, (w.phase k).holds = some path → entry path ≠ at') :
    Apart entry (w.writes at' file) := by
  refine ⟨apart.claims, ?_⟩
  intro k path holds
  rw [files_writes_of_ne _ _ (unheld k path holds)]
  exact apart.own k path holds

/-- **A call after which no two servers are at one path** keeps the servers apart. -/
theorem step {z : Host Entry} (apart : Apart entry w) (step : Step entry w z)
    (exclusive : z.Exclusive entry) : Apart entry z := by
  -- A server that comes to claim a path is alone, unless another one listens there.
  have lone : ∀ {j : Nat} {phase : Phase} {path : Str}, phase.busy = some path →
      (z.phase j = phase) → (∀ k, k ≠ j → z.phase k = w.phase k) →
      (∀ k other, w.phase k = .listening other → entry path ≠ entry other) →
      ∀ k other, k ≠ j → (w.phase k).claim = some other → entry path ≠ entry other := by
    intro j phase path busy place others silent k other mover claims same
    rcases Phase.busy_of_claim claims with second | listening
    · exact mover (exclusive k j other path (by rw [others k mover, second]) (by rw [place, busy])
        same.symm)
    · exact silent k other listening same
  cases step with
  | found _ place named there | missed _ place named =>
      exact apart.goes (fun _ own => by cases own) fun _ own => by cases own
  | fails place => exact apart.goes (fun _ own => by cases own) fun _ own => by cases own
  | @refused j path place short refuses =>
      refine apart.goes ?_ fun _ own => by cases own
      intro _ claims
      cases claims
      refine lone rfl (phase_goes ..)
        (fun k mover => phase_goes_of_ne _ _ mover) ?_
      intro k other listening same
      have accepts : w.connect (entry other) = .ok k :=
        connect_eq_ok.mpr ⟨apart.own k other (by rw [listening]; rfl), by rw [listening]; rfl⟩
      rw [same, accepts] at refuses
      cases refuses
  | @removes j path place =>
      refine (apart.writes _ ?_).goes (fun _ own => by cases own) fun _ own => by cases own
      intro k other holds same
      have mover := apart.claims k j other path (Phase.claim_of_holds holds) (by rw [place]; rfl) same
      rw [mover, place] at holds
      cases holds
  | @binds j path place short free =>
      have unheld : ∀ k other, (w.phase k).holds = some other → entry other ≠ entry path := by
        intro k other holds same
        have there := apart.own k other holds
        rw [same, free] at there
        cases there
      refine (apart.writes _ unheld).goes ?_ ?_
      · intro _ claims
        cases claims
        refine lone rfl (phase_goes ..)
          (fun k mover => phase_goes_of_ne _ _ mover) ?_
        intro k other listening same
        exact unheld k other (by rw [listening]; rfl) same.symm
      · intro _ own
        cases own
        exact files_writes ..
  | @listens j path place =>
      refine apart.goes ?_ ?_
      · intro _ claims k other mover second same
        cases claims
        exact mover (apart.claims k j other path second (by rw [place]; rfl) same.symm)
      · intro _ own
        cases own
        exact apart.own j path (by rw [place]; rfl)
  | @closes j path place =>
      refine apart.goes ?_ ?_
      · intro _ claims k other mover second same
        cases claims
        exact mover (apart.claims k j other path second (by rw [place]; rfl) same.symm)
      · intro _ own
        cases own
        exact apart.own j path (by rw [place]; rfl)
  | @unlinks j path place =>
      have left : Apart entry (w.goes j .gone) :=
        apart.goes (fun _ own => by cases own) fun _ own => by cases own
      refine left.writes none ?_
      intro k other holds same
      by_cases mover : k = j
      · rw [mover, phase_goes] at holds
        cases holds
      · rw [phase_goes_of_ne _ _ mover] at holds
        exact mover (apart.claims k j other path (Phase.claim_of_holds holds) (by rw [place]; rfl)
          same)

omit [DecidableEq Entry] in
/-- **Then a server that listens holds its path.** -/
theorem held (apart : Apart entry w) (listening : w.phase i = .listening path) :
    w.Held entry i path := by
  refine ⟨apart.own i path (by rw [listening]; rfl), ?_⟩
  intro j other claims same
  exact apart.claims j i other path claims (by rw [listening]; rfl) same

end Apart

end Host

open Host

section Paths

variable [DecidableEq Entry] {entry : Str → Entry} {start w : Host Entry} {i : Nat} {path : Str}

/-- **A server keeps its path**, whatever the servers do, exactly if it holds it: as long as it
listens, the clients that use the path are connected to it. -/
theorem path_kept_iff (started : Started start) (reached : Steps entry start w)
    (listening : w.phase i = .listening path) :
    (∀ z, Steps entry w z → z.phase i = .listening path → z.connects entry path = some i) ↔
      w.Held entry i path := by
  constructor
  · intro kept
    by_contra unheld
    obtain ⟨z, steps, still, lost⟩ := exists_loses listening unheld
    exact lost (kept z steps still)
  · intro held z steps still
    have own := ((held.steps listening steps).2 still).1
    have short := short_of_steps started reached (show (w.phase i).holds = some path by
      rw [listening]
      rfl)
    exact connects_eq_some.mpr ⟨short, own, by rw [still]; rfl⟩

/-- No files and no servers. -/
def nowhere : Host Str where
  files := fun _ => none

/-- A server listens. -/
def lone : Host Str := (nowhere.writes [47] (some (.socket 0))).goes 0 (.listening [47])

theorem lone_held : lone.Held id 0 [47] := by
  refine ⟨rfl, fun j other claims _ => ?_⟩
  by_contra mover
  rw [lone, phase_goes_of_ne _ _ mover] at claims
  cases claims

/-- It keeps its path. -/
theorem path_kept_iff_alone : lone.Held id 0 [47] ∧
    ((∀ z, Steps id lone z → z.phase 0 = .listening [47] → z.connects id [47] = some 0) ↔
      lone.Held id 0 [47]) :=
  ⟨lone_held, path_kept_iff (fun _ => rfl) (attempt_steps (show nowhere.phase 0 = .unopened from rfl)
    (List.cons_ne_nil 47 [])) (show lone.phase 0 = .listening [47] from rfl)⟩

/-- **Servers that are opened and closed one after another keep their paths**: the clients that
use the path of a server that listens are connected to it, and no other server listens at the
path. -/
theorem paths_kept (started : Started start) (run : ExclusiveSteps entry start w)
    (listening : w.phase i = .listening path) :
    w.connects entry path = some i ∧
      ∀ j other, w.phase j = .listening other → entry other = entry path → j = i := by
  have apart : Apart entry w := by
    clear listening
    induction run with
    | refl => exact .of_started started
    | tail _ next ih => exact ih.step next.1 next.2
  have reached : Steps entry start w := run.lift id fun _ _ next => next.1
  have short := short_of_steps started reached (show (w.phase i).holds = some path by
    rw [listening]
    rfl)
  refine ⟨connects_eq_some.mpr ⟨short, (apart.held listening).1, by rw [listening]; rfl⟩, ?_⟩
  intro j other second same
  exact (apart.held listening).2 j other (by rw [second]; rfl) same

theorem lone_steps : ExclusiveSteps id nowhere lone := by
  have exclusive : ∀ {w : Host Str}, (∀ i, i ≠ 0 → (w.phase i).busy = none) →
      w.Exclusive id := by
    intro w free i j path other first second _
    by_cases one : i = 0
    · by_cases two : j = 0
      · exact one.trans two.symm
      · rw [free j two] at second
        cases second
    · rw [free i one] at first
      cases first
  have others : ∀ {w : Host Str} {phase : Phase}, (∀ i, i ≠ 0 → (w.phase i).busy = none) →
      ∀ i, i ≠ 0 → ((w.goes 0 phase).phase i).busy = none :=
    fun free i mover => by rw [phase_goes_of_ne _ _ mover, free i mover]
  have free : ∀ i, i ≠ 0 → (nowhere.phase i).busy = none := fun _ _ => rfl
  have missed : Step id nowhere _ := .missed [47] (show nowhere.phase 0 = .unopened from rfl) (by simp)
  have binds : Step id (nowhere.goes 0 (.absent [47])) _ := .binds (phase_goes ..) (by simp) rfl
  have listens : Step id ((nowhere.writes [47] (some (.socket 0))).goes 0 (.bound [47])) _ :=
    .listens (phase_goes ..)
  rw [writes_goes, goes_goes] at binds
  rw [goes_goes] at listens
  exact .tail (.tail (.single ⟨missed, exclusive (others free)⟩) ⟨binds, exclusive (others free)⟩)
    ⟨listens, exclusive (others free)⟩

theorem paths_kept_alone : lone.connects id [47] = some 0 :=
  (paths_kept (fun _ => rfl) lone_steps (show lone.phase 0 = .listening [47] from rfl)).1

/-- **Two servers can take one path**, when both find a file at which nobody listens before
either has removed it. The clients are connected to one of them, and when the other one is
destroyed they are connected to none. -/
theorem path_lost {j : Nat} (distinct : i ≠ j) (first : w.phase i = .unopened)
    (second : w.phase j = .unopened) (named : path ≠ []) (short : path.length < 108)
    (stale : w.connect (entry path) = .error .refused) :
    ∃ y z, Steps entry w y ∧ y.phase i = .listening path ∧ y.phase j = .listening path ∧
      y.connects entry path = some j ∧
      Steps entry y z ∧ z.phase j = .listening path ∧ z.connects entry path = none := by
  -- Both are refused, and then one after the other removes the file and binds its socket.
  have one : Steps entry w (w.goes i (.refused path)) := refused_steps first named short stale
  have two := @refused_steps Entry _ entry (w.goes i (.refused path)) j path
    ((phase_goes_of_ne _ _ distinct.symm).trans second) named short (connect_goes stale rfl i)
  have three := @removes_steps Entry _ entry ((w.goes i (.refused path)).goes j (.refused path)) i
    path ((phase_goes_of_ne _ _ distinct).trans (phase_goes ..)) short
  generalize middle : ((((w.goes i (.refused path)).goes j (.refused path)).writes (entry path)
    (some (.socket i))).goes i (.listening path)) = x at three
  have listens : x.phase i = .listening path := by rw [← middle, phase_goes]
  have still : x.phase j = .refused path := by
    rw [← middle, phase_goes_of_ne _ _ distinct.symm, phase_writes, phase_goes]
  have four := @removes_steps _ _ entry _ _ _ still short
  have both : ((x.writes (entry path) (some (.socket j))).goes j (.listening path)).phase i =
      .listening path := (phase_goes_of_ne _ _ distinct).trans listens
  refine ⟨_, _, ((one.trans two).trans three).trans four, both, phase_goes .., ?_,
    destroy_steps both, ?_, ?_⟩
  · refine connects_eq_some.mpr ⟨short, ?_, by rw [phase_goes]; rfl⟩
    rw [files_goes, files_writes]
  · rw [destroy, phase_writes, phase_goes_of_ne _ _ distinct.symm, phase_goes]
  · refine Option.eq_none_iff_forall_ne_some.mpr fun k connects => ?_
    have there := (connects_eq_some.mp connects).2.1
    rw [destroy, files_writes] at there
    cases there

/-- A file that is no socket is enough. -/
theorem path_lost_other : ∃ y z : Host Str, y.connects id [47] = some 1 ∧ Steps id y z ∧
    z.phase 1 = .listening [47] ∧ z.connects id [47] = none := by
  obtain ⟨y, z, -, -, -, connects, steps, listening, lost⟩ :=
    path_lost (w := { files := fun _ => some .other }) Nat.zero_ne_one rfl rfl
      (List.cons_ne_nil 47 []) (by decide) (show Host.connect _ (id [47]) = _ from rfl)
  exact ⟨y, z, connects, steps, listening, lost⟩

end Paths

end Hyprwire.Server
