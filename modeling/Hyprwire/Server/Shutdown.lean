import Hyprwire.Cpp.Trail
import Hyprwire.Server.PollThread

/-!
# The end of the poll thread

The destructor of the server socket clears `m_threadCanPoll` and `m_pollEvent`, writes to the
exit pipe, notifies the condition variable and joins the poll thread, and locks nothing for it.
`Closing` is an `ExportedLoop` with the destructor and with all places of the poll thread at which
this matters: the two tests of `m_threadCanPoll`, and the test of the predicate of `wait_for`,
which comes before the thread blocks. Up to the destructor it is the exported loop
(`Closing.Step.exported`).

The destructor returns whatever the order of the steps (`shutdown_returns`). But the event can be
set behind the destructor's back, and its notification can come before the thread blocks. Then
nothing but the five seconds of `wait_for` ends the wait, and that can happen exactly if the
thread was past its test of `m_threadCanPoll` and had not blocked when the destructor began
(`shutdown_waits_iff`).
-/

set_option autoImplicit false

namespace Hyprwire.Server

open Cpp

variable {α : Type}

/-! ## The destructor and the thread -/

/-- Where the poll thread is. -/
inductive Position where
  /-- before the condition of the loop -/
  | starting
  /-- behind it, before it locks `m_pollmtx` -/
  | entering
  /-- in `poll`, with the clients in its table -/
  | polling (snapshot : List Nat)
  /-- behind `poll`, before it tests `m_threadCanPoll` -/
  | polled
  /-- behind the test -/
  | announcing
  /-- in `wait_for`, before it looks at `m_pollEvent` -/
  | testing
  /-- behind that, before it blocks -/
  | blocking
  | blocked
  | returned
  deriving DecidableEq, Repr

namespace Position

/-- Where the thread is for the exported loop. -/
def poller : Position → Option Poller
  | starting | entering => some .starting
  | polling snapshot => some (.polling snapshot)
  | polled | announcing => some .polled
  | testing | blocking | blocked => some .waiting
  | returned => none

/-- The thread holds `m_exportPollMtx`. -/
def locks : Position → Bool
  | testing | blocking => true
  | _ => false

/-- The thread was notified. -/
def notified : Position → Position
  | blocked => testing
  | position => position

/-- The steps that the thread has at most before it returns, or waits for the five seconds, when
`m_threadCanPoll` is cleared. -/
def distance : Position → Nat
  | announcing => 5
  | testing => 4
  | entering | blocking => 3
  | polling _ | blocked => 2
  | starting | polled => 1
  | returned => 0

/-- How often the thread waits for the five seconds. -/
def waits : Position → Nat
  | announcing | testing | blocking | blocked => 1
  | _ => 0

@[simp] theorem notified_poller (position : Position) :
    position.notified.poller = position.poller := by
  cases position <;> rfl

/-- A thread that is not blocked is not notified. -/
theorem notified_of_ne {position : Position} (awake : position ≠ .blocked) :
    position.notified = position := by
  cases position with
  | blocked => exact absurd rfl awake
  | _ => rfl

theorem notified_eq_iff {position place : Position} (other : place ≠ .testing ∧ place ≠ .blocked) :
    position.notified = place ↔ position = place := by
  by_cases blocked : position = .blocked
  · subst blocked
    exact iff_of_false other.1.symm other.2.symm
  · rw [notified_of_ne blocked]

theorem notified_eq_returned {position : Position} :
    position.notified = .returned ↔ position = .returned :=
  notified_eq_iff (by decide)

theorem notified_eq_announcing {position : Position} :
    position.notified = .announcing ↔ position = .announcing :=
  notified_eq_iff (by decide)

theorem notified_eq_blocking {position : Position} :
    position.notified = .blocking ↔ position = .blocking :=
  notified_eq_iff (by decide)

theorem distance_notified (position : Position) :
    position.notified.distance ≤ position.distance + 2 := by
  by_cases blocked : position = .blocked
  · subst blocked
    exact Nat.le_refl _
  · rw [notified_of_ne blocked]
    exact Nat.le_add_right _ _

theorem waits_notified (position : Position) : position.notified.waits = position.waits := by
  cases position <;> rfl

theorem notified_ne_blocked {position : Position} : position.notified ≠ .blocked := by
  by_cases blocked : position = .blocked
  · subst blocked
    decide
  · rwa [notified_of_ne blocked]

end Position

/-- Where the destructor is. -/
inductive Closer where
  /-- it has not been called -/
  | outside
  /-- before it clears `m_pollEvent` -/
  | clearing
  /-- before it writes to the exit pipe -/
  | writing
  /-- before `notify_all` -/
  | notifying
  /-- in `join` -/
  | joining
  | joined
  deriving DecidableEq, Repr

/-- The steps that are left of the destructor, and those of the thread that it notifies. -/
def Closer.distance : Closer → Nat
  | outside | clearing => 6
  | writing => 5
  | notifying => 4
  | joining => 1
  | joined => 0

/-- An exported loop with the places of its thread, `m_threadCanPoll`, the destructor and the
number of bytes in the exit pipe. -/
structure Closing (α : Type) where
  loop : ExportedLoop α
  position : Position := .starting
  canPoll : Bool := true
  closer : Closer := .outside
  exit : Nat := 0

/-- Who makes a step of the exported loop. -/
inductive Maker where
  | application
  | thread
  | kernel
  deriving DecidableEq, Repr

def Label.maker : Label → Maker
  | .scans | .found | .interrupted | .announces | .notified | .timeout => .thread
  | .connects | .sends => .kernel
  | _ => .application

/-- What a step is. -/
inductive Move where
  | others (label : Label)
  | checks
  | scans
  | found
  | interrupted
  | rechecks
  | announces
  | tests
  | blocks
  | wakes
  | timeout
  | begins
  | clears
  | writes
  | notifies
  | joins
  deriving DecidableEq, Repr

/-- A step that the thread and the destructor do not make of themselves: one of the others, or the
waking of a thread that nobody has notified. -/
def Move.outer : Move → Bool
  | .others _ | .wakes => true
  | _ => false

/-- A step that comes if nothing else does. -/
def Move.sure (move : Move) : Bool := !move.outer && move != .interrupted

/-- The steps of the thread and of the destructor, and those of the others around them. -/
inductive Closing.Step (cfg : Config α) (x : Closing α) : Move → Closing α → Prop
  -- the application, up to the destructor, and the kernel
  | others {label : Label} {loop : ExportedLoop α} (step : Server.Step cfg x.loop label loop)
      (other : label.maker = .kernel ∨ label.maker = .application ∧ x.closer = .outside)
      (free : label = .handled → x.position.locks = false) :
      Step cfg x (.others label) { x with
        loop
        position := if label = .handled then x.position.notified else x.position }
  -- the poll thread
  | checks (place : x.position = .starting) :
      Step cfg x .checks { x with position := if x.canPoll then .entering else .returned }
  | scans (place : x.position = .entering) (free : x.loop.caller.locks = false) :
      Step cfg x .scans { x with
        loop := { x.loop with poller := .polling x.loop.snapshot }
        position := .polling x.loop.snapshot }
  | found {snapshot : List Nat} (place : x.position = .polling snapshot)
      (ready : x.loop.Ready snapshot ∨ 0 < x.exit) :
      Step cfg x .found { x with loop := { x.loop with poller := .polled }, position := .polled }
  | interrupted {snapshot : List Nat} (place : x.position = .polling snapshot) :
      Step cfg x .interrupted
        { x with loop := { x.loop with poller := .polled }, position := .polled }
  | rechecks (place : x.position = .polled) :
      Step cfg x .rechecks { x with position := if x.canPoll then .announcing else .returned }
  | announces (place : x.position = .announcing) :
      Step cfg x .announces { x with
        loop := { x.loop with
          pollEvent := true, exported := x.loop.exported + 1, poller := .waiting }
        position := .testing }
  | tests (place : x.position = .testing) :
      Step cfg x .tests { x with
        loop := { x.loop with poller := if x.loop.pollEvent then .waiting else .starting }
        position := if x.loop.pollEvent then .blocking else .starting }
  | blocks (place : x.position = .blocking) : Step cfg x .blocks { x with position := .blocked }
  -- A condition variable may wake a thread that nobody has notified.
  | wakes (place : x.position = .blocked) : Step cfg x .wakes { x with position := .testing }
  | timeout (place : x.position = .blocked) :
      Step cfg x .timeout
        { x with loop := { x.loop with poller := .starting }, position := .starting }
  -- the destructor
  | begins (place : x.closer = .outside) (idle : x.loop.caller = .idle) :
      Step cfg x .begins { x with canPoll := false, closer := .clearing }
  | clears (place : x.closer = .clearing) :
      Step cfg x .clears
        { x with loop := { x.loop with pollEvent := false }, closer := .writing }
  | writes (place : x.closer = .writing) :
      Step cfg x .writes { x with exit := x.exit + 1, closer := .notifying }
  | notifies (place : x.closer = .notifying) :
      Step cfg x .notifies { x with position := x.position.notified, closer := .joining }
  | joins (place : x.closer = .joining) (returned : x.position = .returned) :
      Step cfg x .joins { x with closer := .joined }

namespace Closing

/-- What holds of the thread and the destructor in every run. -/
structure Sound (x : Closing α) : Prop where
  poller : x.position = .returned ∨ x.position.poller = some x.loop.poller
  canPoll : x.canPoll = true ↔ x.closer = .outside
  returned : x.position = .returned → x.canPoll = false
  idle : x.closer ≠ .outside → x.loop.caller = .idle
  event : x.position = .blocking ∨ x.position = .blocked →
    x.closer = .outside ∨ x.closer = .clearing → x.loop.pollEvent = true
  silent : x.closer = .outside → x.exit = 0
  told : x.closer = .notifying ∨ x.closer = .joining ∨ x.closer = .joined → 0 < x.exit
  joined : x.closer = .joined → x.position = .returned

namespace Sound

variable {cfg : Config α} {x y : Closing α} {move : Move}

theorem of_started {loop : ExportedLoop α} (started : Started loop) : Sound { loop } where
  poller := .inr (congrArg some started.starting.symm)
  canPoll := ⟨fun _ => rfl, fun _ => rfl⟩
  returned := fun same => by cases same
  idle := fun same => absurd rfl same
  event := fun places => by rcases places with same | same <;> cases same
  silent := fun _ => rfl
  told := fun places => by rcases places with same | same | same <;> cases same
  joined := fun same => by cases same

/-- A step of the application or of the kernel leaves the poll thread where it is. -/
theorem poller_of_other {x y : ExportedLoop α} {label : Label} (step : Server.Step cfg x label y)
    (other : label.maker ≠ .thread) : y.poller = x.poller := by
  cases step <;> first | rfl | exact absurd rfl other

/-- A step of the kernel leaves the application and the event as they are. -/
theorem caller_of_kernel {x y : ExportedLoop α} {label : Label} (step : Server.Step cfg x label y)
    (kernel : label.maker = .kernel) : y.caller = x.caller ∧ y.pollEvent = x.pollEvent := by
  cases step <;> first | exact ⟨rfl, rfl⟩ | cases kernel

/-- The event is only cleared when the application has handled it. -/
theorem pollEvent_of_other {x y : ExportedLoop α} {label : Label} (step : Server.Step cfg x label y)
    (other : label.maker ≠ .thread) (handled : label ≠ .handled) : y.pollEvent = x.pollEvent := by
  cases step <;> first | rfl | exact absurd rfl handled | exact absurd rfl other

/-- The thread has moved. -/
theorem moved (sound : Sound x) (running : x.position ≠ .returned) {loop : ExportedLoop α}
    {position : Position} (poller : position = .returned ∨ position.poller = some loop.poller)
    (caller : loop.caller = x.loop.caller) (returned : position = .returned → x.canPoll = false)
    (event : position = .blocking ∨ position = .blocked →
      x.closer = .outside ∨ x.closer = .clearing → loop.pollEvent = true) :
    Sound { x with loop, position } where
  poller := poller
  canPoll := sound.canPoll
  returned := returned
  idle := fun begun => caller.trans (sound.idle begun)
  event := event
  silent := sound.silent
  told := sound.told
  joined := fun same => absurd (sound.joined same) running

/-- The thread has moved to a place where it does not wait. -/
theorem passed (sound : Sound x) (running : x.position ≠ .returned) {loop : ExportedLoop α}
    {position : Position} (poller : position.poller = some loop.poller)
    (caller : loop.caller = x.loop.caller)
    (elsewhere : position ≠ .returned ∧ position ≠ .blocking ∧ position ≠ .blocked) :
    Sound { x with loop, position } := by
  refine sound.moved running (.inr poller) caller ?_ ?_
  · exact fun same => absurd same elsewhere.1
  · rintro (same | same)
    · exact absurd same elsewhere.2.1
    · exact absurd same elsewhere.2.2

/-- Whether the thread may return at a test of `m_threadCanPoll`. -/
theorem tested (sound : Sound x) (running : x.position ≠ .returned) {next : Position}
    (poller : next.poller = some x.loop.poller)
    (elsewhere : next ≠ .returned ∧ next ≠ .blocking ∧ next ≠ .blocked) :
    Sound { x with position := if x.canPoll then next else .returned } := by
  by_cases can : x.canPoll = true
  · rw [if_pos can]
    exact sound.passed running poller rfl elsewhere
  · rw [if_neg can]
    refine sound.moved running (.inl rfl) rfl (fun _ => Bool.eq_false_iff.mpr can) ?_
    rintro (same | same) <;> cases same

/-- **Every step keeps what holds of the thread and the destructor.** -/
theorem step (sound : Sound x) (step : Closing.Step cfg x move y) : Sound y := by
  have lies : ∀ {position}, x.position = position → position ≠ .returned →
      position.poller = some x.loop.poller ∧ x.position ≠ .returned := by
    rintro position rfl running
    exact ⟨sound.poller.resolve_left running, running⟩
  cases step with
  | @others label loop step other free =>
      have foreign : label.maker ≠ .thread := by
        rcases other with kernel | ⟨application, -⟩
        · rw [kernel]
          decide
        · rw [application]
          decide
      have poller := poller_of_other step foreign
      have caller : x.closer ≠ .outside → loop.caller = .idle := by
        intro begun
        have kernel := other.resolve_right fun outside => begun outside.2
        exact (caller_of_kernel step kernel).1.trans (sound.idle begun)
      by_cases handled : label = .handled
      · rw [if_pos handled]
        refine ⟨?_, sound.canPoll, ?_, caller, ?_, sound.silent, sound.told, ?_⟩
        · rw [Position.notified_poller, Position.notified_eq_returned, poller]
          exact sound.poller
        · exact fun same => sound.returned (Position.notified_eq_returned.mp same)
        · rintro (same | same)
          · have locked := free handled
            rw [Position.notified_eq_blocking.mp same] at locked
            cases locked
          · exact absurd same Position.notified_ne_blocked
        · exact fun same => Position.notified_eq_returned.mpr (sound.joined same)
      · rw [if_neg handled]
        refine ⟨?_, sound.canPoll, sound.returned, caller, ?_, sound.silent, sound.told, sound.joined⟩
        · rw [poller]
          exact sound.poller
        · rw [pollEvent_of_other step foreign handled]
          exact sound.event
  | checks place =>
      obtain ⟨poller, running⟩ := lies place (by simp)
      exact sound.tested running poller (by simp)
  | scans place free => exact sound.passed (lies place (by simp)).2 rfl rfl (by simp)
  | found place ready => exact sound.passed (lies place (by simp)).2 rfl rfl (by simp)
  | interrupted place => exact sound.passed (lies place (by simp)).2 rfl rfl (by simp)
  | rechecks place =>
      obtain ⟨poller, running⟩ := lies place (by simp)
      exact sound.tested running poller (by simp)
  | announces place => exact sound.passed (lies place (by simp)).2 rfl rfl (by simp)
  | tests place =>
      obtain ⟨poller, running⟩ := lies place (by simp)
      cases set : x.loop.pollEvent with
      | true => exact sound.moved running (.inr rfl) rfl (fun same => by cases same) fun _ _ => set
      | false => exact sound.passed running rfl rfl (by simp)
  | blocks place =>
      obtain ⟨poller, running⟩ := lies place (by simp)
      exact sound.moved running (.inr poller) rfl (fun same => by cases same)
        fun _ => sound.event (.inl place)
  | wakes place =>
      obtain ⟨poller, running⟩ := lies place (by simp)
      exact sound.passed running poller rfl (by simp)
  | timeout place => exact sound.passed (lies place (by simp)).2 rfl rfl (by simp)
  | begins place idle =>
      refine ⟨sound.poller, by simp, fun _ => rfl, fun _ => idle, fun places _ => ?_, by simp,
        by simp, by simp⟩
      exact sound.event places (.inl place)
  | clears place =>
      have begun : x.closer ≠ .outside := by simp [place]
      refine ⟨sound.poller, ?_, sound.returned, fun _ => sound.idle begun, by simp, by simp, by simp,
        by simp⟩
      simp [sound.canPoll, place]
  | writes place =>
      have begun : x.closer ≠ .outside := by simp [place]
      refine ⟨sound.poller, ?_, sound.returned, fun _ => sound.idle begun, by simp, by simp,
        fun _ => Nat.succ_pos _, by simp⟩
      simp [sound.canPoll, place]
  | notifies place =>
      have begun : x.closer ≠ .outside := by simp [place]
      refine ⟨?_, ?_, ?_, fun _ => sound.idle begun, by simp, by simp,
        fun _ => sound.told (.inl place), by simp⟩
      · rw [Position.notified_poller, Position.notified_eq_returned]
        exact sound.poller
      · simp [sound.canPoll, place]
      · exact fun same => sound.returned (Position.notified_eq_returned.mp same)
  | joins place returned =>
      have begun : x.closer ≠ .outside := by simp [place]
      refine ⟨sound.poller, ?_, sound.returned, fun _ => sound.idle begun, by simp, by simp,
        fun _ => sound.told (.inr (.inl place)), fun _ => returned⟩
      simp [sound.canPoll, place]

/-- It holds in every run. -/
theorem of_trail {loop : ExportedLoop α} {moves : List Move} (started : Started loop)
    (run : Trail (Closing.Step cfg) { loop } moves x) : Sound x :=
  run.invariant (fun _ _ _ _ step sound => sound.step step) (.of_started started)

end Sound

/-- **Up to the destructor the thread is that of the exported loop.** -/
theorem Step.exported {cfg : Config α} {x y : Closing α} {move : Move} (sound : Sound x)
    (outside : x.closer = .outside) (step : Closing.Step cfg x move y) :
    y.loop = x.loop ∨ ∃ label, Server.Step cfg x.loop label y.loop := by
  have lies : ∀ {position poller}, x.position = position → position.poller = some poller →
      x.loop.poller = poller := by
    rintro position poller rfl here
    rcases sound.poller with returned | there
    · rw [returned] at here
      cases here
    · exact Option.some.inj (there.symm.trans here)
  cases step with
  | others step other free => exact .inr ⟨_, step⟩
  | scans place free => exact .inr ⟨.scans, .scans (lies place rfl) free⟩
  | found place ready =>
      refine .inr ⟨.found, .found (lies place rfl) (ready.resolve_right ?_)⟩
      rw [sound.silent outside]
      exact Nat.lt_irrefl 0
  | interrupted place => exact .inr ⟨.interrupted, .interrupted (lies place rfl)⟩
  | announces place => exact .inr ⟨.announces, .announces (lies place rfl)⟩
  | tests place =>
      have waiting := lies place rfl
      cases set : x.loop.pollEvent with
      | true =>
          left
          show { x.loop with poller := .waiting } = x.loop
          rw [← waiting]
      | false => exact .inr ⟨.notified, .notified waiting set⟩
  | timeout place => exact .inr ⟨.timeout, .timeout (lies place rfl)⟩
  | checks | rechecks | blocks | wakes | begins | writes | notifies | joins => exact .inl rfl
  | clears place => cases place.symm.trans outside

/-! ## The destructor returns -/

/-- The steps that are left of the thread and of the destructor. -/
def distance (x : Closing α) : Nat := x.position.distance + x.closer.distance

section Returns

variable {cfg : Config α} {x y : Closing α} {move : Move}

/-- The destructor has begun. -/
structure Ending (x : Closing α) : Prop extends Sound x where
  begun : x.closer ≠ .outside

namespace Ending

theorem step (ending : Ending x) (step : Closing.Step cfg x move y) : Ending y where
  toSound := ending.toSound.step step
  begun := by
    cases step <;> first | exact ending.begun | simp

theorem cannotPoll (ending : Ending x) : x.canPoll = false :=
  Bool.eq_false_iff.mpr fun can => ending.begun (ending.canPoll.mp can)

/-- The application makes no more steps. -/
theorem kernel (ending : Ending x) {label : Label}
    (other : label.maker = .kernel ∨ label.maker = .application ∧ x.closer = .outside) :
    label.maker = .kernel ∧ label ≠ .handled := by
  have kernel := other.resolve_right fun outside => ending.begun outside.2
  refine ⟨kernel, ?_⟩
  rintro rfl
  cases kernel

/-- **Every step leaves fewer of the steps**, but for the outer ones. -/
theorem smaller (ending : Ending x) (step : Closing.Step cfg x move y) :
    y.distance + 1 ≤ x.distance + if move.outer then 3 else 0 := by
  have stops := ending.cannotPoll
  have thread : ∀ {loop : ExportedLoop α} {position more},
      position.distance + 1 ≤ x.position.distance + more →
      distance { x with loop, position } + 1 ≤ x.distance + more := by
    intro loop position more less
    simp only [distance]
    omega
  have closes : ∀ {loop : ExportedLoop α} {closer exit}, closer.distance + 1 ≤ x.closer.distance →
      distance { x with loop, closer, exit } + 1 ≤ x.distance := by
    intro loop closer exit less
    simp only [distance]
    omega
  cases step with
  | others step other free =>
      rw [if_neg (ending.kernel other).2]
      exact thread (Nat.add_le_add_left (Nat.le_add_left 1 2) _)
  | checks place | rechecks place => exact thread (by simp [place, stops, Position.distance])
  | scans place free | found place ready | interrupted place | announces place | blocks place
  | timeout place => exact thread (by simp [place, Position.distance])
  | wakes place => exact thread (by simp [place, Position.distance, Move.outer])
  | tests place =>
      refine thread ?_
      cases set : x.loop.pollEvent <;> simp [place, Position.distance, Move.outer]
  | begins place idle => exact absurd place ending.begun
  | clears place | writes place | joins place returned =>
      exact closes (by simp [place, Closer.distance])
  | notifies place =>
      have more := x.position.distance_notified
      have less : Closer.joining.distance + 3 ≤ x.closer.distance := by
        simp [place, Closer.distance]
      show x.position.notified.distance + Closer.joining.distance + 1 ≤
        x.position.distance + x.closer.distance
      omega

/-- The wait is for five seconds once. -/
theorem fewer (ending : Ending x) (step : Closing.Step cfg x move y) :
    y.position.waits + (if move == .timeout then 1 else 0) ≤ x.position.waits := by
  have stops := ending.cannotPoll
  cases step with
  | others step other free => simp [(ending.kernel other).2]
  | checks place | rechecks place => simp [place, stops, Position.waits]
  | scans place free | found place ready | interrupted place | announces place | blocks place
  | wakes place | timeout place => simp [place, Position.waits]
  | tests place =>
      cases set : x.loop.pollEvent <;> simp [place, Position.waits]
  | begins place idle => exact absurd place ending.begun
  | clears place | writes place | joins place returned => simp
  | notifies place => simp [x.position.waits_notified]

/-- **There is always a step that comes**, until the destructor returns. -/
theorem progress (cfg : Config α) (ending : Ending x) (unjoined : x.closer ≠ .joined) :
    ∃ move y, move.sure = true ∧ Closing.Step cfg x move y := by
  cases place : x.closer with
  | outside => exact absurd place ending.begun
  | clearing => exact ⟨_, _, rfl, .clears place⟩
  | writing => exact ⟨_, _, rfl, .writes place⟩
  | notifying => exact ⟨_, _, rfl, .notifies place⟩
  | joined => exact absurd place unjoined
  | joining =>
      -- What is left is done by the thread. The exit pipe can be read.
      have idle := ending.idle ending.begun
      cases thread : x.position with
      | starting => exact ⟨_, _, rfl, .checks thread⟩
      | entering => exact ⟨_, _, rfl, .scans thread (by rw [idle]; rfl)⟩
      | polling snapshot =>
          exact ⟨_, _, rfl, .found thread (.inr (ending.told (.inr (.inl place))))⟩
      | polled => exact ⟨_, _, rfl, .rechecks thread⟩
      | announcing => exact ⟨_, _, rfl, .announces thread⟩
      | testing => exact ⟨_, _, rfl, .tests thread⟩
      | blocking => exact ⟨_, _, rfl, .blocks thread⟩
      | blocked => exact ⟨_, _, rfl, .timeout thread⟩
      | returned => exact ⟨_, _, rfl, .joins place thread⟩

end Ending

end Returns

end Closing

/-- **The destructor returns.** Once it has begun, at most eleven more steps are made until it has
returned, and three for each that others make, or that wakes the thread for no reason. The five
seconds of `wait_for` are waited for once at most. And until it has returned there is always a
step that comes without the others. -/
theorem shutdown_returns {cfg : Config α} {loop : ExportedLoop α} {x y : Closing α}
    {moves more : List Move} (started : Started loop)
    (run : Trail (Closing.Step cfg) { loop } moves x) (begun : x.closer ≠ .outside)
    (rest : Trail (Closing.Step cfg) x more y) :
    more.length ≤ 11 + 3 * more.countP Move.outer ∧ more.count .timeout ≤ 1 ∧
      (y.closer = .joined ∨ ∃ move z, move.sure = true ∧ Closing.Step cfg y move z) := by
  have ending : x.Ending := ⟨.of_trail started run, begun⟩
  have keeps : ∀ x move y, Closing.Step cfg x move y → x.Ending → y.Ending :=
    fun _ _ _ step ending => ending.step step
  refine ⟨?_, ?_, ?_⟩
  · have most : _ ≤ _ + 3 * more.countP Move.outer :=
      rest.length_le keeps (fun _ _ _ step ending => ending.smaller step) ending
    have thread : x.position.distance ≤ 5 := by
      cases x.position <;> simp [Position.distance]
    have closer : x.closer.distance ≤ 6 := by
      cases x.closer <;> simp [Closer.distance]
    have together : x.distance = x.position.distance + x.closer.distance := rfl
    omega
  · have most : more.count .timeout + _ ≤ _ + 0 * more.countP fun _ => false :=
      rest.countP_le keeps (fun _ _ _ step ending => by simpa using ending.fewer step) ending
    have once : x.position.waits ≤ 1 := by
      cases x.position <;> simp [Position.waits]
    omega
  · by_cases joined : y.closer = .joined
    · exact .inl joined
    · have still := rest.invariant (fun x y move _ => keeps x move y) ending
      exact .inr (still.progress cfg joined)

/-! ## The wait for the five seconds -/

namespace Closing

/-- The destructor waits, and nothing but the five seconds of `wait_for` ends it, if the thread is
not woken for no reason. -/
def Stalled (cfg : Config α) (x : Closing α) : Prop :=
  x.closer = .joining ∧
    ∀ move y, Closing.Step cfg x move y → move = .timeout ∨ move.outer = true

/-- It can come to that, and nothing wakes the thread for no reason before. -/
def CanStall (cfg : Config α) (x : Closing α) : Prop :=
  ∃ more y, Trail (Closing.Step cfg) x more y ∧ .wakes ∉ more ∧ y.Stalled cfg

/-- The thread is past its test of `m_threadCanPoll` and has not blocked, and has not found that the
event is cleared, nor is about to. -/
def Racing (x : Closing α) : Prop :=
  x.position = .announcing ∨ x.position = .testing ∧ x.loop.pollEvent = true ∨
    x.position = .blocking

section Waits

variable {cfg : Config α} {x y : Closing α} {move : Move}

/-- A thread that has blocked after the notification. -/
theorem stalled_of_blocked (blocked : x.position = .blocked) (joining : x.closer = .joining) :
    x.Stalled cfg := by
  refine ⟨joining, ?_⟩
  intro move y step
  cases step with
  | others | wakes => exact .inr rfl
  | timeout => exact .inl rfl
  | begins place | clears place | writes place | notifies place => cases place.symm.trans joining
  | joins _ place | checks place | scans place | found place | interrupted place | rechecks place
  | announces place | tests place | blocks place => cases place.symm.trans blocked

/-- Before a step that is not for no reason. -/
theorem CanStall.before (step : Closing.Step cfg x move y) (unwoken : move ≠ .wakes)
    (later : y.CanStall cfg) : x.CanStall cfg := by
  obtain ⟨more, z, trail, others, stalled⟩ := later
  refine ⟨move :: more, z, .cons step trail, ?_, stalled⟩
  simp only [List.mem_cons, not_or]
  exact ⟨unwoken.symm, others⟩

/-- The whole destructor can come between the test of the predicate and the blocking. -/
theorem canStall_of_blocking (place : x.position = .blocking) (clearing : x.closer = .clearing) :
    x.CanStall cfg := by
  have stays : x.position.notified = .blocking := Position.notified_eq_blocking.mpr place
  refine ⟨_, _, .cons (.clears clearing) (.cons (.writes rfl) (.cons (.notifies rfl)
    (.cons (.blocks stays) .nil))), by decide, stalled_of_blocked rfl rfl⟩

theorem canStall_of_testing (place : x.position = .testing) (set : x.loop.pollEvent = true)
    (clearing : x.closer = .clearing) : x.CanStall cfg := by
  have tests : Closing.Step cfg x .tests _ := .tests place
  exact .before tests (by decide) (canStall_of_blocking (if_pos set) clearing)

/-- **A thread that races with the destructor can miss its notification.** -/
theorem Racing.canStall (racing : x.Racing) (clearing : x.closer = .clearing) :
    x.CanStall cfg := by
  rcases racing with place | ⟨place, set⟩ | place
  · have announces : Closing.Step cfg x .announces _ := .announces place
    exact .before announces (by decide) (canStall_of_testing rfl rfl clearing)
  · exact canStall_of_testing place set clearing
  · exact canStall_of_blocking place clearing

/-- The thread does not wait any more, or is about to be notified. -/
structure Calm (x : Closing α) : Prop extends Ending x where
  calm : ¬ x.Racing
  cleared : x.closer ≠ .clearing → x.loop.pollEvent = false
  unnotified : x.position = .blocked → x.closer ≠ .joining

namespace Calm

/-- When the destructor has just begun, the thread is calm if it does not race with it. -/
theorem of_not_racing (ending : Ending x) (clearing : x.closer = .clearing)
    (calm : ¬ x.Racing) : Calm x where
  toEnding := ending
  calm := calm
  cleared := fun other => absurd clearing other
  unnotified := by simp [clearing]

/-- **A calm thread stays calm**, if nothing wakes it for no reason. -/
theorem step (calm : Calm x) (step : Closing.Step cfg x move y) (unwoken : move ≠ .wakes) :
    Calm y := by
  have ending := calm.toEnding.step step
  have stops := calm.cannotPoll
  have still := calm.calm
  simp only [Racing, not_or, not_and] at still
  obtain ⟨still, tested, unblocking⟩ := still
  cases step with
  | @others label loop step other free =>
      obtain ⟨kernel, unhandled⟩ := calm.kernel other
      have event := (Sound.caller_of_kernel step kernel).2
      rw [if_neg unhandled] at ending ⊢
      refine ⟨ending, ?_, ?_, calm.unnotified⟩
      · simpa only [Racing, event] using calm.calm
      · simpa only [event] using calm.cleared
  | checks place | rechecks place =>
      refine ⟨ending, by simp [Racing, stops], calm.cleared, by simp [stops]⟩
  | scans place free | found place ready | interrupted place | timeout place =>
      exact ⟨ending, by simp [Racing], calm.cleared, by simp⟩
  | announces place => exact absurd place still
  | blocks place => exact absurd place unblocking
  | wakes place => exact absurd rfl unwoken
  | tests place =>
      have clear : x.loop.pollEvent = false := Bool.eq_false_iff.mpr (tested place)
      exact ⟨ending, by simp [Racing, clear], calm.cleared, by simp [clear]⟩
  | begins place idle => exact absurd place calm.begun
  | clears place => exact ⟨ending, by simp [Racing, still, unblocking], fun _ => rfl, by simp⟩
  | writes place =>
      exact ⟨ending, calm.calm, fun _ => calm.cleared (by simp [place]), by simp⟩
  | notifies place =>
      have clear := calm.cleared (by simp [place])
      refine ⟨ending, ?_, fun _ => clear, fun same => absurd same Position.notified_ne_blocked⟩
      rintro (same | ⟨-, set⟩ | same)
      · exact still (Position.notified_eq_announcing.mp same)
      · rw [clear] at set
        cases set
      · exact unblocking (Position.notified_eq_blocking.mp same)
  | joins place returned =>
      exact ⟨ending, calm.calm, fun _ => calm.cleared (by simp [place]), by simp [returned]⟩

/-- A calm thread does not wait for the five seconds while the destructor waits for it. -/
theorem not_stalled (calm : Calm x) : ¬ x.Stalled cfg := by
  rintro ⟨joining, only⟩
  obtain ⟨move, y, sure, step⟩ := calm.progress cfg (by simp [joining])
  rcases only move y step with rfl | outer
  · cases step with
    | timeout place => exact calm.unnotified place joining
  · simp [Move.sure, outer] at sure

end Calm

end Waits

end Closing

/-- The application destroys the socket before the thread does anything. -/
def destroyed : Closing Unit where
  loop := exporting
  canPoll := false
  closer := .clearing

theorem destroyed_trail : Trail (Closing.Step idle) { loop := exporting } [.begins] destroyed :=
  .cons (.begins rfl rfl) .nil

/-- The thread returns at its first test, and the destructor goes on. -/
theorem shutdown_returns_destroyed :
    ∃ y, Trail (Closing.Step idle) destroyed [.clears, .checks] y ∧
      (y.closer = .joined ∨ ∃ move z, move.sure = true ∧ Closing.Step idle y move z) := by
  have clears : Closing.Step idle destroyed .clears _ := .clears rfl
  have trail := Trail.cons clears (.cons (.checks rfl) .nil)
  exact ⟨_, trail, (shutdown_returns exporting_started destroyed_trail (by decide) trail).2.2⟩

/-- **The destructor waits for the five seconds only in a race**: when it has begun, it can come
to wait for the thread to wake by itself exactly if the thread was past its test of
`m_threadCanPoll` and had not blocked. -/
theorem shutdown_waits_iff {cfg : Config α} {loop : ExportedLoop α} {x : Closing α}
    {moves : List Move} (started : Started loop) (run : Trail (Closing.Step cfg) { loop } moves x)
    (clearing : x.closer = .clearing) : x.CanStall cfg ↔ x.Racing := by
  refine ⟨?_, fun racing => racing.canStall clearing⟩
  rintro ⟨more, y, trail, unwoken, stalled⟩
  by_contra calm
  have ending : x.Ending := ⟨.of_trail started run, by simp [clearing]⟩
  have first : x.Calm := .of_not_racing ending clearing calm
  have last : y.Calm := trail.invariant (fun s t move member step calm =>
    calm.step step (fun woken => unwoken (woken ▸ member))) first
  exact last.not_stalled stalled

/-- The application destroys the socket when `poll` has returned and the thread has made its
test. -/
def raced : Closing Unit where
  loop := { exporting with poller := .polled }
  position := .announcing
  canPoll := false
  closer := .clearing

theorem raced_trail : Trail (Closing.Step idle) { loop := exporting }
    [.checks, .scans, .interrupted, .rechecks, .begins] raced :=
  .cons (.checks rfl) (.cons (.scans rfl rfl) (.cons (.interrupted rfl) (.cons (.rechecks rfl)
    (.cons (.begins rfl rfl) .nil))))

/-- Then it can come to the wait. -/
theorem shutdown_waits_iff_raced : raced.CanStall idle :=
  (shutdown_waits_iff exporting_started raced_trail rfl).mpr (.inl rfl)

end Hyprwire.Server
