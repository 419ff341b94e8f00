import Hyprwire.Client.Dispatch

/-!
# The time of a handshake

Before the handshake is done, `dispatchEvents(true)` gives `poll` the time that is left of
`HANDSHAKE_MAX_MS`. The time is counted from `m_handshakeBegin`, which is the epoch of the
clock until `waitForHandshake` sets it, and it becomes negative when more has passed.
`poll` waits without an end then.

Time passes in `poll` and in what is done between two polls (`Step`). A timeout lies
between zero and the maximum when it is taken in time (`handshakeTimeout_mem_iff`), and in
a run in which every one is, `waitForHandshake` has returned by the maximum and the time
spent outside of `poll` (`handshake_timeouts`).
-/

set_option autoImplicit false

namespace Hyprwire.Client.Timeouts

open Cpp Wire Object

/-! ## Timeouts -/

/-- `HANDSHAKE_MAX_MS`. -/
def handshakeMaxMs : ℤ := 5000

/-- The nanoseconds of a millisecond. -/
def nanos : ℤ := 1000000

/-- `MAX_MS`: what is left, cut to milliseconds towards zero. The readings of the clock are
in nanoseconds. -/
def maxMs (handshakeBegin now : ℤ) : ℤ :=
  (handshakeMaxMs * nanos - (now - handshakeBegin)).tdiv nanos

/-- The argument of `poll`, which is an `int`. -/
def handshakeTimeout (handshakeBegin now : ℤ) : ℤ := (maxMs handshakeBegin now).bmod (2 ^ 32)

/-- Less than a millisecond more than the maximum has passed. -/
def InTime (handshakeBegin now : ℤ) : Prop :=
  now - handshakeBegin < (handshakeMaxMs + 1) * nanos

/-- A time is cut to the milliseconds that are between zero and it. -/
theorem tdiv_nanos (time : ℤ) :
    0 ≤ time ∧ time.tdiv nanos * nanos ≤ time ∧ time < (time.tdiv nanos + 1) * nanos ∨
      time < 0 ∧ time ≤ time.tdiv nanos * nanos ∧ (time.tdiv nanos - 1) * nanos < time := by
  rcases lt_or_ge time 0 with negative | nonneg
  · have cut : time.tdiv nanos = -(-time / nanos) := by
      rw [← Int.tdiv_eq_ediv_of_nonneg (by omega), Int.neg_tdiv, neg_neg]
    refine .inr ⟨negative, ?_⟩
    rw [cut]
    simp only [nanos]
    omega
  · have cut : time.tdiv nanos = time / nanos := Int.tdiv_eq_ediv_of_nonneg nonneg
    refine .inl ⟨nonneg, ?_⟩
    rw [cut]
    simp only [nanos]
    omega

/-- An `int` keeps what it holds. -/
theorem bmod_of_int {n : ℤ} (low : -2 ^ 31 ≤ n) (high : n < 2 ^ 31) : n.bmod (2 ^ 32) = n := by
  rw [Int.bmod_def]
  split <;> omega

/-- What is taken in time is what is left, and not negative. -/
theorem InTime.timeout {handshakeBegin now : ℤ} (inTime : InTime handshakeBegin now)
    (le : handshakeBegin ≤ now) :
    0 ≤ handshakeTimeout handshakeBegin now ∧
      handshakeTimeout handshakeBegin now ≤ handshakeMaxMs ∧
      (handshakeTimeout handshakeBegin now = 0 ∨
        now + handshakeTimeout handshakeBegin now * nanos ≤
          handshakeBegin + handshakeMaxMs * nanos) := by
  have cut := tdiv_nanos (handshakeMaxMs * nanos - (now - handshakeBegin))
  have value : handshakeTimeout handshakeBegin now =
      (handshakeMaxMs * nanos - (now - handshakeBegin)).tdiv nanos := by
    refine bmod_of_int ?_ ?_ <;>
      simp only [maxMs, InTime, handshakeMaxMs, nanos] at cut inTime ⊢ <;> omega
  rw [value]
  simp only [InTime, handshakeMaxMs, nanos] at cut inTime ⊢
  omega

/-- **A timeout lies between zero and the maximum** when it is taken in time, and not
otherwise, as long as an `int` holds the time that has passed. -/
theorem handshakeTimeout_mem_iff {handshakeBegin now : ℤ} (le : handshakeBegin ≤ now)
    (recent : now - handshakeBegin < 2 ^ 31 * nanos) :
    (0 ≤ handshakeTimeout handshakeBegin now ∧
      handshakeTimeout handshakeBegin now ≤ handshakeMaxMs) ↔ InTime handshakeBegin now := by
  constructor
  · intro between
    have cut := tdiv_nanos (handshakeMaxMs * nanos - (now - handshakeBegin))
    have value : handshakeTimeout handshakeBegin now =
        (handshakeMaxMs * nanos - (now - handshakeBegin)).tdiv nanos := by
      refine bmod_of_int ?_ ?_ <;>
        simp only [maxMs, handshakeMaxMs, nanos] at cut recent ⊢ <;> omega
    rw [value] at between
    simp only [InTime, handshakeMaxMs, nanos] at cut between ⊢
    omega
  · intro inTime
    have bounds := inTime.timeout le
    exact ⟨bounds.1, bounds.2.1⟩

/-! ## Waiting -/

/-- A call of `poll`: when it was made, and its timeout. -/
structure Poll where
  since : ℤ
  timeout : ℤ

/-- A client before its handshake is done: the clock, `m_handshakeBegin`, when the
`waitForHandshake` in progress was called, the time that has passed outside of `poll` since
then, and the `poll` it is in. -/
structure Waiting where
  client : CClientSocket
  now : ℤ
  handshakeBegin : ℤ
  called : Option ℤ
  busy : ℤ
  poll : Option Poll

/-- A socket that has been opened at a reading of the clock. -/
def Waiting.opened (now : Nat) : Waiting where
  client := .opened
  now := now
  handshakeBegin := 0
  called := none
  busy := 0
  poll := none

/-- What happens in a step. -/
inductive Event where
  | waits
  | dispatches
  | passes
  | expires
  | arrives
  | handles
  | returns

/-- One step. -/
inductive Step (impls : Impls) (s : Waiting) : Event → Waiting → Prop
  /-- `waitForHandshake` is called. -/
  | waitForHandshake (outside : s.poll = none) :
      Step impls s .waits { s with handshakeBegin := s.now, called := some s.now, busy := 0 }
  /-- `dispatchEvents(true)` reads the clock and polls. -/
  | dispatchEvents (outside : s.poll = none) (clean : s.client.error = false)
      (undone : s.client.handshakeDone = false) :
      Step impls s .dispatches
        { s with poll := some ⟨s.now, handshakeTimeout s.handshakeBegin s.now⟩ }
  /-- A negative timeout has no end. -/
  | passes {poll : Poll} {time : ℤ} (inside : s.poll = some poll) (forward : 0 ≤ time)
      (until_ : poll.timeout < 0 ∨ s.now + time ≤ poll.since + poll.timeout * nanos) :
      Step impls s .passes { s with now := s.now + time }
  /-- `poll` returns 0. -/
  | expires {poll : Poll} (inside : s.poll = some poll)
      (due : s.now = poll.since + poll.timeout * nanos) :
      Step impls s .expires
        { s with poll := none, client := s.client.disconnectOnError, called := none }
  /-- `poll` returns before that. -/
  | arrives {poll : Poll} (inside : s.poll = some poll) :
      Step impls s .arrives { s with poll := none }
  /-- A message is handled, or the application does something else. -/
  | handles {client : CClientSocket} {time : ℤ} (outside : s.poll = none) (forward : 0 ≤ time)
      (acts : Client.Run impls anyAct s.client client) :
      Step impls s .handles { s with client, now := s.now + time, busy := s.busy + time }
  /-- The loop ends: the handshake is done, or there is an error, or a dispatch failed. -/
  | returns (outside : s.poll = none) : Step impls s .returns { s with called := none }

/-- A run of steps, each allowed in the state it meets. -/
inductive Run (impls : Impls) (allowed : Waiting → Event → Prop) (start : Waiting) :
    Waiting → Prop
  | refl : Run impls allowed start start
  | step {s next : Waiting} {event : Event} (run : Run impls allowed start s)
      (may : allowed s event) (steps : Step impls s event next) : Run impls allowed start next

/-- Every step is allowed. -/
def anyEvent (_ : Waiting) (_ : Event) : Prop := True

theorem Run.mono {impls : Impls} {allowed weaker : Waiting → Event → Prop} {start s : Waiting}
    (run : Run impls allowed start s) (imp : ∀ s event, allowed s event → weaker s event) :
    Run impls weaker start s := by
  induction run with
  | refl => exact .refl
  | step _ may steps ih => exact ih.step (imp _ _ may) steps

/-- The clock is read in time. -/
def ReadInTime (s : Waiting) (event : Event) : Prop :=
  event = .dispatches → InTime s.handshakeBegin s.now

/-- Every timeout lies between zero and the maximum, and a `waitForHandshake` in progress
was called no longer ago than the maximum and the time spent outside of `poll`. -/
structure Bounded (s : Waiting) : Prop where
  timeout : ∀ poll, s.poll = some poll → 0 ≤ poll.timeout ∧ poll.timeout ≤ handshakeMaxMs
  returned : ∀ since, s.called = some since → s.now ≤ since + handshakeMaxMs * nanos + s.busy

/-! ## What every step keeps -/

/-- What holds of a client whose timeouts have been taken in time. -/
structure Timely (s : Waiting) : Prop where
  begun : s.handshakeBegin ≤ s.now
  started : ∀ since, s.called = some since → s.handshakeBegin = since
  busy : 0 ≤ s.busy
  bounded : Bounded s
  /-- A `poll` ends before the bound. -/
  ends : ∀ poll, s.poll = some poll → s.now ≤ poll.since + poll.timeout * nanos ∧
    ∀ since, s.called = some since →
      poll.since + poll.timeout * nanos ≤ since + handshakeMaxMs * nanos + s.busy

/-- Nothing is asked of what is not there. -/
theorem of_none {α : Type} {P : α → Prop} {o : Option α} (none : o = none) :
    ∀ a, o = some a → P a := by
  intro a some_
  cases none.symm.trans some_

theorem timely_opened (now : Nat) : Timely (.opened now) where
  begun := Int.natCast_nonneg now
  started := of_none rfl
  busy := Int.le_refl 0
  bounded := ⟨of_none rfl, of_none rfl⟩
  ends := of_none rfl

/-- **A step that is taken in time keeps the bounds.** -/
theorem Timely.step {impls : Impls} {s next : Waiting} {event : Event} (timely : Timely s)
    (may : ReadInTime s event) (steps : Step impls s event next) : Timely next := by
  have begun := timely.begun
  have busy := timely.busy
  cases steps with
  | waitForHandshake outside =>
      refine ⟨Int.le_refl _, fun _ same => Option.some.inj same, Int.le_refl 0,
        ⟨of_none outside, ?_⟩, of_none outside⟩
      intro since same
      cases same
      simp only [handshakeMaxMs, nanos]
      omega
  | dispatchEvents outside clean undone =>
      obtain ⟨low, high, ends⟩ := (may rfl).timeout begun
      refine ⟨begun, timely.started, busy, ⟨?_, timely.bounded.returned⟩, ?_⟩
      · intro poll same
        cases same
        exact ⟨low, high⟩
      · intro poll same
        cases same
        refine ⟨?_, ?_⟩
        · simp only [nanos]
          omega
        · intro since called
          have start := timely.started since called
          have bound := timely.bounded.returned since called
          simp only at called ⊢
          rcases ends with zero | ends
          · rw [zero]
            omega
          · omega
  | @passes poll time inside forward until_ =>
      obtain ⟨low, high⟩ := timely.bounded.timeout poll inside
      have before : s.now + time ≤ poll.since + poll.timeout * nanos :=
        until_.resolve_left (by omega)
      refine ⟨by simp only; omega, timely.started, busy, ⟨timely.bounded.timeout, ?_⟩, ?_⟩
      · intro since called
        exact before.trans ((timely.ends poll inside).2 since called)
      · intro other same
        cases inside.symm.trans same
        exact ⟨before, (timely.ends poll inside).2⟩
  | expires inside due =>
      exact ⟨begun, of_none rfl, busy, ⟨of_none rfl, of_none rfl⟩, of_none rfl⟩
  | arrives inside =>
      exact ⟨begun, timely.started, busy, ⟨of_none rfl, timely.bounded.returned⟩, of_none rfl⟩
  | @handles client time outside forward acts =>
      refine ⟨by simp only; omega, timely.started, by simp only; omega,
        ⟨timely.bounded.timeout, ?_⟩, of_none outside⟩
      intro since called
      have bound := timely.bounded.returned since called
      simp only
      omega
  | returns outside =>
      exact ⟨begun, of_none rfl, busy, ⟨timely.bounded.timeout, of_none rfl⟩, of_none outside⟩

/-- A server that falls silent lets the `poll` expire, and with it `waitForHandshake` return. -/
theorem Timely.expires {s : Waiting} (impls : Impls) (timely : Timely s) {poll : Poll}
    (inside : s.poll = some poll) :
    ∃ late ended, Step impls s .passes late ∧ Step impls late .expires ended ∧
      ended.called = none := by
  have before := (timely.ends poll inside).1
  refine ⟨_, _, @Step.passes impls s poll (poll.since + poll.timeout * nanos - s.now) inside
    (by omega) (.inr (by omega)), .expires inside ?_, rfl⟩
  simp only
  omega

/-- **A handshake that is polled for in time has timeouts between zero and the maximum**, and
`waitForHandshake` has returned by the maximum and the time spent outside of `poll`, also
when the server falls silent. -/
theorem handshake_timeouts {impls : Impls} {now : Nat} {s : Waiting}
    (run : Run impls ReadInTime (.opened now) s) :
    Bounded s ∧ ∀ poll, s.poll = some poll →
      ∃ late ended, Step impls s .passes late ∧ Step impls late .expires ended ∧
        ended.called = none := by
  have timely : Timely s := by
    induction run with
    | refl => exact timely_opened now
    | step _ may steps ih => exact ih.step may steps
  exact ⟨timely.bounded, fun _ inside => timely.expires impls inside⟩

/-! ## A server that answers late -/

/-- A client that has called `waitForHandshake` at a reading of the clock, and polls. -/
def polling (now : Nat) : Waiting where
  client := .opened
  now := now
  handshakeBegin := now
  called := some now
  busy := 0
  poll := some ⟨now, handshakeTimeout now now⟩

theorem polling_run (now : Nat) : Run [] ReadInTime (.opened now) (polling now) := by
  refine .step (.step .refl (fun other => ?_) (.waitForHandshake rfl)) (fun _ => ?_)
    (.dispatchEvents rfl rfl rfl)
  · cases other
  · rw [InTime, sub_self]
    decide

theorem handshake_timeouts_polling : Bounded (polling 7) := (handshake_timeouts (polling_run 7)).1

/-- A message comes shortly before the end and is handled shortly after it, and the next
`poll` has no end. -/
theorem not_bounded : ¬ ∀ s, Run [] anyEvent (.opened 0) s → Bounded s := by
  intro all
  have first : Run [] anyEvent (.opened 0) (polling 0) := (polling_run 0).mono fun _ _ _ => trivial
  have passed := first.step trivial
    (@Step.passes [] (polling 0) ⟨0, handshakeTimeout 0 0⟩ (4999 * nanos) rfl (by decide)
      (.inr (by decide)))
  have arrived := passed.step trivial (.arrives rfl)
  have handled := arrived.step trivial (@Step.handles [] _ .opened (2 * nanos) rfl (by decide) .refl)
  have polled := handled.step trivial (.dispatchEvents rfl rfl rfl)
  exact absurd ((all _ polled).timeout _ rfl).1 (by decide)

end Hyprwire.Client.Timeouts
