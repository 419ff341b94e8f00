import Hyprwire.Client.Reentrant

/-!
# Loops that wait

`waitForObject`, `waitForHandshake` and `roundtrip` call `dispatchEvents(true)` until what
they wait for has come. A dispatch returns false in seven ways (`Cause`), and after the
connection has ended every further one does.

The loops of `waitForHandshake` and `roundtrip` are left then. That of `waitForObject` looks
at `m_error` only, which a hang-up and an end of file do not set: with one of these it goes
round for ever, and otherwise every loop returns (`returns_iff`).
-/

set_option autoImplicit false

namespace Hyprwire.Client.Reentrant

open Cpp Wire Object

/-! ## A dispatch that fails -/

/-- Why `dispatchEvents` has returned false. -/
inductive Cause where
  /-- `if (m_error)` -/
  | hadError
  /-- the handshake has timed out -/
  | timedOut
  /-- `POLLHUP` -/
  | hangup
  /-- `data.bad` -/
  | badRead
  /-- `data.data.empty()` -/
  | endOfFile
  /-- `RET != MESSAGE_PARSED_OK` -/
  | malformed
  /-- `!m_error` -/
  | raised
  deriving DecidableEq

/-- The connection has ended, and nothing says so. -/
def Cause.silent : Cause → Bool
  | hangup | endOfFile => true
  | _ => false

/-- Why a dispatch that does not get to `handleMessage` returns false. -/
def Cause.ofPolled (client : CClientSocket) (polled : Polled) : Cause :=
  if client.error then
    .hadError
  else
    match polled with
    | .timedOut => .timedOut
    | .hangup | .nothing => .hangup
    | .readable none => .badRead
    | .readable (some _) => .endOfFile

/-- Why a dispatch that has handled its messages returns false. -/
def Cause.ofResult (result : EMessageParsingResult) : Cause :=
  if result ≠ .parsedOk then .malformed else .raised

/-- A function that waits calls `dispatchEvents(true)`, and that returns false: at once, or
after the messages of a read, in whose listeners anything can happen. -/
inductive Fails (impls : Impls) (heap : Heap) (p : Process) : Cause → Process → Prop
  | polls {polled : Polled} {client : CClientSocket} (calls : p.dispatches = true)
      (begun : begin p.client polled = .returned false client) :
      Fails impls heap p (.ofPolled p.client polled)
        { p with client, frames := returned false p.frames }
  | reads {polled : Polled} {raw : SSocketRawParsedMessage} {q : Process} {batch : Batch}
      {h : Handled (CClientSocket × Option Invocation)} (calls : p.dispatches = true)
      (begun : begin p.client polled = .reads raw)
      (run : Run impls heap anyEvent (p.reading raw) q)
      (top : q.frames = .dispatchEvents p.batches.length false :: p.frames)
      (is : q.batches[p.batches.length]? = some batch)
      (turn : parseTurn (receiver heap) batch.data (batch.state q.client) =
        some (.leave (.ok h)))
      (failed : (finish h.result h.conn.1).1 = false) :
      Fails impls heap p (.ofResult h.result)
        { client := (finish h.result h.conn.1).2
          frames := returned false p.frames
          batches := q.batches.set p.batches.length { batch with handled := h.handled }
          log := q.log ++
            (h.handled.drop batch.handled.length).map (Prod.mk p.batches.length) }

/-- A loop that has called a dispatch which failed returns after finitely many further
iterations, if every call it makes fails from then on: it has been left, or its condition
is false, or it does so after whatever its next call does. -/
inductive Returns (impls : Impls) (heap : Heap) (loop : Frame) (rest : List Frame) :
    Process → Prop
  | left {p : Process} (frames : p.frames = rest) : Returns impls heap loop rest p
  | ends {p : Process} (frames : p.frames = loop :: rest) (done : loop.waits p.client = false) :
      Returns impls heap loop rest p
  | again {p : Process} (frames : p.frames = loop :: rest)
      (each : ∀ cause next, Fails impls heap p cause next → Returns impls heap loop rest next) :
      Returns impls heap loop rest p

/-! ## What a failure leaves behind -/

variable {impls : Impls} {heap : Heap} {p next : Process} {cause : Cause}

/-- What a failure with a cause makes of a client. -/
def Cause.Leaves (cause : Cause) (client after : CClientSocket) : Prop :=
  (cause.silent = true → after = client) ∧ (cause.silent = false → after.error = true)

theorem begin_returned_false {client after : CClientSocket} {polled : Polled}
    (begun : begin client polled = .returned false after) :
    (Cause.ofPolled client polled).Leaves client after := by
  simp only [begin] at begun
  unfold Cause.ofPolled
  split at begun
  · next error =>
      cases begun
      rw [if_pos error]
      exact ⟨fun silent => absurd silent Bool.false_ne_true, fun _ => error⟩
  · next clean =>
      rw [if_neg clean]
      have loud : ∀ {cause : Cause}, cause.silent = false →
          cause.Leaves client client.disconnectOnError := by
        intro cause loud
        exact ⟨fun silent => absurd (loud.symm.trans silent) Bool.false_ne_true, fun _ => rfl⟩
      have silent : ∀ {cause : Cause}, cause.silent = true → cause.Leaves client client := by
        intro cause silent
        exact ⟨fun _ => rfl, fun loud => absurd (loud.symm.trans silent) Bool.false_ne_true⟩
      split at begun
      · split at begun
        · cases begun
        · cases begun
          exact loud rfl
      · cases begun
        exact silent rfl
      · cases begun
      · cases begun
        exact loud rfl
      · split at begun
        · cases begun
          exact silent rfl
        · cases begun

theorem silent_ofResult (result : EMessageParsingResult) :
    (Cause.ofResult result).silent = false := by
  rw [Cause.ofResult]
  split <;> rfl

theorem finish_false {result : EMessageParsingResult} {client : CClientSocket}
    (failed : (finish result client).1 = false) : (finish result client).2.error = true := by
  rw [finish] at failed ⊢
  split at failed <;> rename_i ended
  · rw [if_pos ended]
    rfl
  · rw [if_neg ended]
    simpa using failed

/-- **Every failure but a hang-up and an end of file sets the error**, and these two change
nothing. -/
theorem Fails.effect (fails : Fails impls heap p cause next) :
    next.frames = returned false p.frames ∧ cause.Leaves p.client next.client := by
  cases fails with
  | polls calls begun => exact ⟨rfl, begin_returned_false begun⟩
  | @reads polled raw q batch h calls begun run top is turn failed =>
      refine ⟨rfl, fun silent => ?_, fun _ => finish_false failed⟩
      exact absurd ((silent_ofResult h.result).symm.trans silent) Bool.false_ne_true

/-- A function that waits is not a dispatch. -/
theorem waits_of_dispatches {loop : Frame} {rest : List Frame} (frames : p.frames = loop :: rest)
    (isLoop : loop.number? = none) (calls : p.dispatches = true) :
    loop.waits p.client = true := by
  simp only [Process.dispatches, Process.application, frames, List.head?_cons, Option.map_some,
    Option.getD_some, Bool.or_eq_true] at calls
  cases loop with
  | dispatchEvents number listening => cases isLoop
  | _ => exact calls.resolve_left Bool.false_ne_true

/-- Where a peer has hung up, a function that waits can only go on to wait. -/
theorem Fails.of_hangup (calls : p.dispatches = true) (clean : p.client.error = false) :
    Fails impls heap p .hangup { p with frames := returned false p.frames } := by
  have begun : begin p.client .hangup = .returned false p.client := by
    rw [begin, if_neg (by rw [clean]; exact Bool.false_ne_true)]
  have fails := @Fails.polls impls heap p .hangup p.client calls begun
  rwa [Cause.ofPolled, if_neg (by rw [clean]; exact Bool.false_ne_true)] at fails

/-- A loop that goes on after a failure does so for ever when nothing has changed. -/
theorem not_returns {loop : Frame} {rest : List Frame} (frames : p.frames = loop :: rest)
    (goesOn : loop.breaks = false) (calls : p.dispatches = true) (waits : loop.waits p.client = true)
    (clean : p.client.error = false) : ¬ Returns impls heap loop rest p := by
  intro ends
  induction ends with
  | left gone =>
      have length := congrArg List.length (frames.symm.trans gone)
      rw [List.length_cons] at length
      omega
  | ends _ done => cases waits.symm.trans done
  | @again p _ each ih =>
      have fails := @Fails.of_hangup impls heap p calls clean
      have same : returned false p.frames = p.frames := by
        rw [frames, returned, goesOn]
        rfl
      rw [same] at fails
      exact ih .hangup p fails frames calls waits clean

/-- **When a loop returns after a dispatch that failed**: always, unless it is that of
`waitForObject`, and the peer has hung up or the end of its file has been read. -/
theorem returns_iff {loop : Frame} {rest : List Frame} (frames : p.frames = loop :: rest)
    (isLoop : loop.number? = none) (fails : Fails impls heap p cause next) :
    Returns impls heap loop rest next ↔
      ((∃ object, loop = .waitForObject object) → cause ≠ .hangup ∧ cause ≠ .endOfFile) := by
  obtain ⟨after, quiet, loud⟩ := fails.effect
  have calls : p.dispatches = true := by cases fails <;> assumption
  have waits := waits_of_dispatches frames isLoop calls
  rw [frames] at after
  cases loop with
  | dispatchEvents number listening => cases isLoop
  | roundtrip nextSeq =>
      refine iff_of_true (.left after) ?_
      rintro ⟨object, same⟩
      cases same
  | waitForHandshake =>
      refine iff_of_true (.left after) ?_
      rintro ⟨object, same⟩
      cases same
  | waitForObject object =>
      change next.frames = .waitForObject object :: rest at after
      have apart : cause.silent = false ↔ cause ≠ .hangup ∧ cause ≠ .endOfFile := by
        cases cause <;> decide
      rw [forall_prop_of_true ⟨object, rfl⟩, ← apart]
      constructor
      · intro ends
        by_contra silent
        have same := quiet (Bool.eq_true_of_not_eq_false silent)
        have clean : p.client.error = false := by
          simp only [Frame.waits, Bool.and_eq_true, Bool.not_eq_true'] at waits
          exact waits.2
        rw [← same] at waits clean
        refine not_returns after rfl ?_ waits clean ends
        rw [Process.dispatches, after]
        simpa using .inr waits
      · intro is
        refine .ends after ?_
        simp only [Frame.waits, loud is, Bool.not_true, Bool.and_false]

/-! ## A server that dies in the middle of a bind -/

/-- A protocol with one kind of object. -/
def probe : IProtocolSpec where
  specName := [0x70]
  specVer := 1
  objects := [{ objectName := [0x6f], c2s := [], s2c := [] }]

/-- A client that has asked for the object. -/
def asking : CClientSocket :=
  { CClientSocket.opened with
    seq := 1
    objects := [{ seq := 1, version := 1, protocolName := [0x70],
                  spec := probe.objects.head? }] }.sendMessage (.bindProtocol [0x70] 1 1)

/-- It waits. -/
def bindWaits : Process := { client := asking, frames := [.waitForObject 0] }

theorem bindWaits_run : Run [] .ample anyEvent { client := .opened } bindWaits :=
  .single (@Step.bindProtocol [] .ample { client := .opened } probe 1 0 asking rfl rfl)

/-- What cannot be read ends the wait. -/
theorem returns_after_badRead :
    Returns [] .ample (.waitForObject 0) [] { bindWaits with client := asking.disconnectOnError } :=
  (@returns_iff [] .ample bindWaits _ .badRead (.waitForObject 0) [] rfl rfl
    (@Fails.polls [] .ample bindWaits (.readable none) _ rfl rfl)).mpr (fun _ => by decide)

/-- A server that hangs up does not. -/
theorem not_returns_after_hangup :
    ¬ ∀ impls heap p loop rest, Run impls heap anyEvent { client := .opened } p →
      p.frames = loop :: rest → loop.number? = none →
      ∀ cause next, Fails impls heap p cause next → Returns impls heap loop rest next := by
  intro all
  have ends := all [] .ample bindWaits (.waitForObject 0) [] bindWaits_run rfl rfl .hangup bindWaits
    (.of_hangup rfl rfl)
  exact not_returns rfl rfl rfl rfl rfl ends

end Hyprwire.Client.Reentrant
