import Hyprwire.Wire.SocketHelpers

/-!
# Draining a socket

A stream socket that does not block returns some of the bytes that are queued, as many as
it likes, and fails when there are none (`Healthy`). `parseFromFd` goes on reading while a
call fills its buffer, and takes every failure for a bad message. Hence it returns what it
has taken exactly when some call leaves room in the buffer (`parseFromFd_drains_iff`): when
every call fills the buffer, the one behind the last byte fails, and all the bytes are lost.
That can only happen when their number is a multiple of the size of the buffer
(`FilledUp.dvd`).
-/

set_option autoImplicit false

namespace Hyprwire.Wire

open Cpp

/-! ## A healthy socket -/

/-- A byte that is queued on a socket, with the descriptors that are received with it. -/
structure Queued where
  byte : UInt8
  fds : List Fd := []
  deriving DecidableEq, Repr

def queuedBytes (queue : List Queued) : List UInt8 := queue.map Queued.byte

def queuedFds (queue : List Queued) : List Fd := queue.flatMap Queued.fds

variable {Q : Type}

/-- `recvmsg` on a stream socket that does not block and on which nothing goes wrong: a call
takes at least one byte of those that are queued, and fails (`EAGAIN`) when there are none. -/
structure Healthy (recvmsg : Nat → Q → Option (List UInt8 × List Fd × Q))
    (queued : Q → List Queued) : Prop where
  again : ∀ room q, queued q = [] → recvmsg room q = none
  takes : ∀ room q, 0 < room → queued q ≠ [] → ∃ taken q', taken ≠ [] ∧ taken.length ≤ room ∧
    queued q = taken ++ queued q' ∧ recvmsg room q = some (queuedBytes taken, queuedFds taken, q')

/-- What reading is to come to: a result that has the first bytes of the queue, at least one,
with their descriptors, and leaves the others queued. -/
def Drains (recvmsg : Nat → Q → Option (List UInt8 × List Fd × Q)) (queued : Q → List Queued)
    (q : Q) : Prop :=
  ∃ turns read taken, parseFromFd recvmsg turns q = some (some read) ∧ taken ≠ [] ∧
    queued q = taken ++ queued read.queue ∧ read.data = queuedBytes taken ∧
    read.fds = queuedFds taken

/-- Calls that fill the buffer one after the other leave nothing queued. -/
inductive FilledUp (recvmsg : Nat → Q → Option (List UInt8 × List Fd × Q))
    (queued : Q → List Queued) : Q → Prop
  | empty {q : Q} (none : queued q = []) : FilledUp recvmsg queued q
  | call {q q' : Q} {bytes : List UInt8} {fds : List Fd}
      (got : recvmsg bufferSize q = some (bytes, fds, q')) (full : bytes.length = bufferSize)
      (rest : FilledUp recvmsg queued q') : FilledUp recvmsg queued q

section Reading

variable {recvmsg : Nat → Q → Option (List UInt8 × List Fd × Q)} {queued : Q → List Queued}

theorem length_queuedBytes (queue : List Queued) : (queuedBytes queue).length = queue.length :=
  List.length_map _

theorem bufferSize_pos : 0 < bufferSize := Nat.zero_lt_succ _

/-- **The failing amounts** are multiples of the size of the buffer. -/
theorem FilledUp.dvd (healthy : Healthy recvmsg queued) {q : Q}
    (filled : FilledUp recvmsg queued q) : bufferSize ∣ (queued q).length := by
  induction filled with
  | empty none =>
      rw [none]
      exact Nat.dvd_zero _
  | @call q q' bytes fds got full rest ih =>
      have some_ : queued q ≠ [] := by
        intro none
        rw [healthy.again _ q none] at got
        cases got
      obtain ⟨taken, left, -, -, split, got'⟩ := healthy.takes bufferSize q bufferSize_pos some_
      rw [got] at got'
      cases got'
      rw [length_queuedBytes] at full
      rw [split, List.length_append, full]
      exact Nat.dvd_add (Nat.dvd_refl _) ih

/-- When the buffer is filled by every call, the last call fails. -/
theorem FilledUp.exits (healthy : Healthy recvmsg queued) {q : Q}
    (filled : FilledUp recvmsg queued q) (data : List UInt8) (fds : List Fd) :
    Exits (readTurn recvmsg) ⟨data, fds, q⟩ none := by
  induction filled generalizing data fds with
  | empty none =>
      refine .leave ?_
      simp only [readTurn, healthy.again _ _ none]
  | @call q q' bytes more got full rest ih =>
      refine .again ?_ (ih (data ++ bytes) (fds ++ more))
      simp only [Next, readTurn, got, full, if_true]

/-- When a call leaves room in the buffer, the reading ends with it. The induction is on the
number of bytes that are queued. -/
theorem exits_of_not_filledUp (healthy : Healthy recvmsg queued) (n : Nat) {q : Q}
    (bound : (queued q).length = n) (room : ¬ FilledUp recvmsg queued q)
    (data : List UInt8) (fds : List Fd) :
    ∃ q' taken, taken ≠ [] ∧ queued q = taken ++ queued q' ∧
      Exits (readTurn recvmsg) ⟨data, fds, q⟩
        (some ⟨data ++ queuedBytes taken, fds ++ queuedFds taken, q'⟩) := by
  induction n using Nat.strong_induction_on generalizing q data fds with
  | _ n ih =>
    have some_ : queued q ≠ [] := fun none => room (.empty none)
    obtain ⟨taken, next, more, -, split, got⟩ := healthy.takes bufferSize q bufferSize_pos some_
    by_cases full : (queuedBytes taken).length = bufferSize
    · have fewer : (queued next).length < n := by
        rw [← bound, split, List.length_append]
        exact Nat.lt_add_of_pos_left (List.length_pos_of_ne_nil more)
      have room' : ¬ FilledUp recvmsg queued next := fun filled => room (.call got full filled)
      obtain ⟨last, others, -, split', exits⟩ := ih _ fewer rfl room'
        (data ++ queuedBytes taken) (fds ++ queuedFds taken)
      refine ⟨last, taken ++ others, List.append_ne_nil_of_left_ne_nil more _, ?_, ?_⟩
      · rw [split, split', List.append_assoc]
      · rw [queuedBytes, queuedFds, List.map_append, List.flatMap_append, ← List.append_assoc,
          ← List.append_assoc]
        refine .again ?_ exits
        simp only [Next, readTurn, got, full, if_true]
    · refine ⟨next, taken, more, split, .leave ?_⟩
      simp only [readTurn, got, full, if_false]

/-- When a call leaves room in the buffer, reading returns what has been taken. -/
theorem drains_of_not_filledUp (healthy : Healthy recvmsg queued) {q : Q}
    (room : ¬ FilledUp recvmsg queued q) : Drains recvmsg queued q := by
  obtain ⟨q', taken, more, split, turns, run⟩ := exits_of_not_filledUp healthy _ rfl room [] []
  exact ⟨turns, _, taken, run, more, split, rfl, rfl⟩

/-- When every call fills the buffer, reading fails. -/
theorem FilledUp.not_drains (healthy : Healthy recvmsg queued) {q : Q}
    (filled : FilledUp recvmsg queued q) : ¬ Drains recvmsg queued q := by
  rintro ⟨turns, read, taken, run, -⟩
  have lost := Exits.unique ⟨turns, run⟩ (filled.exits healthy [] [])
  cases lost

/-- An amount that is not a multiple of the size of the buffer is read. -/
theorem drains_of_not_dvd (healthy : Healthy recvmsg queued) {q : Q}
    (other : ¬ bufferSize ∣ (queued q).length) : Drains recvmsg queued q :=
  drains_of_not_filledUp healthy fun filled => other (filled.dvd healthy)

end Reading

/-! ## A socket that returns all it can -/

/-- `recvmsg` on a queue that is at hand: as many bytes are returned as there is room for. -/
def recvmsgAll (room : Nat) (queue : List Queued) :
    Option (List UInt8 × List Fd × List Queued) :=
  match queue with
  | [] => none
  | byte :: rest =>
      some (queuedBytes ((byte :: rest).take room), queuedFds ((byte :: rest).take room),
        (byte :: rest).drop room)

theorem recvmsgAll_healthy : Healthy recvmsgAll id where
  again := by
    rintro room q (rfl : q = [])
    rfl
  takes := by
    intro room q some_ (more : q ≠ [])
    obtain ⟨byte, rest, rfl⟩ := List.exists_cons_of_ne_nil more
    refine ⟨(byte :: rest).take room, (byte :: rest).drop room, ?_, ?_, ?_, rfl⟩
    · intro none
      rcases List.take_eq_nil_iff.mp none with zero | none
      · exact absurd zero (Nat.ne_of_gt some_)
      · exact List.cons_ne_nil _ _ none
    · exact List.length_take_le _ _
    · exact (List.take_append_drop _ _).symm

/-- **Reading does not fail exactly when a call leaves room in the buffer.** -/
theorem parseFromFd_drains_iff {recvmsg : Nat → Q → Option (List UInt8 × List Fd × Q)}
    {queued : Q → List Queued} (healthy : Healthy recvmsg queued) (q : Q) :
    Drains recvmsg queued q ↔ ¬ FilledUp recvmsg queued q :=
  ⟨fun drains filled => filled.not_drains healthy drains, drains_of_not_filledUp healthy⟩

/-- One byte is read, whose descriptor comes with it. -/
theorem parseFromFd_drains_byte :
    Drains recvmsgAll id [⟨1, [3]⟩] ↔ ¬ FilledUp recvmsgAll id [⟨1, [3]⟩] :=
  parseFromFd_drains_iff recvmsgAll_healthy _

/-- A queue that fits into the room is returned whole. -/
theorem recvmsgAll_of_le {room : Nat} {queue : List Queued} (some_ : queue ≠ [])
    (fits : queue.length ≤ room) :
    recvmsgAll room queue = some (queuedBytes queue, queuedFds queue, []) := by
  obtain ⟨byte, rest, rfl⟩ := List.exists_cons_of_ne_nil some_
  rw [recvmsgAll, List.take_of_length_le fits, List.drop_of_length_le fits]

/-- A queue of the size of the buffer fills it. -/
theorem filledUp_recvmsgAll {queue : List Queued} (length : queue.length = bufferSize) :
    FilledUp recvmsgAll id queue := by
  have some_ : queue ≠ [] := List.ne_nil_of_length_pos (length ▸ bufferSize_pos)
  have full : (queuedBytes queue).length = bufferSize := by rw [length_queuedBytes, length]
  exact .call (recvmsgAll_of_le some_ (Nat.le_of_eq length)) full (.empty rfl)

/-- A queue that fills the buffer once is lost. -/
theorem parseFromFd_loses_buffer :
    Healthy recvmsgAll id ∧ ¬ Drains recvmsgAll id (List.replicate bufferSize ⟨1, []⟩) :=
  ⟨recvmsgAll_healthy, (filledUp_recvmsgAll List.length_replicate).not_drains recvmsgAll_healthy⟩

end Hyprwire.Wire
