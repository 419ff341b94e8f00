import Hyprwire.Wire.Parser

/-!
# Reading from a socket

`parseFromFd` calls `recvmsg` until a call returns less than its buffer holds. The kernel
is a parameter of it. `receive` is a kernel that queues what was sent as segments: a call
returns as much as fits, and nothing behind the first segment that carries descriptors,
which come with the first byte of their segment. `parseFromFd_iff` says what one call of
`parseFromFd` takes from such a queue, and `oneRead_whole_iff` when that is all of it.
-/

set_option autoImplicit false

namespace Hyprwire.Wire

open Cpp

/-! ## `parseFromFd` -/

/-- What was collected by some calls of `recvmsg`, and what is still queued. -/
structure Collected (Q : Type) where
  data : List UInt8 := []
  fds : List Fd := []
  queue : Q

def bufferSize : Nat := 8192

/-- One turn of the loop of `parseFromFd`. A `recvmsg` that fails returns nothing. -/
def readTurn {Q : Type} (recvmsg : Nat → Q → Option (List UInt8 × List Fd × Q))
    (s : Collected Q) : Option (Turn (Collected Q) (Option (Collected Q))) :=
  match recvmsg bufferSize s.queue with
  | none => some (.leave none)
  | some (bytes, fds, queue) =>
      let next : Collected Q := { data := s.data ++ bytes, fds := s.fds ++ fds, queue }
      if bytes.length = bufferSize then some (.again next) else some (.leave (some next))

/-- `parseFromFd`: nothing for `bad`. -/
def parseFromFd {Q : Type} (recvmsg : Nat → Q → Option (List UInt8 × List Fd × Q))
    (turns : Nat) (queue : Q) : Option (Option (Collected Q)) :=
  loop (readTurn recvmsg) turns { queue }

/-! ## A queue of segments -/

/-- What was sent by one `sendmsg`, or what is left of it. -/
structure Segment where
  bytes : List UInt8
  fds : List Fd := []
  deriving DecidableEq, Repr

/-- `recvmsg` on a queue, with room for some bytes. -/
def receive (room : Nat) : List Segment → List UInt8 × List Fd × List Segment
  | [] => ([], [], [])
  | segment :: rest =>
      if room = 0 then
        ([], [], segment :: rest)
      else if room < segment.bytes.length then
        (segment.bytes.take room, segment.fds, { bytes := segment.bytes.drop room } :: rest)
      else if segment.fds ≠ [] then
        (segment.bytes, segment.fds, rest)
      else
        let (bytes, fds, queue) := receive (room - segment.bytes.length) rest
        (segment.bytes ++ bytes, fds, queue)

theorem receive_cons (room : Nat) (segment : Segment) (rest : List Segment) :
    receive room (segment :: rest) =
      if room = 0 then
        ([], [], segment :: rest)
      else if room < segment.bytes.length then
        (segment.bytes.take room, segment.fds, { bytes := segment.bytes.drop room } :: rest)
      else if segment.fds ≠ [] then
        (segment.bytes, segment.fds, rest)
      else
        (segment.bytes ++ (receive (room - segment.bytes.length) rest).1,
          (receive (room - segment.bytes.length) rest).2) := rfl

/-- The kernel that queues segments. It does not fail. -/
def recvmsg (room : Nat) (queue : List Segment) :
    Option (List UInt8 × List Fd × List Segment) := some (receive room queue)

/-- What one `parseFromFd` takes, and what it leaves, when the queue starts at a position of
what it reads: a segment with descriptors is the last one, unless it reaches the next
multiple of the size of the buffer. -/
def oneRead (pos : Nat) : List Segment → List Segment × List Segment
  | [] => ([], [])
  | segment :: rest =>
      let ends := pos + segment.bytes.length
      if segment.fds ≠ [] ∧ ends < bufferSize * (pos / bufferSize + 1) then
        ([segment], rest)
      else
        (segment :: (oneRead ends rest).1, (oneRead ends rest).2)

theorem oneRead_cons (pos : Nat) (segment : Segment) (rest : List Segment) :
    oneRead pos (segment :: rest) =
      if segment.fds ≠ [] ∧
          pos + segment.bytes.length < bufferSize * (pos / bufferSize + 1) then
        ([segment], rest)
      else
        (segment :: (oneRead (pos + segment.bytes.length) rest).1,
          (oneRead (pos + segment.bytes.length) rest).2) := rfl

/-- The bytes of some segments. -/
def segmentBytes (segments : List Segment) : List UInt8 := segments.flatMap Segment.bytes

/-- The descriptors of some segments. -/
def segmentFds (segments : List Segment) : List Fd := segments.flatMap Segment.fds

theorem oneRead_append (pos : Nat) (segments : List Segment) :
    (oneRead pos segments).1 ++ (oneRead pos segments).2 = segments := by
  induction segments generalizing pos with
  | nil => rfl
  | cons segment rest ih =>
      rw [oneRead_cons]
      split
      · rfl
      · rw [List.cons_append, ih]

/-- The room of a call that has read up to a position. -/
def roomAt (pos : Nat) : Nat := bufferSize - pos % bufferSize

theorem add_roomAt (pos : Nat) : pos + roomAt pos = bufferSize * (pos / bufferSize + 1) := by
  have division := Nat.div_add_mod pos bufferSize
  have small : pos % bufferSize < bufferSize := Nat.mod_lt _ (by decide)
  rw [roomAt, Nat.mul_add, Nat.mul_one]
  omega

theorem roomAt_pos (pos : Nat) : 0 < roomAt pos :=
  Nat.sub_pos_of_lt (Nat.mod_lt _ (by decide))

/-- A call that was filled is followed by one with all of the room. -/
theorem roomAt_add_roomAt (pos : Nat) : roomAt (pos + roomAt pos) = bufferSize := by
  rw [add_roomAt, roomAt, Nat.mul_mod_right, Nat.sub_zero]

theorem roomAt_add {pos n : Nat} (short : n < roomAt pos) : roomAt (pos + n) = roomAt pos - n := by
  have small : pos % bufferSize < bufferSize := Nat.mod_lt _ (by decide)
  simp only [roomAt] at short ⊢
  have sum : (pos + n) % bufferSize = pos % bufferSize + n := by
    rw [Nat.add_mod, Nat.add_mod_mod, Nat.mod_eq_of_lt (by omega)]
  rw [sum, Nat.sub_sub]

/-- What the loop leaves with after a call that has some room. -/
def LeavesAfter (room : Nat) (s r : Collected (List Segment)) : Prop :=
  let got := receive room s.queue
  let next : Collected (List Segment) :=
    { data := s.data ++ got.1, fds := s.fds ++ got.2.1, queue := got.2.2 }
  if got.1.length = room then Exits (readTurn recvmsg) next (some r) else next = r

/-- A segment that is longer than the room is read in part, with its descriptors. -/
theorem receive_long {room : Nat} {segment : Segment} {rest : List Segment} (some_ : 0 < room)
    (long : room < segment.bytes.length) :
    receive room (segment :: rest) =
      (segment.bytes.take room, segment.fds, { bytes := segment.bytes.drop room } :: rest) := by
  rw [receive_cons, if_neg (Nat.ne_of_gt some_), if_pos long]

/-- A segment without descriptors is read with what is behind it. -/
theorem receive_plain {room : Nat} {segment : Segment} {rest : List Segment} (some_ : 0 < room)
    (fits : segment.bytes.length ≤ room) (plain : segment.fds = []) :
    receive room (segment :: rest) =
      (segment.bytes ++ (receive (room - segment.bytes.length) rest).1,
        (receive (room - segment.bytes.length) rest).2) := by
  rw [receive_cons, if_neg (Nat.ne_of_gt some_), if_neg (Nat.not_lt.mpr fits),
    if_neg (not_not.mpr plain)]

/-- Nothing is read behind a segment with descriptors, or behind one that fills the room. -/
theorem receive_last {room : Nat} {segment : Segment} {rest : List Segment} (some_ : 0 < room)
    (fits : segment.bytes.length ≤ room)
    (last : segment.fds ≠ [] ∨ segment.bytes.length = room) :
    receive room (segment :: rest) = (segment.bytes, segment.fds, rest) := by
  by_cases carries : segment.fds = []
  · have full := last.resolve_left fun some_ => some_ carries
    have none : receive 0 rest = ([], [], rest) := by
      cases rest with
      | nil => rfl
      | cons => rw [receive_cons, if_pos rfl]
    rw [receive_plain some_ fits carries, full, Nat.sub_self, none, List.append_nil, carries]
  · rw [receive_cons, if_neg (Nat.ne_of_gt some_), if_neg (Nat.not_lt.mpr fits), if_pos carries]

namespace LeavesAfter

variable {room : Nat} {data bytes : List UInt8} {fds more : List Fd} {queue rest : List Segment}
  {r : Collected (List Segment)} {segment : Segment}

theorem exits {s : Collected (List Segment)} (leaves : LeavesAfter bufferSize s r) :
    Exits (readTurn recvmsg) s (some r) := by
  rw [LeavesAfter] at leaves
  split at leaves
  · next filled => exact .again (if_pos filled) leaves
  · next short =>
    subst leaves
    exact .leave (if_neg short)

/-- What a call returns decides whether it is the last. -/
theorem of_got {s : Collected (List Segment)} (got : receive room s.queue = (bytes, more, rest)) :
    LeavesAfter room s r ↔
      if bytes.length = room then
        Exits (readTurn recvmsg) ⟨s.data ++ bytes, s.fds ++ more, rest⟩ (some r)
      else
        ⟨s.data ++ bytes, s.fds ++ more, rest⟩ = r := by
  rw [LeavesAfter, got]

/-- A call that was filled is followed by another. -/
theorem of_filled (got : receive room queue = (bytes, more, rest)) (filled : bytes.length = room)
    (next : LeavesAfter bufferSize ⟨data ++ bytes, fds ++ more, rest⟩ r) :
    LeavesAfter room ⟨data, fds, queue⟩ r := by
  rw [of_got got, if_pos filled]
  exact next.exits

/-- A call that was not is the last. -/
theorem of_short (got : receive room queue = (bytes, more, rest)) (short : bytes.length ≠ room)
    (last : ⟨data ++ bytes, fds ++ more, rest⟩ = r) : LeavesAfter room ⟨data, fds, queue⟩ r := by
  rw [of_got got, if_neg short]
  exact last

/-- A call goes on behind a segment without descriptors. -/
theorem of_plain (plain : segment.fds = []) (inside : segment.bytes.length < room)
    (next : LeavesAfter (room - segment.bytes.length)
      ⟨data ++ segment.bytes, fds ++ segment.fds, rest⟩ r) :
    LeavesAfter room ⟨data, fds, segment :: rest⟩ r := by
  have got := @receive_plain room segment rest (Nat.zero_lt_of_lt inside) (Nat.le_of_lt inside) plain
  have same : (segment.bytes ++ (receive (room - segment.bytes.length) rest).1).length = room ↔
      (receive (room - segment.bytes.length) rest).1.length = room - segment.bytes.length := by
    rw [List.length_append]
    omega
  rw [of_got rfl] at next
  rw [of_got got]
  simp only [same, plain, List.append_nil, List.append_assoc] at next ⊢
  exact next

end LeavesAfter

/-- What was collected before some segments were. -/
def Collected.with (s : Collected (List Segment)) (taken left : List Segment) :
    Collected (List Segment) :=
  { data := s.data ++ segmentBytes taken, fds := s.fds ++ segmentFds taken, queue := left }

/-- A segment with descriptors that does not fill the buffer ends the read. -/
theorem oneRead_ends {pos : Nat} {segment : Segment} {rest : List Segment}
    (carries : segment.fds ≠ []) (short : segment.bytes.length < roomAt pos) :
    oneRead pos (segment :: rest) = ([segment], rest) := by
  have inside : pos + segment.bytes.length < bufferSize * (pos / bufferSize + 1) := by
    rw [← add_roomAt]
    exact Nat.add_lt_add_left short pos
  rw [oneRead_cons, if_pos ⟨carries, inside⟩]

/-- Another segment is followed by the next one. -/
theorem oneRead_goes_on {pos : Nat} {segment : Segment} {rest : List Segment}
    (on : segment.fds = [] ∨ roomAt pos ≤ segment.bytes.length) :
    oneRead pos (segment :: rest) =
      (segment :: (oneRead (pos + segment.bytes.length) rest).1,
        (oneRead (pos + segment.bytes.length) rest).2) := by
  have not_ends : ¬ (segment.fds ≠ [] ∧
      pos + segment.bytes.length < bufferSize * (pos / bufferSize + 1)) := by
    rintro ⟨carries, inside⟩
    rw [← add_roomAt] at inside
    exact Nat.not_lt.mpr (on.resolve_left carries) (Nat.lt_of_add_lt_add_left inside)
  rw [oneRead_cons, if_neg not_ends]

theorem Collected.with_cons (s : Collected (List Segment)) (segment : Segment)
    (taken left : List Segment) :
    s.with (segment :: taken) left =
      Collected.with { s with data := s.data ++ segment.bytes, fds := s.fds ++ segment.fds }
        taken left := by
  simp only [Collected.with, segmentBytes, segmentFds, List.flatMap_cons, List.append_assoc]

/-- **What the loop takes from a position on.** The induction is on the bytes that are
queued; a segment that is longer than the room is read in parts. -/
theorem leavesAfter_oneRead (n : Nat) {queue : List Segment}
    (bound : (segmentBytes queue).length ≤ n) (some_ : ∀ segment ∈ queue, segment.bytes ≠ [])
    (pos : Nat) (data : List UInt8) (fds : List Fd) :
    LeavesAfter (roomAt pos) ⟨data, fds, queue⟩
      (Collected.with ⟨data, fds, queue⟩ (oneRead pos queue).1 (oneRead pos queue).2) := by
  have room := roomAt_pos pos
  induction n using Nat.strong_induction_on generalizing data fds queue pos with
  | _ n ih =>
    cases queue with
    | nil => exact .of_short rfl (Nat.ne_of_lt room) rfl
    | cons segment rest =>
        have bytes := List.length_pos_of_ne_nil (some_ segment List.mem_cons_self)
        have later : ∀ s ∈ rest, s.bytes ≠ [] := fun s member =>
          some_ s (List.mem_cons_of_mem _ member)
        have total : segment.bytes.length + (segmentBytes rest).length ≤ n := by
          rw [segmentBytes, List.flatMap_cons, List.length_append] at bound
          exact bound
        -- What follows when the segment is read whole.
        have behind := ih (segmentBytes rest).length (by omega) le_rfl later
          (pos + segment.bytes.length) (data ++ segment.bytes) (fds ++ segment.fds) (roomAt_pos _)
        rcases Nat.lt_trichotomy (roomAt pos) segment.bytes.length with long | exact_ | short
        · -- The call is filled with a part of the segment, and has its descriptors.
          refine .of_filled (receive_long room long) (List.length_take_of_le (Nat.le_of_lt long)) ?_
          have left : ∀ s ∈ ⟨segment.bytes.drop (roomAt pos), []⟩ :: rest, s.bytes ≠ [] := by
            refine List.forall_mem_cons.mpr ⟨fun none => ?_, later⟩
            exact Nat.not_le.mpr long (List.drop_eq_nil_iff.mp none)
          have part : (segmentBytes (⟨segment.bytes.drop (roomAt pos), []⟩ :: rest)).length ≤
              n - roomAt pos := by
            rw [segmentBytes, List.flatMap_cons, List.length_append, List.length_drop]
            rw [segmentBytes] at total
            omega
          have next := ih (n - roomAt pos) (by omega) part left (pos + roomAt pos)
            (data ++ segment.bytes.take (roomAt pos)) (fds ++ segment.fds) (roomAt_pos _)
          have ends : pos + roomAt pos + (segment.bytes.drop (roomAt pos)).length =
              pos + segment.bytes.length := by
            rw [List.length_drop]
            omega
          have on := @oneRead_goes_on (pos + roomAt pos) ⟨segment.bytes.drop (roomAt pos), []⟩ rest
            (.inl rfl)
          rw [ends] at on
          rw [roomAt_add_roomAt, on, Collected.with_cons] at next
          rw [oneRead_goes_on (.inr (Nat.le_of_lt long)), Collected.with_cons]
          simp only [List.append_assoc, List.take_append_drop, List.append_nil] at next ⊢
          exact next
        · -- The call is filled with the segment, and is followed by another in any case.
          rw [← exact_, roomAt_add_roomAt, exact_] at behind
          rw [oneRead_goes_on (.inr (Nat.le_of_eq exact_)), Collected.with_cons]
          exact .of_filled (receive_last room exact_.ge (.inr exact_.symm)) exact_.symm behind
        · -- The call has room left: it ends with the segment, or goes on behind it.
          by_cases carries : segment.fds = []
          · rw [roomAt_add short] at behind
            rw [oneRead_goes_on (.inl carries), Collected.with_cons]
            exact .of_plain carries short behind
          · rw [oneRead_ends carries short]
            refine .of_short (receive_last room (Nat.le_of_lt short) (.inl carries))
              (Nat.ne_of_lt short) ?_
            simp only [Collected.with, segmentBytes, segmentFds, List.flatMap_singleton]

/-- **What one call of `parseFromFd` takes from a queue.** -/
theorem parseFromFd_iff {queue : List Segment} (some_ : ∀ segment ∈ queue, segment.bytes ≠ [])
    {result : Option (Collected (List Segment))} :
    (∃ turns, parseFromFd recvmsg turns queue = some result) ↔
      result = some ⟨segmentBytes (oneRead 0 queue).1, segmentFds (oneRead 0 queue).1,
        (oneRead 0 queue).2⟩ := by
  have exits := (leavesAfter_oneRead _ le_rfl some_ 0 [] []).exits
  constructor
  · intro run
    exact Exits.unique run exits
  · rintro rfl
    exact exits

/-- Every segment with descriptors is the last one, or reaches the next multiple of the size
of the buffer. -/
def Whole (pos : Nat) (queue : List Segment) : Prop :=
  ∀ before segment after, queue = before ++ segment :: after → segment.fds ≠ [] → after ≠ [] →
    bufferSize * ((pos + (segmentBytes before).length) / bufferSize + 1) ≤
      pos + (segmentBytes before).length + segment.bytes.length

/-- One call takes the whole of a queue exactly when no segment ends it early. -/
theorem oneRead_whole_iff {pos : Nat} {queue : List Segment} :
    (oneRead pos queue).2 = [] ↔ Whole pos queue := by
  induction queue generalizing pos with
  | nil =>
      refine iff_of_true rfl fun before segment after split => ?_
      exact absurd split.symm (List.append_ne_nil_of_right_ne_nil _ (List.cons_ne_nil _ _))
  | cons segment rest ih =>
      have tail : Whole (pos + segment.bytes.length) rest ↔
          ∀ before last after, rest = before ++ last :: after → last.fds ≠ [] → after ≠ [] →
            bufferSize * ((pos + (segmentBytes (segment :: before)).length) / bufferSize + 1) ≤
              pos + (segmentBytes (segment :: before)).length + last.bytes.length := by
        simp only [Whole, segmentBytes, List.flatMap_cons, List.length_append, Nat.add_assoc]
      have cons : Whole pos (segment :: rest) ↔
          (segment.fds ≠ [] → rest ≠ [] → roomAt pos ≤ segment.bytes.length) ∧
            Whole (pos + segment.bytes.length) rest := by
        rw [tail]
        constructor
        · intro whole
          refine ⟨fun carries more => ?_, fun before last after split => ?_⟩
          · have reaches := whole [] segment rest rfl carries more
            rw [show pos + (segmentBytes []).length = pos from rfl, ← add_roomAt] at reaches
            exact Nat.le_of_add_le_add_left reaches
          · exact whole (segment :: before) last after (congrArg (List.cons segment) split)
        · rintro ⟨first, others⟩ before last after split carries more
          cases before with
          | nil =>
              obtain ⟨rfl, rfl⟩ := List.cons.inj split
              rw [show pos + (segmentBytes []).length = pos from rfl, ← add_roomAt]
              exact Nat.add_le_add_left (first carries more) pos
          | cons head before =>
              obtain ⟨rfl, split'⟩ := List.cons.inj split
              exact others before last after split' carries more
      rw [cons, ← ih]
      by_cases ends : segment.fds ≠ [] ∧ segment.bytes.length < roomAt pos
      · rw [oneRead_ends ends.1 ends.2]
        constructor
        · rintro rfl
          exact ⟨fun _ more => absurd rfl more, rfl⟩
        · rintro ⟨first, -⟩
          by_contra more
          exact Nat.not_le.mpr ends.2 (first ends.1 more)
      · have on : segment.fds = [] ∨ roomAt pos ≤ segment.bytes.length := by
          rwa [not_and_or, not_not, Nat.not_lt] at ends
        rw [oneRead_goes_on on]
        exact (and_iff_right fun carries _ => on.resolve_left carries).symm

end Hyprwire.Wire
