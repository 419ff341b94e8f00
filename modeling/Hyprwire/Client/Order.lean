import Hyprwire.Client.Reentrant
import Hyprwire.Client.Roundtrips

/-!
# The order in which messages are handled

`Process.log` has the messages in the order in which they were handled. `InOrder` says that
this is the order in which they were sent: first the messages of the first read, as they
lie in its bytes, then those of the second, and so on. A listener that dispatches reads
later messages while those behind its own wait in the batch it was called from.
`handled_in_order` proves the order for every run in which the socket is read only when the
reads in progress have been gone through (`Process.caughtUp`), and `handled_out_of_order`
has a run without this.
-/

set_option autoImplicit false

namespace Hyprwire.Client.Reentrant

open Cpp Wire Object

/-! ## The order -/

/-- The first messages of a read, as they lie in its bytes: the index behind them, and the
descriptors that are left. -/
inductive Lie (heap : Heap) (data : View) (queue : List Fd) :
    List Received → Nat → List Fd → Prop
  | nil : Lie heap data queue [] 0 queue
  | next {handled : List Received} {needle len : Nat} {fds left : List Fd} {received : Received}
      (before : Lie heap data queue handled needle fds) (inside : needle < data.size)
      (read : parseClient heap data fds needle = some (.ok (.message received len, left))) :
      Lie heap data queue (handled ++ [received]) (wrap (needle + len)) left

/-- The messages of the reads, one read after the other. -/
def stream (batches : List Batch) : List (Nat × Received) :=
  batches.zipIdx.flatMap fun numbered => numbered.1.handled.map (Prod.mk numbered.2)

/-- **The messages are handled in order**, each once: those of a read are the first ones in
its bytes, and all of them when there is a later read. -/
structure InOrder (heap : Heap) (p : Process) : Prop where
  stream : p.log = stream p.batches
  lie : ∀ number batch, p.batches[number]? = some batch →
    ∃ needle left, Lie heap batch.data batch.queue batch.handled needle left ∧
      (number + 1 < p.batches.length → batch.data.size ≤ needle)

/-- The reads that a dispatch is at. -/
def inProgress (frames : List Frame) : List Nat := frames.filterMap Frame.number?

/-- The reads in progress have been gone through. -/
def Process.caughtUp (p : Process) : Prop :=
  ∀ number ∈ inProgress p.frames, ∀ batch, p.batches[number]? = some batch →
    batch.data.size ≤ batch.needle

/-- The socket is read only when the reads in progress have been gone through. -/
def Timely (p : Process) (event : Event) : Prop :=
  (∃ raw, event = .reads raw) → p.caughtUp

/-! ## Errors stay -/

section Errors

variable {client next : CClientSocket}

theorem begin_error {polled : Polled} {goesOn : Bool}
    (begun : begin client polled = .returned goesOn next) (error : client.error = true) :
    next.error = true := by
  simp only [begin, if_pos error] at begun
  cases begun
  exact error

/-- What is read is read without an error. -/
theorem begin_reads {polled : Polled} {raw : SSocketRawParsedMessage}
    (begun : begin client polled = .reads raw) : client.error = false := by
  cases error : client.error with
  | false => rfl
  | true =>
      simp only [begin, if_pos error] at begun
      cases begun

theorem finish_error (result : EMessageParsingResult) (error : client.error = true) :
    (finish result client).2.error = true := by
  rw [finish]
  split
  · rfl
  · exact (flushPending_error client).trans error

end Errors

/-! ## The turns of a batch -/

section Turns

variable {heap : Heap} {batch : Batch} {client : CClientSocket}

/-- A turn that goes on is at the next message. -/
theorem message_of_next {needle : Nat} {fds : List Fd} {next : CClientSocket}
    {invocation : Option Invocation} {received : Received}
    (turn : Next (parseTurn (receiver heap) batch.data) (batch.state client)
      ⟨needle, fds, (next, invocation), batch.handled ++ [received]⟩) :
    batch.needle < batch.data.size ∧ ∃ len,
      parseClient heap batch.data batch.fds batch.needle =
        some (.ok (.message received len, fds)) ∧
      client.receive received = some (.ok (next, invocation)) ∧
      needle = wrap (batch.needle + len) := by
  obtain ⟨⟨inside, -⟩, received', len, left, conn, read, acted, -, same⟩ :=
    parseTurn_next_iff.mp turn
  obtain ⟨rfl, rfl, rfl, messages⟩ := ParseState.mk.inj same
  obtain ⟨rfl, -⟩ := List.cons.inj (List.append_cancel_left messages)
  exact ⟨inside, len, read, acted, rfl⟩

/-- A message that is read and acted on is a turn of the loop. -/
theorem next_of_parse {next : CClientSocket}
    {invocation : Option Invocation} {received : Received} {len : Nat} {left : List Fd}
    (inside : batch.needle < batch.data.size)
    (read : parseClient heap batch.data batch.fds batch.needle =
      some (.ok (.message received len, left))) (length : len ≠ 0)
    (acted : client.receive received = some (.ok (next, invocation))) :
    Next (parseTurn (receiver heap) batch.data) (batch.state client)
      ⟨wrap (batch.needle + len), left, (next, invocation), batch.handled ++ [received]⟩ :=
  parseTurn_next_iff.mpr
    ⟨⟨inside, rfl⟩, received, len, left, (next, invocation), read, acted, length, rfl⟩

/-- A turn that leaves is behind the last message, or ends in an error. Then it can still
have acted on a message. -/
theorem left_of_leave {h : Handled (CClientSocket × Option Invocation)}
    (turn : parseTurn (receiver heap) batch.data (batch.state client) = some (.leave (.ok h))) :
    (batch.data.size ≤ batch.needle ∧ h.handled = batch.handled) ∨
      (batch.needle < batch.data.size ∧ h.result = .parsedError ∧
        (h.handled = batch.handled ∨ ∃ received left,
          parseClient heap batch.data batch.fds batch.needle =
            some (.ok (.message received 0, left)) ∧
          h.handled = batch.handled ++ [received])) := by
  simp only [parseTurn] at turn
  split at turn
  · next going =>
    refine .inr ⟨going.1, ?_⟩
    split at turn
    · cases turn
    · cases turn
    · cases turn
      exact ⟨rfl, .inl rfl⟩
    · cases turn
      exact ⟨rfl, .inl rfl⟩
    · next received len left read =>
      split at turn
      · cases turn
      · cases turn
      · split at turn
        · next zero =>
          subst zero
          cases turn
          exact ⟨rfl, .inr ⟨received, left, read, rfl⟩⟩
        · cases turn
  · next ended =>
    cases turn
    refine .inl ⟨?_, rfl⟩
    by_contra inside
    exact ended ⟨Nat.lt_of_not_le inside, Bool.false_ne_true⟩

/-- A turn keeps an error. -/
theorem leave_error {h : Handled (CClientSocket × Option Invocation)}
    (turn : parseTurn (receiver heap) batch.data (batch.state client) = some (.leave (.ok h)))
    (error : client.error = true) : h.conn.1.error = true := by
  rcases parseTurn_leaves turn with same | same | ⟨received, acted⟩
  · rw [same]
    exact error
  · rw [same]
    rfl
  · exact @receive_error _ _ received h.conn.2 acted error

end Turns

/-! ## The stream -/

section Stream

variable {batches : List Batch} {batch batch' : Batch} {number : Nat}

theorem stream_append (batches : List Batch) (batch : Batch) :
    stream (batches ++ [batch]) = stream batches ++ batch.handled.map (Prod.mk batches.length) := by
  rw [stream, stream, List.zipIdx_append, List.flatMap_append, Nat.zero_add]
  simp only [List.zipIdx_singleton, List.flatMap_singleton]

/-- A read that has handled nothing adds nothing. -/
theorem stream_ofRaw (raw : SSocketRawParsedMessage) :
    stream (batches ++ [.ofRaw raw]) = stream batches := by
  rw [stream_append]
  exact List.append_nil _

/-- The last read comes to further messages. -/
theorem stream_set_last (is : batches[number]? = some batch) (last : number + 1 = batches.length)
    {new : List Received} (handled : batch'.handled = batch.handled ++ new) :
    stream (batches.set number batch') = stream batches ++ new.map (Prod.mk number) := by
  have final : batches.getLast? = some batch := by
    rw [List.getLast?_eq_getElem?, ← last, Nat.add_sub_cancel]
    exact is
  obtain ⟨before, rfl⟩ := List.getLast?_eq_some_iff.mp final
  rw [List.length_append, List.length_singleton] at last
  obtain rfl : number = before.length := Nat.succ.inj last
  rw [List.set_append_right _ _ (Nat.le_refl _), Nat.sub_self, List.set_cons_zero, stream_append,
    stream_append, handled, List.map_append, List.append_assoc]

end Stream

/-! ## The invariant -/

/-- The reads in progress lie one inside the other, the last one innermost, and only the
last read can have messages left. A read whose dispatch is over has been gone through, or
has ended in an error. -/
structure Nested (heap : Heap) (p : Process) : Prop where
  stream : p.log = stream p.batches
  nested : (p.batches.length :: inProgress p.frames).Pairwise (· > ·)
  running : ∀ number ∈ inProgress p.frames, ∀ batch, p.batches[number]? = some batch →
    Lie heap batch.data batch.queue batch.handled batch.needle batch.fds ∧
      (number + 1 < p.batches.length → batch.data.size ≤ batch.needle)
  ended : ∀ number batch, p.batches[number]? = some batch → number ∉ inProgress p.frames →
    ∃ needle left, Lie heap batch.data batch.queue batch.handled needle left ∧
      (batch.data.size ≤ needle ∨ p.client.error = true ∧ number + 1 = p.batches.length)

theorem inProgress_returned (goesOn : Bool) (frames : List Frame) :
    inProgress (returned goesOn frames) = inProgress frames := by
  cases frames with
  | nil => rfl
  | cons frame rest =>
      rw [returned]
      split
      · next broken =>
        have loop : frame.number? = none := Frame.number?_of_breaks (Bool.and_eq_true_iff.mp broken).2
        rw [inProgress, inProgress, List.filterMap_cons_none loop]
      · rfl

namespace Nested

variable {impls : Impls} {heap : Heap} {p next : Process}

theorem start (client : CClientSocket) : Nested heap { client } where
  stream := rfl
  nested := List.pairwise_singleton _ _
  running := fun _ none => absurd none List.not_mem_nil
  ended := by
    intro number batch is
    cases is

/-- The order of the log. -/
theorem inOrder (inv : Nested heap p) : InOrder heap p where
  stream := inv.stream
  lie := by
    intro number batch is
    by_cases running : number ∈ inProgress p.frames
    · obtain ⟨lie, gone⟩ := inv.running number running batch is
      exact ⟨_, _, lie, gone⟩
    · obtain ⟨needle, left, lie, gone | ⟨-, last⟩⟩ := inv.ended number batch is running
      · exact ⟨needle, left, lie, fun _ => gone⟩
      · exact ⟨needle, left, lie, fun later => absurd last (Nat.ne_of_lt later)⟩

/-- What leaves the reads alone. -/
theorem of_same (inv : Nested heap p) (batches : next.batches = p.batches)
    (log : next.log = p.log) (frames : inProgress next.frames = inProgress p.frames)
    (error : p.client.error = true → next.client.error = true) : Nested heap next where
  stream := by rw [log, batches, inv.stream]
  nested := by rw [batches, frames]; exact inv.nested
  running := by rw [batches, frames]; exact inv.running
  ended := by
    rw [batches, frames]
    intro number batch is outside
    obtain ⟨needle, left, lie, gone⟩ := inv.ended number batch is outside
    exact ⟨needle, left, lie, gone.imp_right (And.imp_left error)⟩

/-- A read is begun when those in progress have been gone through. -/
theorem read (inv : Nested heap p) (clean : p.client.error = false) (caughtUp : p.caughtUp)
    (raw : SSocketRawParsedMessage) : Nested heap (p.reading raw) where
  stream := inv.stream.trans (stream_ofRaw raw).symm
  nested := by
    rw [Process.length_reading]
    refine List.pairwise_cons.mpr ⟨?_, inv.nested⟩
    intro number member
    rcases List.mem_cons.mp member with rfl | older
    · exact Nat.lt_succ_self _
    · exact Nat.lt_succ_of_lt ((List.pairwise_cons.mp inv.nested).1 number older)
  running := by
    intro number member batch is
    rcases List.mem_cons.mp member with rfl | older
    · obtain rfl : .ofRaw raw = batch :=
        Option.some.inj (List.getElem?_concat_length.symm.trans is)
      exact ⟨.nil, fun later => absurd (later.trans_eq (p.length_reading raw)) (Nat.lt_irrefl _)⟩
    · have before := (List.pairwise_cons.mp inv.nested).1 number older
      rw [Process.reading, List.getElem?_append_left before] at is
      exact ⟨(inv.running number older batch is).1, fun _ => caughtUp number older batch is⟩
  ended := by
    intro number batch is outside
    have new := List.ne_of_not_mem_cons outside
    have older := List.not_mem_of_not_mem_cons outside
    have within := (List.getElem?_eq_some_iff.mp is).1
    rw [Process.length_reading] at within
    have before : number < p.batches.length := Nat.lt_of_le_of_ne (Nat.le_of_lt_succ within) new
    rw [Process.reading, List.getElem?_append_left before] at is
    obtain ⟨needle, left, lie, gone | ⟨error, -⟩⟩ := inv.ended number batch is older
    · exact ⟨needle, left, lie, .inl gone⟩
    · rw [clean] at error
      cases error

section Top

variable {number : Nat} {rest : List Frame} {batch : Batch}

/-- The innermost read lies within its bytes, as far as it has come. -/
theorem top (inv : Nested heap p) (frames : inProgress p.frames = number :: inProgress rest)
    (is : p.batches[number]? = some batch) :
    Lie heap batch.data batch.queue batch.handled batch.needle batch.fds ∧
      (batch.needle < batch.data.size → number + 1 = p.batches.length) := by
  obtain ⟨lie, gone⟩ := inv.running number (frames ▸ List.mem_cons_self) batch is
  refine ⟨lie, fun inside => ?_⟩
  have within := (List.getElem?_eq_some_iff.mp is).1
  rcases Nat.lt_or_eq_of_le (Nat.succ_le_of_lt within) with later | last
  · exact absurd (gone later) (Nat.not_le_of_lt inside)
  · exact last

/-- The other reads in progress are further out. -/
theorem ne_top (inv : Nested heap p) (frames : inProgress p.frames = number :: inProgress rest)
    {other : Nat} (outer : other ∈ inProgress rest) : other ≠ number := by
  have inner := (List.pairwise_cons.mp inv.nested).2
  rw [frames] at inner
  exact Nat.ne_of_lt ((List.pairwise_cons.mp inner).1 other outer)

/-- The innermost read handles its next message. -/
theorem message (inv : Nested heap p) {needle : Nat} {fds : List Fd} {client : CClientSocket}
    {invocation : Option Invocation} {received : Received}
    (top : p.frames = .dispatchEvents number false :: rest)
    (is : p.batches[number]? = some batch)
    (turn : Next (parseTurn (receiver heap) batch.data) (batch.state p.client)
      ⟨needle, fds, (client, invocation), batch.handled ++ [received]⟩) :
    Nested heap
      { client
        frames := .dispatchEvents number invocation.isSome :: rest
        batches := p.batches.set number
          { batch with needle, fds, handled := batch.handled ++ [received] }
        log := p.log ++ [(number, received)] } := by
  have frames : inProgress p.frames = number :: inProgress rest := by
    rw [top]
    rfl
  obtain ⟨inside, len, read, acted, rfl⟩ := message_of_next turn
  obtain ⟨lie, last⟩ := inv.top frames is
  have within := (List.getElem?_eq_some_iff.mp is).1
  refine ⟨?_, ?_, ?_, ?_⟩
  · have grown := @stream_set_last _ _ { batch with
      needle := wrap (batch.needle + len), fds, handled := batch.handled ++ [received] } _ is
      (last inside) [received] rfl
    rw [grown, ← inv.stream]
    rfl
  · rw [List.length_set]
    have nested := inv.nested
    rw [frames] at nested
    exact nested
  · intro other member batch' is'
    rw [List.length_set]
    rcases List.mem_cons.mp member with rfl | outer
    · rw [List.getElem?_set_self within] at is'
      cases is'
      exact ⟨lie.next inside read, fun later => absurd (last inside) (Nat.ne_of_lt later)⟩
    · rw [List.getElem?_set_ne (inv.ne_top frames outer).symm] at is'
      exact inv.running other (frames ▸ List.mem_cons_of_mem _ outer) batch' is'
  · intro other batch' is' outside
    rw [List.length_set]
    rw [List.getElem?_set_ne (List.ne_of_not_mem_cons outside).symm] at is'
    obtain ⟨needle, left, lie, gone⟩ := inv.ended other batch' is' (frames ▸ outside)
    exact ⟨needle, left, lie, gone.imp_right (And.imp_left (receive_error acted))⟩

/-- The innermost dispatch is over. -/
theorem leave (inv : Nested heap p) {h : Handled (CClientSocket × Option Invocation)}
    (top : p.frames = .dispatchEvents number false :: rest)
    (is : p.batches[number]? = some batch)
    (turn : parseTurn (receiver heap) batch.data (batch.state p.client) =
      some (.leave (.ok h))) :
    Nested heap
      { client := (finish h.result h.conn.1).2
        frames := returned (finish h.result h.conn.1).1 rest
        batches := p.batches.set number { batch with handled := h.handled }
        log := p.log ++ (h.handled.drop batch.handled.length).map (Prod.mk number) } := by
  have frames : inProgress p.frames = number :: inProgress rest := by
    rw [top]
    rfl
  obtain ⟨lie, last⟩ := inv.top frames is
  have within := (List.getElem?_eq_some_iff.mp is).1
  have ends := left_of_leave turn
  refine ⟨?_, ?_, ?_, ?_⟩
  · rcases ends with ⟨-, same⟩ | ⟨inside, -, either⟩
    · have unchanged : p.batches.set number batch = p.batches := by
        obtain ⟨_, rfl⟩ := List.getElem?_eq_some_iff.mp is
        exact List.set_getElem_self within
      rw [same, List.drop_length, List.map_nil, List.append_nil]
      exact inv.stream.trans (congrArg Reentrant.stream unchanged).symm
    · have grown : h.handled = batch.handled ++ h.handled.drop batch.handled.length := by
        rcases either with same | ⟨received, -, -, more⟩
        · rw [same, List.drop_length, List.append_nil]
        · rw [more, List.drop_left]
      rw [stream_set_last is (last inside) grown, ← inv.stream]
  · rw [List.length_set, inProgress_returned]
    have nested := inv.nested
    rw [frames] at nested
    exact nested.sublist ((List.sublist_cons_self number _).cons_cons _)
  · intro other member batch' is'
    rw [inProgress_returned] at member
    rw [List.length_set]
    rw [List.getElem?_set_ne (inv.ne_top frames member).symm] at is'
    exact inv.running other (frames ▸ List.mem_cons_of_mem _ member) batch' is'
  · intro other batch' is' outside
    rw [inProgress_returned] at outside
    rw [List.length_set]
    have errors : p.client.error = true → (finish h.result h.conn.1).2.error = true :=
      fun error => finish_error h.result (leave_error turn error)
    by_cases same : other = number
    · subst same
      rw [List.getElem?_set_self within] at is'
      cases is'
      rcases ends with ⟨gone, same⟩ | ⟨inside, result, either⟩
      · exact ⟨_, _, same ▸ lie, .inl gone⟩
      · have error : (finish h.result h.conn.1).2.error = true := by rw [result]; rfl
        rcases either with same | ⟨received, left, read, more⟩
        · exact ⟨_, _, same ▸ lie, .inr ⟨error, last inside⟩⟩
        · exact ⟨_, _, more ▸ lie.next inside read, .inr ⟨error, last inside⟩⟩
    · rw [List.getElem?_set_ne (Ne.symm same)] at is'
      obtain ⟨needle, left, lie, gone⟩ := inv.ended other batch' is'
        (frames ▸ List.not_mem_cons_of_ne_of_not_mem same outside)
      exact ⟨needle, left, lie, gone.imp_right (And.imp_left errors)⟩

end Top

/-- **What a step keeps**, when a socket is read only in time. -/
theorem step (inv : Nested heap p) {event : Event} (timely : Timely p event)
    (steps : Step impls heap p event next) : Nested heap next := by
  cases steps with
  | call control called => exact inv.of_same rfl rfl rfl (Quiet.call called).errors
  | listen control listens => exact inv.of_same rfl rfl rfl (Quiet.listen listens).errors
  | roundtrip control clean =>
      refine inv.of_same rfl rfl rfl fun error => ?_
      rw [clean] at error
      cases error
  | bindProtocol control bound => exact inv.of_same rfl rfl rfl (Quiet.bindProtocol bound).errors
  | bindRefused control refused => exact inv.of_same rfl rfl rfl (Quiet.bindProtocol refused).errors
  | waitForHandshake control => exact inv.of_same rfl rfl rfl id
  | listened top => exact inv.of_same rfl rfl (by rw [top]; rfl) id
  | waited top loop ends =>
      refine inv.of_same rfl rfl ?_ id
      rw [top, inProgress, inProgress, List.filterMap_cons_none loop]
  | poll calls begun =>
      exact inv.of_same rfl rfl (inProgress_returned _ _) (begin_error begun)
  | read calls begun => exact inv.read (begin_reads begun) (timely ⟨_, rfl⟩) _
  | message top is turn => exact inv.message top is turn
  | leave top is turn => exact inv.leave top is turn

end Nested

/-- **The messages of the server are handled in the order in which they were sent**, each
once, in every run of a client whose listeners dispatch only from the last message of a
batch: whenever the socket is read, the reads in progress have been gone through. -/
theorem handled_in_order {impls : Impls} {heap : Heap} {client : CClientSocket} {p : Process}
    (run : Run impls heap Timely { client } p) : InOrder heap p := by
  have inv : Nested heap p := by
    induction run with
    | refl => exact .start client
    | step _ timely steps ih => exact ih.step timely steps
  exact inv.inOrder

/-! ## A message that is overtaken -/

/-- A call of method 0 of object 5, and the answer to the first roundtrip. -/
def firstRead : ByteVec :=
  ⟨[100, 0x22, 5, 0, 0, 0, 0x10, 0, 0, 0, 0, 0, 14, 0x10, 1, 0, 0, 0, 0], by decide⟩

/-- The answer to the second roundtrip. -/
def secondRead : ByteVec := ⟨[14, 0x10, 2, 0, 0, 0, 0], by decide⟩

/-- The call. -/
def event : CGenericProtocolMessage where
  object := 5
  method := 0
  len := 12
  dataSpan := firstRead.strict.span 11 1

/-- A client that listens to method 0 of object 5. -/
def listening : CClientSocket where
  handshakeDone := true
  objects := [{
    listeners := [some 3]
    id := 5
    version := 1
    seq := 2
    spec := some { objectName := [111], c2s := [], s2c := [{ params := [] }] } }]

theorem parse_event : parseClient .ample firstRead.strict [] 0 =
    some (.ok (.message (.generic event) 12, [])) := rfl

theorem parse_firstDone : parseClient .ample firstRead.strict [] 12 =
    some (.ok (.message (.roundtripDone 1) 7, [])) := rfl

theorem parse_secondDone : parseClient .ample secondRead.strict [] 0 =
    some (.ok (.message (.roundtripDone 2) 7, [])) := rfl

/-- The client has sent its first roundtrip, and waits in it for the read. -/
def waiting : Process where
  client := listening.roundtrip
  frames := [.roundtrip 1]

/-- The event is handled, and its listener runs. -/
def heard : Process where
  client := listening.roundtrip
  frames := [.dispatchEvents 0 true, .roundtrip 1]
  batches := [{
    data := firstRead.strict
    queue := []
    needle := 12
    fds := []
    handled := [.generic event] }]
  log := [(0, .generic event)]

/-- The listener waits in a second roundtrip, and has read the answer to it. -/
def answered : Process where
  client := { listening.roundtrip.roundtrip with lastAckdRoundtripSeq := 2 }
  frames := [.dispatchEvents 1 false, .roundtrip 2, .dispatchEvents 0 true, .roundtrip 1]
  batches := heard.batches ++ [{
    data := secondRead.strict
    queue := []
    needle := 7
    fds := []
    handled := [.roundtripDone 2] }]
  log := [(0, .generic event), (1, .roundtripDone 2)]

/-- The message behind the event is handled after the answer that came later. -/
def overtaken : Process where
  client := { listening.roundtrip.roundtrip with lastAckdRoundtripSeq := 1 }
  frames := [.dispatchEvents 0 false, .roundtrip 1]
  batches := [{
    data := firstRead.strict
    queue := []
    needle := 19
    fds := []
    handled := [.generic event, .roundtripDone 1] }, {
    data := secondRead.strict
    queue := []
    needle := 7
    fds := []
    handled := [.roundtripDone 2] }]
  log := [(0, .generic event), (1, .roundtripDone 2), (0, .roundtripDone 1)]

/-- The client asks for a roundtrip. -/
theorem run_waiting : Run [] .ample Timely { client := listening } waiting := by
  refine .step .refl ?_ (.roundtrip rfl rfl)
  rintro ⟨raw, ⟨⟩⟩

/-- It waits, and its listener is called. -/
theorem run_heard : Run [] .ample Timely { client := listening } heard := by
  let raw : SSocketRawParsedMessage := ⟨firstRead.strict, []⟩
  have read : Step [] .ample waiting (.reads raw) (waiting.reading raw) :=
    @Step.read _ _ waiting (.readable (some raw)) _ rfl rfl
  have hears : waiting.client.receive (.generic event) =
      some (.ok (waiting.client, some ⟨3, 0, []⟩)) := rfl
  have handles : Step [] .ample (waiting.reading raw) .handles heard :=
    @Step.message _ _ (waiting.reading raw) 0 _ (.ofRaw raw) _ _ _ _ _ rfl rfl
      (@next_of_parse _ (.ofRaw raw) _ _ _ _ _ _ (by decide) parse_event (by decide) hears)
  refine .step (.step run_waiting ?_ read) ?_ handles
  · rintro - number member
    cases member
  · rintro ⟨raw, ⟨⟩⟩

/-- The listener has been called in order. -/
theorem handled_in_order_heard : InOrder .ample heard := handled_in_order run_heard

/-- The listener asks for a roundtrip, and the answer is read. -/
theorem run_answered : Run [] .ample anyEvent heard answered := by
  let raw : SSocketRawParsedMessage := ⟨secondRead.strict, []⟩
  let asking : Process :=
    { heard with client := heard.client.roundtrip, frames := .roundtrip 2 :: heard.frames }
  have asks : Step [] .ample heard .calls asking := .roundtrip rfl rfl
  have read : Step [] .ample asking (.reads raw) (asking.reading raw) :=
    @Step.read _ _ asking (.readable (some raw)) _ rfl rfl
  have acks : asking.client.receive (.roundtripDone 2) = some (.ok (answered.client, none)) := rfl
  have handles : Step [] .ample (asking.reading raw) .handles answered :=
    @Step.message _ _ (asking.reading raw) 1 _ (.ofRaw raw) _ _ _ _ _ rfl rfl
      (@next_of_parse _ (.ofRaw raw) _ _ _ _ _ _ (by decide) parse_secondDone (by decide) acks)
  exact (Run.single asks).trans ((Run.single read).trans (.single handles))

/-- The listener returns, and the first read goes on. -/
theorem run_overtaken : Run [] .ample anyEvent answered overtaken := by
  let left : Process :=
    { answered with frames := [.roundtrip 2, .dispatchEvents 0 true, .roundtrip 1] }
  have leaves : Step [] .ample answered .leaves left :=
    @Step.leave _ _ answered 1 _ _ ⟨.parsedOk, (answered.client, none), [.roundtripDone 2]⟩ rfl rfl rfl
  let back : Process := { answered with frames := [.dispatchEvents 0 true, .roundtrip 1] }
  have waited : Step [] .ample left .returns back := .waited rfl rfl rfl
  let on : Process := { answered with frames := [.dispatchEvents 0 false, .roundtrip 1] }
  have listened : Step [] .ample back .returns on := .listened rfl
  have acks : on.client.receive (.roundtripDone 1) = some (.ok (overtaken.client, none)) := rfl
  have handles : Step [] .ample on .handles overtaken :=
    @Step.message _ _ on 0 _ _ _ _ _ _ _ rfl rfl
      (next_of_parse (by decide) parse_firstDone (by decide) acks)
  exact (Run.single leaves).trans ((Run.single waited).trans ((Run.single listened).trans
    (.single handles)))

/-- The answer to a roundtrip of the listener is handled before the message that lay behind
the one it was called for. -/
theorem handled_out_of_order :
    ∃ p, Run [] .ample anyEvent { client := listening } p ∧ ¬ InOrder .ample p := by
  have first : Run [] .ample anyEvent { client := listening } heard :=
    run_heard.mono fun _ _ _ => trivial
  refine ⟨overtaken, (first.trans run_answered).trans run_overtaken, ?_⟩
  intro inOrder
  have reads := congrArg (List.map Prod.fst) inOrder.stream
  exact absurd reads (by decide)

end Hyprwire.Client.Reentrant
