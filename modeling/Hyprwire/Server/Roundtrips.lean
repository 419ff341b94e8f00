import Hyprwire.Server.Dispatch

/-!
# Answered roundtrips

A roundtrip request is kept in `m_scheduledRoundtripSeq` until the batch it came in
has been handled, and the sequence zero stands for none. So a batch is answered once
at most, for its last request (`dispatchClient_answers`). Over a run of batches
without an error every request is answered, once and in order, exactly when no batch
holds two requests and none has the sequence zero (`roundtrips_answered`).
-/

set_option autoImplicit false

namespace Hyprwire.Server

open Cpp Wire Object

variable {α : Type}

/-! ## The messages of a batch -/

/-- The messages in the bytes of a batch, from a needle to the end, which use up the
descriptors. -/
inductive Carries (parse : View → List Fd → Nat → Option (Except Fault (Parsed × List Fd)))
    (data : View) : Nat → List Fd → List Received → Prop
  | done {needle : Nat} (all : data.size ≤ needle) : Carries parse data needle [] []
  | message {needle len : Nat} {fds left : List Fd} {received : Received} {rest : List Received}
      (inside : needle < data.size)
      (read : parse data fds needle = some (.ok (.message received len, left)))
      (length : len ≠ 0) (more : Carries parse data (wrap (needle + len)) left rest) :
      Carries parse data needle fds (received :: rest)

/-- The answer to the requests of a batch. -/
def answer (handled : List Received) : List UInt32 :=
  match (requests handled).getLast? with
  | some seq => if seq = 0 then [] else [seq]
  | none => []

theorem requests_append (first second : List Received) :
    requests (first ++ second) = requests first ++ requests second :=
  List.filterMap_append

theorem scheduledAfter_append (before : UInt32) (first second : List Received) :
    scheduledAfter before (first ++ second) =
      scheduledAfter (scheduledAfter before first) second := by
  simp only [scheduledAfter, requests_append]
  cases h : requests second with
  | nil => simp
  | cons seq rest => simp [List.getLastD_eq_getLast?, List.getLast?_append]

/-- **The loop over a batch without an error** acts on the messages of the batch, answers
none, and schedules its last request. -/
theorem loop_batch {cfg : Config α} {data : View} {turns : Nat}
    {s : ParseState (ServerState α)} {h : Handled (ServerState α)}
    (run : loop (parseTurn (receiver cfg) data) turns s = some (.ok h))
    (parsed : h.result = .parsedOk) (errorFree : h.conn.client.error = false) :
    ∃ batch, Carries (parseServer cfg.heap) data s.needle s.fds batch ∧
      h.handled = s.handled ++ batch ∧
      dones h.conn.client.sent = dones s.conn.client.sent ∧
      h.conn.client.scheduledRoundtripSeq =
        scheduledAfter s.conn.client.scheduledRoundtripSeq batch ∧
      s.conn.client.error = false := by
  obtain ⟨t, reaches, leaves⟩ := exits_iff.mp ⟨turns, run⟩
  obtain ⟨result, conn, handled⟩ := h
  obtain rfl : result = .parsedOk := parsed
  clear run
  induction reaches using Relation.ReflTransGen.head_induction_on with
  | refl =>
      obtain ⟨ended, noFds, rfl, rfl⟩ := parseTurn_eq_parsedOk.mp leaves
      have all : data.size ≤ t.needle := by
        refine ended.resolve_right fun stops => ?_
        rw [show t.conn.client.error = true from stops] at errorFree
        cases errorFree
      exact ⟨[], noFds ▸ .done all, (List.append_nil _).symm, rfl, rfl, errorFree⟩
  | head next _ ih =>
      obtain ⟨going, received, len, left, conn', read, acted, length, rfl⟩ :=
        parseTurn_next_iff.mp next
      obtain ⟨batch, carries, handled, sent, scheduled, clean⟩ := ih
      obtain ⟨stays, quiet, seq⟩ := handle_effect acted
      refine ⟨received :: batch, .message going.1 read length carries, ?_,
        sent.trans quiet, ?_, going.2⟩
      · rw [handled, List.append_assoc, List.singleton_append]
      · rw [scheduled, seq, ← scheduledAfter_append, List.singleton_append]

/-! ## One batch -/

/-- The answer follows from what is scheduled, when nothing was before. -/
theorem scheduledAfter_zero (handled : List Received) :
    answer handled = if 0 < scheduledAfter 0 handled then [scheduledAfter 0 handled] else [] := by
  simp only [answer, scheduledAfter, List.getLastD_eq_getLast?]
  cases (requests handled).getLast? with
  | none => rfl
  | some seq =>
      by_cases none : seq = 0
      · simp [none]
      · simp [none, UInt32.pos_iff_ne_zero]

/-- A dispatch without an error has read to the end of the bytes. -/
theorem dispatchClient_parsed {cfg : Config α} {turns : Nat} {raw : SSocketRawParsedMessage}
    {s t : ServerState α} {handled : List Received} (bytes : raw.data.size ≠ 0)
    (dispatched : dispatchClient cfg turns (some raw) s = some (.ok (t, handled)))
    (errorFree : t.client.error = false) :
    ∃ u, handleMessage (receiver cfg) turns raw s = some (.ok ⟨.parsedOk, u, handled⟩) ∧
      u.client.error = false ∧ t = afterBatch .parsedOk u := by
  obtain ⟨⟨result, u, handled⟩, run, rfl, rfl⟩ := (dispatchClient_eq_ok bytes).mp dispatched
  by_cases parsed : result = .parsedOk
  · subst parsed
    refine ⟨u, run, ?_, rfl⟩
    simp only [afterBatch, ne_eq, not_true, if_false] at errorFree
    split at errorFree <;> exact errorFree
  · simp only [afterBatch, ne_eq, parsed, not_false_eq_true, if_true] at errorFree
    cases errorFree

/-- The messages that a dispatch without an error has acted on are those in the bytes. -/
theorem dispatchClient_carries {cfg : Config α} {turns : Nat} {raw : SSocketRawParsedMessage}
    {s t : ServerState α} {handled : List Received} (bytes : raw.data.size ≠ 0)
    (dispatched : dispatchClient cfg turns (some raw) s = some (.ok (t, handled)))
    (errorFree : t.client.error = false) :
    Carries (parseServer cfg.heap) raw.data 0 raw.fds handled := by
  obtain ⟨u, run, clean, -⟩ := dispatchClient_parsed bytes dispatched errorFree
  obtain ⟨batch, carries, all, -⟩ := loop_batch run rfl clean
  obtain rfl : handled = batch := all
  exact carries

/-- **A batch without an error is answered for its last request**, and only when the
sequence of that one is not zero. -/
theorem dispatchClient_answers {cfg : Config α} {turns : Nat}
    {read : Option SSocketRawParsedMessage} {s t : ServerState α} {handled : List Received}
    (dispatched : dispatchClient cfg turns read s = some (.ok (t, handled)))
    (nothing : s.client.error = false → s.client.scheduledRoundtripSeq = 0)
    (errorFree : t.client.error = false) :
    s.client.error = false ∧ t.client.scheduledRoundtripSeq = 0 ∧
      dones t.client.sent = dones s.client.sent ++ answer handled := by
  cases read with
  | none =>
      cases dispatched
      cases errorFree
  | some raw =>
      by_cases bytes : raw.data.size = 0
      · rw [dispatchClient_empty bytes] at dispatched
        cases dispatched
        exact ⟨errorFree, nothing errorFree, (List.append_nil _).symm⟩
      · obtain ⟨u, run, clean, rfl⟩ := dispatchClient_parsed bytes dispatched errorFree
        obtain ⟨batch, -, all, sent, scheduled, start⟩ := loop_batch run rfl clean
        obtain rfl : handled = batch := all
        have zero : (firstMessage raw s).conn.client.scheduledRoundtripSeq = 0 := nothing start
        rw [zero] at scheduled
        rw [scheduledAfter_zero, ← scheduled, ← show _ = dones s.client.sent from sent]
        refine ⟨start, ?_⟩
        simp only [afterBatch, ne_eq, not_true, if_false]
        split
        · exact ⟨rfl, List.filterMap_append⟩
        · next none =>
          exact ⟨UInt32.le_zero_iff.mp (UInt32.not_lt.mp none), (List.append_nil _).symm⟩

/-! ## Runs -/

/-- A run of the server over the stream of one client: the batches it has dispatched,
with what the application has done between them. -/
inductive Run (cfg : Config α) (s : ServerState α) : List (List Received) → ServerState α → Prop
  | start : Run cfg s [] s
  | dispatch {batches : List (List Received)} {t u : ServerState α} {turns : Nat}
      {read : Option SSocketRawParsedMessage} {batch : List Received}
      (run : Run cfg s batches t)
      (dispatched : dispatchClient cfg turns read t = some (.ok (u, batch))) :
      Run cfg s (batches ++ [batch]) u
  | application {batches : List (List Received)} {t u : ServerState α} {code : ServerCode α}
      (run : Run cfg s batches t) (ran : runCode cfg code t = .ok u) : Run cfg s batches u

/-- The server before the first message of a client. -/
def ServerState.fresh (memory : α) : ServerState α := { client := {}, memory }

/-- In a run without an error every batch has been answered. -/
theorem Run.answers {cfg : Config α} {memory : α} {batches : List (List Received)}
    {t : ServerState α} (run : Run cfg (.fresh memory) batches t)
    (errorFree : t.client.error = false) :
    t.client.scheduledRoundtripSeq = 0 ∧ dones t.client.sent = batches.flatMap answer := by
  induction run with
  | start => exact ⟨rfl, rfl⟩
  | dispatch run dispatched ih =>
      obtain ⟨start, nothing, sent⟩ :=
        dispatchClient_answers dispatched (fun clean => (ih clean).1) errorFree
      rw [List.flatMap_append, List.flatMap_singleton, ← (ih start).2]
      exact ⟨nothing, sent⟩
  | @application batches t u code run ran ih =>
      have quiet : Quiet t.client u.client := runCode_quiet cfg code t u ran
      have start : t.client.error = false := by
        cases before : t.client.error with
        | false => rfl
        | true => rw [quiet.error before] at errorFree; cases errorFree
      rw [quiet.scheduled, quiet.dones]
      exact ih start

/-! ## Answers and requests -/

/-- A batch whose requests are all answered. -/
def AnsweredWhole (batch : List Received) : Prop :=
  requests batch = [] ∨ ∃ seq, seq ≠ 0 ∧ requests batch = [seq]

theorem answer_length_le (batch : List Received) :
    (answer batch).length ≤ (requests batch).length := by
  rw [answer]
  split
  · next seq last =>
    have one : 1 ≤ (requests batch).length :=
      List.length_pos_of_mem (List.mem_of_getLast? last)
    split
    · exact Nat.zero_le _
    · exact one
  · exact Nat.zero_le _

theorem answer_eq_requests_iff (batch : List Received) :
    answer batch = requests batch ↔ AnsweredWhole batch := by
  rw [answer, AnsweredWhole]
  rcases List.eq_nil_or_concat (requests batch) with none | ⟨before, seq, all⟩
  · simp [none]
  · rw [all, List.concat_eq_append, List.getLast?_append]
    cases before with
    | nil => by_cases zero : seq = 0 <;> simp [zero]
    | cons first rest =>
        refine iff_of_false ?_ (by simp)
        split
        · split
          · simp
          · simp
        · simp

/-- The batches are answered whole when the answers are the requests altogether. -/
theorem flatMap_answer_eq_iff (batches : List (List Received)) :
    batches.flatMap answer = requests batches.flatten ↔ ∀ batch ∈ batches, AnsweredWhole batch := by
  have lengths : ∀ batches : List (List Received),
      (batches.flatMap answer).length ≤ (requests batches.flatten).length := by
    intro batches
    induction batches with
    | nil => exact le_rfl
    | cons batch rest ih =>
        rw [List.flatMap_cons, List.flatten_cons, requests_append, List.length_append,
          List.length_append]
        exact Nat.add_le_add (answer_length_le batch) ih
  induction batches with
  | nil => simp [requests]
  | cons batch rest ih =>
      rw [List.flatMap_cons, List.flatten_cons, requests_append, List.forall_mem_cons,
        ← answer_eq_requests_iff]
      refine Iff.trans ?_ (and_congr_right' ih)
      constructor
      · intro same
        have total := congrArg List.length same
        rw [List.length_append, List.length_append] at total
        have first := answer_length_le batch
        have others := lengths rest
        exact List.append_inj same (by omega)
      · rintro ⟨first, others⟩
        rw [first, others]

/-- **Every roundtrip request is answered, once and in order, exactly when no batch has
two of them and none has the sequence zero.** -/
theorem roundtrips_answered {cfg : Config α} {memory : α} {batches : List (List Received)}
    {t : ServerState α} (run : Run cfg (.fresh memory) batches t)
    (errorFree : t.client.error = false) :
    dones t.client.sent = requests batches.flatten ↔
      ∀ batch ∈ batches, AnsweredWhole batch := by
  rw [(run.answers errorFree).2]
  exact flatMap_answer_eq_iff batches

/-- A server that offers nothing, and whose application does nothing. -/
def idle : Config Unit where
  impls := []
  heap := .ample
  app := { onBind := fun _ _ => .done, listener := fun _ _ _ => .done }
  frames := 1

/-- What one read returns, without descriptors. -/
def reading (data : List UInt8) (length_lt : data.length < 2 ^ 63) : SSocketRawParsedMessage where
  data := ByteVec.strict ⟨data, length_lt⟩
  fds := []

/-- A roundtrip is answered. -/
theorem roundtrip_answered :
    ∃ (batch : List Received) (t : ServerState Unit),
      Run idle (.fresh ()) [batch] t ∧ requests [batch].flatten = [7] ∧
        dones t.client.sent = requests [batch].flatten := by
  have dispatched :
      dispatchClient idle 2 (some (reading (CRoundtripRequestMessage.encode 7) (by decide)))
        (.fresh ()) =
      some (.ok (⟨{ sent := [.roundtripDone 7] }, ()⟩, [.roundtripRequest 7])) := by
    rfl
  refine ⟨_, _, .dispatch .start dispatched, rfl, ?_⟩
  refine (roundtrips_answered (.dispatch .start dispatched) rfl).mpr ?_
  intro batch one
  obtain rfl : batch = [.roundtripRequest 7] := List.mem_singleton.mp one
  exact .inr ⟨7, by decide, rfl⟩

/-- The first of two requests in one batch is lost. -/
theorem roundtrip_lost :
    ∃ (batch : List Received) (t : ServerState Unit),
      Run idle (.fresh ()) [batch] t ∧ t.client.error = false ∧
        requests [batch].flatten = [1, 2] ∧ dones t.client.sent = [2] := by
  have dispatched :
      dispatchClient idle 3 (some (reading
          (CRoundtripRequestMessage.encode 1 ++ CRoundtripRequestMessage.encode 2) (by decide)))
        (.fresh ()) =
      some (.ok (⟨{ sent := [.roundtripDone 2] }, ()⟩,
        [.roundtripRequest 1, .roundtripRequest 2])) := by
    rfl
  exact ⟨_, _, .dispatch .start dispatched, rfl, rfl, rfl⟩

end Hyprwire.Server
