import Hyprwire.Server.Handles
import Hyprwire.Server.Roundtrips

/-!
# Acknowledgements in order

A `Session` is a run of the server over what one client writes: each dispatch is kept with
what was read and with the connection before and after it. The sequence that is scheduled
stays when a dispatch ends in an error, and a later one can answer it. It is `Asked` at a
place of the stream all the same: the reads before its own were handled to their ends, its
own up to the request, and no request was handled since (`Session.scheduled`). So an
acknowledgement follows everything that comes before its request, and whatever the server
sent while it handled that (`acknowledged_after`).
-/

set_option autoImplicit false

namespace Hyprwire.Server

open Cpp Wire Object

variable {α : Type}

/-! ## Sessions -/

/-- A dispatch that was made: what was read, the server around it, and what was handled. -/
structure Dispatched (α : Type) where
  read : Option SSocketRawParsedMessage
  before : ServerState α
  after : ServerState α
  handled : List Received

/-- A run of the server over the stream of one client, with the dispatches that were made.
The application acts on the connection between them as well. -/
inductive Session (cfg : Config α) (start : ServerState α) :
    List (Dispatched α) → ServerState α → Prop
  | start : Session cfg start [] start
  | dispatch {past : List (Dispatched α)} {t u : ServerState α} {turns : Nat}
      {read : Option SSocketRawParsedMessage} {handled : List Received}
      (session : Session cfg start past t)
      (dispatched : dispatchClient cfg turns read t = some (.ok (u, handled))) :
      Session cfg start (past ++ [⟨read, t, u, handled⟩]) u
  | application {past : List (Dispatched α)} {t u : ServerState α} {code : ServerCode α}
      (session : Session cfg start past t) (ran : runCode cfg code t = .ok u) :
      Session cfg start past u

/-- All of what was read has been handled. -/
def Dispatched.Whole (cfg : Config α) (d : Dispatched α) : Prop :=
  ∃ raw, d.read = some raw ∧
    (raw.data.size = 0 ∧ d.handled = [] ∨
      Carries (parseServer cfg.heap) raw.data 0 raw.fds d.handled)

/-- The messages in the bytes of a batch between two needles. -/
inductive Leads (parse : View → List Fd → Nat → Option (Except Fault (Parsed × List Fd)))
    (data : View) (start : Nat) (fds : List Fd) : List Received → Nat → List Fd → Prop
  | here : Leads parse data start fds [] start fds
  | message {needle len : Nat} {rest left : List Fd} {received : Received}
      {handled : List Received} (before : Leads parse data start fds handled needle rest)
      (inside : needle < data.size)
      (read : parse data rest needle = some (.ok (.message received len, left)))
      (length : len ≠ 0) :
      Leads parse data start fds (handled ++ [received]) (wrap (needle + len)) left

/-- A request was handled at a place of the stream, and is the last one so far. All that was
read before it had been handled then, and what was sent by the time it was handled is at
the front of the output. -/
inductive Asked (cfg : Config α) (past : List (Dispatched α)) (seq : UInt32)
    (output : List Message) : Prop
  | request {earlier later : List (Dispatched α)} {own : Dispatched α}
      {raw : SSocketRawParsedMessage} {q q' : ParseState (ServerState α)} {rest : List Received}
      (order : past = earlier ++ own :: later)
      (handled : ∀ d ∈ earlier, d.Whole cfg)
      (sent : ∀ d ∈ earlier, d.after.client.sent <+: q.conn.client.sent)
      (read : own.read = some raw)
      (reaches : Reaches (parseTurn (receiver cfg) raw.data) (firstMessage raw own.before) q)
      (leads : Leads (parseServer cfg.heap) raw.data 0 raw.fds q.handled q.needle q.fds)
      (next : Next (parseTurn (receiver cfg) raw.data) q q')
      (asks : q'.handled = q.handled ++ [.roundtripRequest seq])
      (more : own.handled = q'.handled ++ rest)
      (last : requests rest = [] ∧ ∀ d ∈ later, requests d.handled = [])
      (output : q'.conn.client.sent <+: output)

/-- A request that was asked stays so, while no other one is handled. -/
theorem Asked.extend {cfg : Config α} {past since : List (Dispatched α)} {seq : UInt32}
    {output output' : List Message} (asked : Asked cfg past seq output)
    (quiet : ∀ d ∈ since, requests d.handled = []) (grows : output <+: output') :
    Asked cfg (past ++ since) seq output' := by
  cases asked with
  | @request earlier later own raw q q' rest order handled sent read reaches leads next asks more
      last before =>
      have order : past ++ since = earlier ++ own :: (later ++ since) := by
        rw [order, List.append_assoc, List.cons_append]
      refine .request order handled sent read reaches leads next asks more ⟨last.1, ?_⟩
        (before.trans grows)
      intro d either
      rcases List.mem_append.mp either with early | late
      · exact last.2 d early
      · exact quiet d late

/-! ## What is sent stays sent -/

theorem Sends.grows {client next : CServerClient} {announced : List (UInt32 × UInt32)}
    (sends : Sends client next announced) : client.sent <+: next.sent := by
  obtain ⟨new, sent, -, -⟩ := sends
  exact ⟨new, sent.symm⟩

theorem ActRun.sent_grows {impls : Impls} {client next : CServerClient}
    (run : ActRun impls client next) : client.sent <+: next.sent := by
  induction run with
  | refl => exact List.prefix_rfl
  | step _ acts ih =>
      obtain ⟨announced, sends⟩ := (act_creates acts).sends
      exact ih.trans sends.grows

theorem runCode_grows {cfg : Config α} {code : ServerCode α} {s t : ServerState α}
    (ran : runCode cfg code s = .ok t) : s.client.sent <+: t.client.sent := by
  obtain ⟨trace, -, acts⟩ := runCode_asked cfg code s t ran
  exact acts.run.sent_grows

theorem next_grows {cfg : Config α} {data : View} {p q : ParseState (ServerState α)}
    (next : Next (parseTurn (receiver cfg) data) p q) :
    p.conn.client.sent <+: q.conn.client.sent := by
  obtain ⟨trace, acts, -, -⟩ := parseTurn_trace (.single next)
  exact acts.run.sent_grows

theorem reaches_grows {cfg : Config α} {data : View} {p q : ParseState (ServerState α)}
    (reaches : Reaches (parseTurn (receiver cfg) data) p q) :
    p.conn.client.sent <+: q.conn.client.sent := by
  obtain ⟨trace, acts, -, -⟩ := parseTurn_trace reaches
  exact acts.run.sent_grows

/-! ## The loop over a read -/

/-- The loop handles the messages one after the other. -/
theorem reaches_leads {cfg : Config α} {raw : SSocketRawParsedMessage} {s : ServerState α}
    {p : ParseState (ServerState α)}
    (reaches : Reaches (parseTurn (receiver cfg) raw.data) (firstMessage raw s) p) :
    Leads (parseServer cfg.heap) raw.data 0 raw.fds p.handled p.needle p.fds := by
  induction reaches with
  | refl => exact .here
  | tail _ next ih =>
      obtain ⟨going, received, len, left, conn, read, -, length, rfl⟩ := parseTurn_next_iff.mp next
      exact .message ih going.1 read length

/-- The loop answers nothing. -/
theorem reaches_dones {cfg : Config α} {data : View} {p q : ParseState (ServerState α)}
    (reaches : Reaches (parseTurn (receiver cfg) data) p q) :
    dones q.conn.client.sent = dones p.conn.client.sent := by
  induction reaches with
  | refl => rfl
  | tail _ next ih =>
      obtain ⟨-, received, len, left, conn, -, acted, -, rfl⟩ := parseTurn_next_iff.mp next
      exact (handle_effect acted).2.1.trans ih

/-- Where the loop has scheduled a sequence: the state before the request and after it. -/
inductive LastRequest (cfg : Config α) (data : View) (first p : ParseState (ServerState α)) : Prop
  | none (requests : requests p.handled = requests first.handled)
      (same : p.conn.client.scheduledRoundtripSeq = first.conn.client.scheduledRoundtripSeq)
  | found {q q' : ParseState (ServerState α)} {rest : List Received}
      (reaches : Reaches (parseTurn (receiver cfg) data) first q)
      (next : Next (parseTurn (receiver cfg) data) q q')
      (asks : q'.handled = q.handled ++ [.roundtripRequest p.conn.client.scheduledRoundtripSeq])
      (more : p.handled = q'.handled ++ rest) (last : requests rest = [])
      (output : q'.conn.client.sent <+: p.conn.client.sent)

/-- **What is scheduled is the last request of the loop**, if it has handled one. -/
theorem reaches_lastRequest {cfg : Config α} {data : View} {first p : ParseState (ServerState α)}
    (reaches : Reaches (parseTurn (receiver cfg) data) first p) : LastRequest cfg data first p := by
  induction reaches with
  | refl => exact .none rfl rfl
  | @tail p p' reaches next ih =>
      obtain ⟨-, received, len, left, conn, -, acted, -, same⟩ := parseTurn_next_iff.mp next
      have handled : p'.handled = p.handled ++ [received] := by rw [same]
      have scheduled : p'.conn.client.scheduledRoundtripSeq =
          scheduledAfter p.conn.client.scheduledRoundtripSeq [received] := by
        rw [same]
        exact (handle_effect acted).2.2
      by_cases request : ∃ seq, received = .roundtripRequest seq
      · obtain ⟨seq, rfl⟩ := request
        have scheduled : p'.conn.client.scheduledRoundtripSeq = seq := scheduled
        refine .found reaches next ?_ (List.append_nil _).symm rfl List.prefix_rfl
        rw [handled, scheduled]
      · have none : requests [received] = [] := by
          cases received with
          | roundtripRequest seq => exact absurd ⟨seq, rfl⟩ request
          | _ => rfl
        rw [scheduledAfter, none] at scheduled
        have scheduled : p'.conn.client.scheduledRoundtripSeq =
          p.conn.client.scheduledRoundtripSeq := scheduled
        cases ih with
        | none requests same =>
            refine .none ?_ (scheduled.trans same)
            rw [handled, requests_append, none, List.append_nil, requests]
        | @found q q' rest before own asks more last output =>
            have more : p'.handled = q'.handled ++ (rest ++ [received]) := by
              rw [handled, more, List.append_assoc]
            refine .found before own ?_ more ?_ (output.trans (next_grows next))
            · rw [scheduled]
              exact asks
            · rw [requests_append, last, none, List.append_nil]

/-- What follows a loop: an error is told, or the sequence that is scheduled is answered, or
nothing is sent. -/
inductive Closes (p t : ServerState α) : Prop
  | failed (message : Message) (sent : t.client.sent = p.client.sent ++ [message])
      (other : dones [message] = [])
      (kept : t.client.scheduledRoundtripSeq = p.client.scheduledRoundtripSeq)
  | answered (nonzero : p.client.scheduledRoundtripSeq ≠ 0)
      (sent : t.client.sent =
        p.client.sent ++ [.roundtripDone p.client.scheduledRoundtripSeq])
      (cleared : t.client.scheduledRoundtripSeq = 0)
  | nothing (sent : t.client.sent = p.client.sent) (cleared : t.client.scheduledRoundtripSeq = 0)

theorem Ends.closes {cfg : Config α} {data : View} {p : ParseState (ServerState α)}
    {t : ServerState α} (ends : Ends cfg data p t) : Closes p.conn t := by
  cases ends with
  | malformed => exact .failed _ rfl rfl rfl
  | invalid => exact .failed _ rfl rfl rfl
  | stray => exact .failed _ rfl rfl rfl
  | finished =>
      simp only [afterBatch, ne_eq, not_true, if_false]
      split
      · next scheduled => exact .answered (UInt32.pos_iff_ne_zero.mp scheduled) rfl rfl
      · next none => exact .nothing rfl (UInt32.le_zero_iff.mp (UInt32.not_lt.mp none))

/-! ## Sessions go on -/

/-- An error that stays was not there before, if it is not there. -/
theorem clean_before {client next : CServerClient}
    (stays : client.error = true → next.error = true) (errorFree : next.error = false) :
    client.error = false := by
  cases errs : client.error with
  | false => rfl
  | true =>
      rw [stays errs] at errorFree
      cases errorFree

namespace Session

variable {cfg : Config α} {start t u : ServerState α} {past : List (Dispatched α)}

/-- What had been sent after a dispatch is at the front of the output. -/
theorem sent (session : Session cfg start past t) :
    ∀ d ∈ past, d.after.client.sent <+: t.client.sent := by
  induction session with
  | start => exact fun _ none => absurd none List.not_mem_nil
  | dispatch session dispatched ih =>
      have grows := (dispatchClient_run dispatched).sent_grows
      refine List.forall_mem_append.mpr ⟨fun d early => (ih d early).trans grows, ?_⟩
      rintro d late
      rw [List.mem_singleton.mp late]
  | application session ran ih => exact fun d early => (ih d early).trans (runCode_grows ran)

/-- Without an error every read has been handled to its end. -/
theorem whole (session : Session cfg start past t) (errorFree : t.client.error = false) :
    ∀ d ∈ past, d.Whole cfg := by
  induction session with
  | start => exact fun _ none => absurd none List.not_mem_nil
  | @dispatch past t u turns read handled session dispatched ih =>
      obtain ⟨trace, acts, -, -⟩ := dispatchClient_trace dispatched
      have before := clean_before acts.error errorFree
      refine List.forall_mem_append.mpr ⟨ih before, ?_⟩
      intro d one
      rw [List.mem_singleton.mp one]
      cases read with
      | none =>
          cases dispatched
          cases errorFree
      | some raw =>
          refine ⟨raw, rfl, ?_⟩
          by_cases bytes : raw.data.size = 0
          · rw [dispatchClient_empty bytes] at dispatched
            cases dispatched
            exact .inl ⟨bytes, rfl⟩
          · exact .inr (dispatchClient_carries bytes dispatched errorFree)
  | application session ran ih =>
      have quiet : Quiet _ _ := runCode_quiet cfg _ _ _ ran
      exact ih (clean_before quiet.error errorFree)

/-- What a dispatch has scheduled by the end of its loop is asked for. -/
theorem asked_loop (session : Session cfg start past t) {raw : SSocketRawParsedMessage}
    {p : ParseState (ServerState α)}
    (reaches : Reaches (parseTurn (receiver cfg) raw.data) (firstMessage raw t) p)
    (before : t.client.scheduledRoundtripSeq ≠ 0 →
      Asked cfg past t.client.scheduledRoundtripSeq t.client.sent)
    (nonzero : p.conn.client.scheduledRoundtripSeq ≠ 0) (next : ServerState α) :
    Asked cfg (past ++ [⟨some raw, t, next, p.handled⟩]) p.conn.client.scheduledRoundtripSeq
      p.conn.client.sent := by
  cases reaches_lastRequest reaches with
  | none quiet same =>
      have same : p.conn.client.scheduledRoundtripSeq = t.client.scheduledRoundtripSeq := same
      rw [same] at nonzero ⊢
      refine (before nonzero).extend ?_ (reaches_grows reaches)
      intro d one
      rw [List.mem_singleton.mp one]
      exact quiet
  | @found q q' rest reached own asks more last output =>
      -- The request was handled without an error, so that no read before has failed.
      have errorFree : t.client.error = false := by
        obtain ⟨trace, acts, -, -⟩ := parseTurn_trace reached
        exact clean_before acts.error (parseTurn_next_iff.mp own).1.2
      have grows : t.client.sent <+: q.conn.client.sent := reaches_grows reached
      exact .request rfl (session.whole errorFree) (fun d early => (session.sent d early).trans grows)
        rfl reached (reaches_leads reached) own asks more
        ⟨last, fun _ none => absurd none List.not_mem_nil⟩ output

/-- **A sequence that is scheduled is asked for**, after errors as well. -/
theorem scheduled {memory : α} (session : Session cfg (.fresh memory) past t)
    (nonzero : t.client.scheduledRoundtripSeq ≠ 0) :
    Asked cfg past t.client.scheduledRoundtripSeq t.client.sent := by
  induction session with
  | start => exact absurd rfl nonzero
  | @dispatch past t u turns read handled session dispatched ih =>
      have quiet : ∀ d ∈ [(⟨read, t, t, []⟩ : Dispatched α)], requests d.handled = [] := by
        intro d one
        rw [List.mem_singleton.mp one]
        rfl
      cases read with
      | none =>
          cases dispatched
          refine (ih nonzero).extend ?_ (List.prefix_append _ _)
          intro d one
          rw [List.mem_singleton.mp one]
          rfl
      | some raw =>
          by_cases bytes : raw.data.size = 0
          · rw [dispatchClient_empty bytes] at dispatched
            cases dispatched
            exact (ih nonzero).extend quiet List.prefix_rfl
          · obtain ⟨p, reaches, rfl, ends⟩ := dispatchClient_ends bytes dispatched
            have asked := fun scheduled => session.asked_loop reaches ih scheduled u
            cases ends.closes with
            | failed message sent other kept =>
                rw [kept] at nonzero ⊢
                have grows := (asked nonzero).extend (fun _ none => absurd none List.not_mem_nil)
                  ⟨_, sent.symm⟩
                rwa [List.append_nil] at grows
            | answered _ _ cleared => exact absurd cleared nonzero
            | nothing _ cleared => exact absurd cleared nonzero
  | @application past t u code session ran ih =>
      have quiet : Quiet t.client u.client := runCode_quiet cfg code t u ran
      rw [quiet.scheduled] at nonzero ⊢
      have grows := (ih nonzero).extend (fun _ none => absurd none List.not_mem_nil)
        (runCode_grows ran)
      rwa [List.append_nil] at grows

end Session

/-! ## Acknowledgements -/

/-- An acknowledgement stands where it did, when no other one is sent. -/
theorem done_of_append {sent new before after : List Message} {seq : UInt32}
    (other : dones new = []) (all : sent ++ new = before ++ .roundtripDone seq :: after) :
    ∃ rest, sent = before ++ .roundtripDone seq :: rest := by
  rcases List.append_eq_append_iff.mp all with ⟨front, rfl, same⟩ | ⟨back, rfl, same⟩
  · -- The acknowledgement would be among what is new.
    have here : seq ∈ dones new := by
      rw [same]
      exact List.mem_filterMap.mpr
        ⟨.roundtripDone seq, List.mem_append_right _ List.mem_cons_self, rfl⟩
    rw [other] at here
    exact absurd here List.not_mem_nil
  · cases back with
    | nil =>
        have here : seq ∈ dones new := by
          rw [← List.nil_append new, ← same]
          exact List.mem_filterMap.mpr ⟨.roundtripDone seq, List.mem_cons_self, rfl⟩
        rw [other] at here
        exact absurd here List.not_mem_nil
    | cons first rest =>
        obtain ⟨rfl, -⟩ := List.cons.inj same
        exact ⟨rest, rfl⟩

/-- What was sent without an acknowledgement has none that is new. -/
theorem new_of_dones {client next : CServerClient} (grows : client.sent <+: next.sent)
    (same : dones next.sent = dones client.sent) :
    ∃ new, next.sent = client.sent ++ new ∧ dones new = [] := by
  obtain ⟨new, sent⟩ := grows
  refine ⟨new, sent.symm, ?_⟩
  rw [← sent, dones, List.filterMap_append] at same
  exact List.append_cancel_left (same.trans (List.append_nil _).symm)

/-- An acknowledgement of a dispatch is an earlier one, or it is the last that was sent and
what was asked for has been sent before. -/
theorem Session.acknowledges {cfg : Config α} {memory : α} {past : List (Dispatched α)}
    {t u : ServerState α} {turns : Nat} {read : Option SSocketRawParsedMessage}
    {handled : List Received} (session : Session cfg (.fresh memory) past t)
    (dispatched : dispatchClient cfg turns read t = some (.ok (u, handled)))
    {before after : List Message} {seq : UInt32}
    (sent : u.client.sent = before ++ .roundtripDone seq :: after) :
    (∃ rest, t.client.sent = before ++ .roundtripDone seq :: rest) ∨
      after = [] ∧ Asked cfg (past ++ [⟨read, t, u, handled⟩]) seq before := by
  cases read with
  | none =>
      cases dispatched
      exact .inl (done_of_append rfl sent)
  | some raw =>
      by_cases bytes : raw.data.size = 0
      · rw [dispatchClient_empty bytes] at dispatched
        cases dispatched
        exact .inl ⟨after, sent⟩
      · obtain ⟨p, reaches, rfl, ends⟩ := dispatchClient_ends bytes dispatched
        obtain ⟨new, looped, quiet⟩ := new_of_dones (reaches_grows reaches) (reaches_dones reaches)
        have looped : p.conn.client.sent = t.client.sent ++ new := looped
        cases ends.closes with
        | failed message closed other kept =>
            rw [closed] at sent
            obtain ⟨rest, sent⟩ := done_of_append other sent
            rw [looped] at sent
            exact .inl (done_of_append quiet sent)
        | nothing closed cleared =>
            rw [closed, looped] at sent
            exact .inl (done_of_append quiet sent)
        | answered nonzero closed cleared =>
            rcases List.eq_nil_or_concat after with rfl | ⟨front, last, rfl⟩
            · obtain ⟨rfl, same⟩ := List.append_inj' (closed.symm.trans sent) rfl
              obtain rfl := Message.roundtripDone.inj (List.cons.inj same).1
              exact .inr ⟨rfl, session.asked_loop reaches session.scheduled nonzero u⟩
            · -- An acknowledgement that something follows was sent before.
              rw [closed, List.concat_eq_append, ← List.cons_append, ← List.append_assoc] at sent
              obtain ⟨sent, -⟩ := List.append_inj' sent rfl
              rw [looped] at sent
              exact .inl (done_of_append quiet sent)

/-- **Acknowledgements never come early**: each was sent at the end of a dispatch, and what
came before its request had been handled and answered by then. -/
theorem acknowledged_after {cfg : Config α} {memory : α} {past : List (Dispatched α)}
    {t : ServerState α} (session : Session cfg (.fresh memory) past t)
    {before after : List Message} {seq : UInt32}
    (sent : t.client.sent = before ++ .roundtripDone seq :: after) :
    ∃ upto own since, past = upto ++ own :: since ∧
      own.after.client.sent = before ++ [.roundtripDone seq] ∧
      Asked cfg (upto ++ [own]) seq before := by
  induction session generalizing after with
  | start =>
      have none := congrArg List.length sent
      simp [ServerState.fresh] at none
  | @dispatch past t u turns read handled session dispatched ih =>
      rcases session.acknowledges dispatched sent with ⟨rest, early⟩ | ⟨rfl, asked⟩
      · obtain ⟨upto, own, since, order, output, asked⟩ := ih early
        refine ⟨upto, own, since ++ [⟨read, t, u, handled⟩], ?_, output, asked⟩
        rw [order, List.append_assoc, List.cons_append]
      · exact ⟨past, ⟨read, t, u, handled⟩, [], rfl, sent, asked⟩
  | @application past t u code session ran ih =>
      have quiet : Quiet t.client u.client := runCode_quiet cfg code t u ran
      obtain ⟨new, grows, none⟩ := new_of_dones (runCode_grows ran) quiet.dones
      rw [grows] at sent
      obtain ⟨rest, early⟩ := done_of_append none sent
      exact ih early

/-- A request that came with a descriptor too many is answered after the next read. -/
theorem acknowledged_late :
    ∃ (past : List (Dispatched Unit)) (t : ServerState Unit) (before : List Message),
      Session idle (.fresh ()) past t ∧ t.client.error = true ∧
        t.client.sent = before ++ .roundtripDone 7 :: [] ∧
        ∃ upto own since, past = upto ++ own :: since ∧
          own.after.client.sent = before ++ [.roundtripDone 7] ∧
          Asked idle (upto ++ [own]) 7 before := by
  have first :
      dispatchClient idle 2 (some { reading (CRoundtripRequestMessage.encode 7) (by decide) with
          fds := [3] }) (.fresh ()) =
        some (.ok (afterBatch .strayFds ⟨{ scheduledRoundtripSeq := 7 }, ()⟩,
          [.roundtripRequest 7])) := by
    rfl
  have second :
      dispatchClient idle 2 (some (reading [0] (by decide)))
          (afterBatch .strayFds ⟨{ scheduledRoundtripSeq := 7 }, ()⟩) =
        some (.ok (afterBatch .parsedOk
          (afterBatch .strayFds ⟨{ scheduledRoundtripSeq := 7 }, ()⟩), [])) := by
    rfl
  have session := Session.dispatch (.dispatch .start first) second
  exact ⟨_, _, _, session, rfl, rfl, acknowledged_after session rfl⟩

end Hyprwire.Server
