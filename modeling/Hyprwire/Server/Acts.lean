import Hyprwire.Server.Dispatch

/-!
# The acts of the server

As on the client, a connection is changed by single acts only (`Act`), and `ActRun` is
any sequence of them. `act_answers` says what an act does to the roundtrips. A `Trace` lists
the acts with the connection before and after each. `dispatchClient_ends` says how a
dispatch goes through the messages and ends, and `dispatchClient_trace` that it is a trace
of the messages that are handled.
-/

set_option autoImplicit false

namespace Hyprwire.Server

open Cpp Wire Object

/-- What can happen to a connection. -/
inductive Act where
  | createObject (protocol object : Str) (version seq : UInt32)
  | call (object : Nat) (id : UInt32) (args : List Arg)
  | error (object : Nat) (id : UInt32) (message : Str)
  | listen (object : Nat) (id : UInt32) (fn : Option Callback)
  | receive (message : Received)
  | refuse
  | answer
  | fail (message : String)

namespace CServerClient

/-- The end of a batch: the roundtrip that is scheduled is answered. -/
def answer (client : CServerClient) : CServerClient :=
  if 0 < client.scheduledRoundtripSeq then
    { client.sendMessage (.roundtripDone client.scheduledRoundtripSeq) with
      scheduledRoundtripSeq := 0 }
  else
    client

/-- The connection after an act. -/
def act (impls : Impls) (client : CServerClient) : Act → Option (Except Fault CServerClient)
  | .createObject protocol object version seq =>
      some (.ok (createObject impls protocol object version seq client).2)
  | .call object id args => some ((client.call object id args).map Prod.snd)
  | .error object id message => some (client.raiseAt object id message)
  | .listen object id fn => some (client.listen object id fn)
  | .receive message => (client.receive impls message).map fun result => result.map Prod.fst
  | .refuse => some (.ok client.setError)
  | .answer => some (.ok client.answer)
  | .fail message =>
      some (.ok (client.sendMessage (.fatalError none 0xffffffff (text message))).setError)

end CServerClient

/-- What an act does to the roundtrips. -/
inductive Answers (client : CServerClient) (act : Act) (next : CServerClient) : Prop
  | quiet (same : Quiet client next)
  | scheduled (seq : UInt32) (asked : act = .receive (.roundtripRequest seq))
      (dones : dones next.sent = dones client.sent) (scheduled : next.scheduledRoundtripSeq = seq)
  | answered (dones : dones next.sent = dones client.sent ++ [client.scheduledRoundtripSeq])
      (nonzero : client.scheduledRoundtripSeq ≠ 0) (scheduled : next.scheduledRoundtripSeq = 0)

theorem act_answers {impls : Impls} {client next : CServerClient} {act : Act}
    (acts : client.act impls act = some (.ok next)) : Answers client act next := by
  cases act with
  | createObject protocol object version seq => cases acts; exact .quiet (.createObject _ _ _ _ _ _)
  | call object id args =>
      obtain ⟨⟨result, _⟩, called, rfl⟩ := map_eq_ok.mp (Option.some.inj acts)
      exact .quiet (.call called)
  | error object id message => exact .quiet (.raiseAt (Option.some.inj acts))
  | listen object id fn => exact .quiet (.listen (Option.some.inj acts))
  | receive message =>
      obtain ⟨received, run, rest⟩ := Option.map_eq_some_iff.mp acts
      obtain ⟨⟨_, invocation⟩, rfl, rfl⟩ := map_eq_ok.mp rest
      obtain ⟨error, dones, scheduled⟩ := receive_effect run
      cases message with
      | roundtripRequest seq => exact .scheduled seq rfl dones scheduled
      | _ => exact .quiet ⟨error, dones, scheduled⟩
  | refuse => cases acts; exact .quiet (.setError _)
  | answer =>
      cases acts
      rw [CServerClient.answer]
      split
      · next scheduled =>
        exact .answered List.filterMap_append (UInt32.pos_iff_ne_zero.mp scheduled) rfl
      · exact .quiet (.refl _)
  | fail message => cases acts; exact .quiet ((Quiet.sendMessage rfl).trans (.setError _))

/-- No act takes an error back. -/
theorem act_error {impls : Impls} {client next : CServerClient} {act : Act}
    (acts : client.act impls act = some (.ok next)) (errs : client.error = true) :
    next.error = true := by
  cases act with
  | createObject protocol object version seq =>
      cases acts
      exact (Quiet.createObject impls protocol object version seq client).error errs
  | call object id args =>
      obtain ⟨⟨result, _⟩, called, rfl⟩ := map_eq_ok.mp (Option.some.inj acts)
      exact (Quiet.call called).error errs
  | error object id message => exact (Quiet.raiseAt (Option.some.inj acts)).error errs
  | listen object id fn => exact (Quiet.listen (Option.some.inj acts)).error errs
  | receive message =>
      obtain ⟨received, run, rest⟩ := Option.map_eq_some_iff.mp acts
      obtain ⟨⟨_, invocation⟩, rfl, rfl⟩ := map_eq_ok.mp rest
      exact (receive_effect run).1 errs
  | refuse => cases acts; rfl
  | answer =>
      cases acts
      rw [CServerClient.answer]
      split
      · exact errs
      · exact errs
  | fail message => cases acts; rfl

/-- A run of acts. -/
inductive ActRun (impls : Impls) (start : CServerClient) : CServerClient → Prop
  | refl : ActRun impls start start
  | step {client next : CServerClient} {act : Act} (run : ActRun impls start client)
      (acts : client.act impls act = some (.ok next)) : ActRun impls start next

namespace ActRun

variable {impls : Impls} {start client next : CServerClient}

theorem trans (first : ActRun impls start client) (second : ActRun impls client next) :
    ActRun impls start next := by
  induction second with
  | refl => exact first
  | step _ acts ih => exact ih.step acts

theorem single (act : Act) (acts : client.act impls act = some (.ok next)) :
    ActRun impls client next := .step .refl acts

end ActRun

/-! ## Traces -/

/-- An act that was performed, with the connection before it and after it. -/
structure Performed where
  act : Act
  before : CServerClient
  after : CServerClient

/-- The acts that were performed one after the other. -/
inductive Trace (impls : Impls) : CServerClient → List Performed → CServerClient → Prop
  | nil {client : CServerClient} : Trace impls client [] client
  | cons {client next last : CServerClient} {act : Act} {rest : List Performed}
      (acts : client.act impls act = some (.ok next)) (more : Trace impls next rest last) :
      Trace impls client (⟨act, client, next⟩ :: rest) last

namespace Trace

variable {impls : Impls} {client next last : CServerClient} {first second : List Performed}

theorem single {act : Act} (acts : client.act impls act = some (.ok next)) :
    Trace impls client [⟨act, client, next⟩] next :=
  .cons acts .nil

theorem append (one : Trace impls client first next) (two : Trace impls next second last) :
    Trace impls client (first ++ second) last := by
  induction one with
  | nil => exact two
  | cons acts _ ih => exact .cons acts (ih two)

/-- Each act of a trace leads from its connection to the next. -/
theorem acts (trace : Trace impls client first last) :
    ∀ p ∈ first, p.before.act impls p.act = some (.ok p.after) := by
  induction trace with
  | nil => exact fun _ none => absurd none List.not_mem_nil
  | cons acts _ ih => exact List.forall_mem_cons.mpr ⟨acts, ih⟩

theorem error (trace : Trace impls client first last) (errs : client.error = true) :
    last.error = true := by
  induction trace with
  | nil => exact errs
  | cons acts _ ih => exact ih (act_error acts errs)

theorem run (trace : Trace impls client first last) : ActRun impls client last := by
  induction trace with
  | nil => exact .refl
  | cons acts _ ih => exact (ActRun.single _ acts).trans ih

end Trace

/-- The acts that the application asks for. -/
def Act.ByApplication : Act → Prop
  | .createObject _ _ _ _ => True
  | .call _ _ _ => True
  | .error _ _ _ => True
  | .listen _ _ _ => True
  | _ => False

/-- The messages that were acted on. -/
def receivedIn (trace : List Performed) : List Received :=
  trace.filterMap fun performed =>
    match performed.act with
    | .receive message => some message
    | _ => none

theorem receivedIn_append (first second : List Performed) :
    receivedIn (first ++ second) = receivedIn first ++ receivedIn second :=
  List.filterMap_append

/-- The application takes no messages. -/
theorem receivedIn_application {trace : List Performed}
    (own : ∀ performed ∈ trace, performed.act.ByApplication) : receivedIn trace = [] := by
  refine List.filterMap_eq_nil_iff.mpr fun performed member => ?_
  have asked := own performed member
  cases same : performed.act with
  | receive message =>
      rw [same] at asked
      exact asked.elim
  | _ => rfl

/-! ## A dispatch is a trace -/

variable {α : Type}

/-- The relation of two states of the server that the application joins. -/
def AskedState (impls : Impls) (s t : ServerState α) : Prop :=
  ∃ trace, (∀ performed ∈ trace, performed.act.ByApplication) ∧
    Trace impls s.client trace t.client

namespace AskedState

variable {impls : Impls} {s t u : ServerState α}

theorem of_same (same : t.client = s.client) : AskedState impls s t :=
  ⟨[], fun _ none => absurd none List.not_mem_nil, same ▸ .nil⟩

theorem single {act : Act} (asked : act.ByApplication)
    (acts : s.client.act impls act = some (.ok t.client)) : AskedState impls s t := by
  refine ⟨_, ?_, .single acts⟩
  intro performed one
  rw [List.mem_singleton.mp one]
  exact asked

theorem trans (first : AskedState impls s t) (second : AskedState impls t u) :
    AskedState impls s u := by
  obtain ⟨before, one, trace⟩ := first
  obtain ⟨after, two, trace'⟩ := second
  refine ⟨before ++ after, ?_, trace.append trace'⟩
  intro performed either
  rcases List.mem_append.mp either with early | late
  · exact one performed early
  · exact two performed late

end AskedState

theorem invoke_asked {cfg : Config α}
    {callback : ServerCode α → ServerState α → Except Fault (ServerState α)}
    (asks : ∀ code, Keeps (AskedState cfg.impls) id (callback code))
    (invocation : Option Invocation) :
    Keeps (AskedState cfg.impls) id fun s => invoke cfg callback s invocation := by
  intro s t run
  cases invocation with
  | none =>
      cases run
      exact .of_same rfl
  | some invocation => exact asks _ _ _ run

theorem perform_asked {cfg : Config α}
    {callback : ServerCode α → ServerState α → Except Fault (ServerState α)}
    (asks : ∀ code, Keeps (AskedState cfg.impls) id (callback code)) (request : Request α) :
    Keeps (AskedState cfg.impls) Prod.snd (perform cfg callback request) := by
  intro s t run
  cases request with
  | createObject reference object seq =>
      cases reference with
      | none =>
          cases run
          exact .of_same rfl
      | some ref =>
          obtain ⟨u, called, rest⟩ := bind_eq_ok.mp run
          cases rest
          have first : AskedState cfg.impls s { s with client := (CServerClient.createObject
              cfg.impls ref.protocolName object ref.version seq s.client).2 } :=
            @AskedState.single _ _ _ _ (.createObject ref.protocolName object ref.version seq)
              trivial rfl
          exact first.trans (invoke_asked asks _ _ _ called)
  | call object id args =>
      obtain ⟨⟨result, client⟩, called, rest⟩ := bind_eq_ok.mp run
      cases rest
      refine @AskedState.single _ _ _ _ (.call object id args) trivial ?_
      simp only [CServerClient.act, called]
      rfl
  | error object id message =>
      obtain ⟨client, called, rest⟩ := bind_eq_ok.mp run
      cases rest
      refine @AskedState.single _ _ _ _ (.error object id message) trivial ?_
      simp only [CServerClient.act, called]
  | listen object id fn =>
      obtain ⟨client, called, rest⟩ := bind_eq_ok.mp run
      cases rest
      refine @AskedState.single _ _ _ _ (.listen object id fn) trivial ?_
      simp only [CServerClient.act, called]
  | load =>
      cases run
      exact .of_same rfl
  | store memory =>
      cases run
      exact .of_same rfl

/-- What the application does is what it asks for. -/
theorem runCode_asked (cfg : Config α) (code : ServerCode α) :
    Keeps (AskedState cfg.impls) id (runCode cfg code) :=
  exec_keeps (fun _ => .of_same rfl) (fun _ _ _ first second => first.trans second)
    (fun _ asks request => perform_asked asks request) cfg.frames code

/-- Acting on a message is the receipt of it, and what the application then asks for. -/
theorem handle_trace {cfg : Config α} {message : Received} {s t : ServerState α}
    (run : handle cfg message s = some (.ok t)) :
    ∃ next trace, s.client.act cfg.impls (.receive message) = some (.ok next) ∧
      (∀ performed ∈ trace, performed.act.ByApplication) ∧
      Trace cfg.impls next trace t.client := by
  obtain ⟨received, library, rest⟩ := Option.map_eq_some_iff.mp run
  cases received with
  | error fault => cases rest
  | ok result =>
      obtain ⟨client, invocation⟩ := result
      obtain ⟨trace, own, asked⟩ :=
        invoke_asked (runCode_asked cfg) invocation { s with client } t rest
      refine ⟨client, trace, ?_, own, asked⟩
      simp only [CServerClient.act, library]
      rfl

/-- The trace of a loop: the messages are received by a connection without an error, and
the rest is what the application asks for. -/
def InLoop (performed : Performed) : Prop :=
  performed.act.ByApplication ∨
    ∃ message, performed.act = .receive message ∧ performed.before.error = false

/-- **The loop over a read is a trace** of the messages that are handled. -/
theorem parseTurn_trace {cfg : Config α} {data : View} {s t : ParseState (ServerState α)}
    (reaches : Reaches (parseTurn (receiver cfg) data) s t) :
    ∃ trace, Trace cfg.impls s.conn.client trace t.conn.client ∧
      t.handled = s.handled ++ receivedIn trace ∧ ∀ performed ∈ trace, InLoop performed := by
  induction reaches with
  | refl => exact ⟨[], .nil, (List.append_nil _).symm, fun _ none => absurd none List.not_mem_nil⟩
  | tail _ next ih =>
      obtain ⟨before, trace, handled, loops⟩ := ih
      obtain ⟨going, received, len, left, conn, -, acted, -, rfl⟩ := parseTurn_next_iff.mp next
      obtain ⟨client, after, acts, own, asked⟩ := handle_trace acted
      refine ⟨before ++ ⟨_, _, _⟩ :: after, trace.append (.cons acts asked), ?_, ?_⟩
      · simp only [handled, receivedIn_append, List.append_assoc]
        rw [show receivedIn (⟨_, _, _⟩ :: after) = received :: receivedIn after from rfl,
          receivedIn_application own]
      · intro performed either
        rcases List.mem_append.mp either with early | late
        · exact loops performed early
        · rcases List.mem_cons.mp late with rfl | last
          · exact .inr ⟨received, rfl, going.2⟩
          · exact .inl (own performed last)

/-- How a dispatch ends after the last message that was acted on: the bytes that come next
are no message or one that clients do not send, or the loop has stopped, with descriptors
left over or without. -/
inductive Ends (cfg : Config α) (data : View) (p : ParseState (ServerState α)) :
    ServerState α → Prop
  | malformed {left : List Fd} (going : p.needle < data.size ∧ p.conn.client.error = false)
      (read : parseServer cfg.heap data p.fds p.needle = some (.ok (.malformed, left))) :
      Ends cfg data p (afterBatch .parsedError p.conn)
  | invalid {left : List Fd} (going : p.needle < data.size ∧ p.conn.client.error = false)
      (read : parseServer cfg.heap data p.fds p.needle = some (.ok (.invalid, left))) :
      Ends cfg data p
        (afterBatch .parsedError { p.conn with client := p.conn.client.setError })
  | stray (ended : data.size ≤ p.needle ∨ p.conn.client.error = true) (left : p.fds ≠ []) :
      Ends cfg data p (afterBatch .strayFds p.conn)
  | finished (ended : data.size ≤ p.needle ∨ p.conn.client.error = true) (none : p.fds = []) :
      Ends cfg data p (afterBatch .parsedOk p.conn)

/-- **A dispatch goes through the messages and ends.** -/
theorem dispatchClient_ends {cfg : Config α} {turns : Nat} {raw : SSocketRawParsedMessage}
    {s t : ServerState α} {handled : List Received} (bytes : raw.data.size ≠ 0)
    (dispatched : dispatchClient cfg turns (some raw) s = some (.ok (t, handled))) :
    ∃ p, Reaches (parseTurn (receiver cfg) raw.data) (firstMessage raw s) p ∧
      handled = p.handled ∧ Ends cfg raw.data p t := by
  obtain ⟨h, run, rfl, rfl⟩ := (dispatchClient_eq_ok bytes).mp dispatched
  obtain ⟨p, reaches, leaves⟩ := exits_iff.mp ⟨turns, run⟩
  simp only [parseTurn, Bool.not_eq_true] at leaves
  split at leaves
  · next going =>
    split at leaves
    · cases leaves
    · cases leaves
    · next left read =>
      cases leaves
      exact ⟨p, reaches, rfl, .malformed going read⟩
    · next left read =>
      cases leaves
      exact ⟨p, reaches, rfl, .invalid going read⟩
    · next received len left read =>
      -- A message that the server reads has a length.
      have length : len ≠ 0 := (parseServer_message read).2.2
      split at leaves
      · cases leaves
      · cases leaves
      · simp only [length, if_false] at leaves
        cases leaves
  · next stopped =>
    have ended : raw.data.size ≤ p.needle ∨ p.conn.client.error = true := by
      rwa [not_and_or, Nat.not_lt, Bool.not_eq_false] at stopped
    by_cases none : p.fds = []
    · simp only [none, ne_eq, not_true, if_false] at leaves
      cases leaves
      exact ⟨p, reaches, rfl, .finished ended none⟩
    · simp only [none, ne_eq, not_false_eq_true, if_true] at leaves
      cases leaves
      exact ⟨p, reaches, rfl, .stray ended none⟩

/-- An act in the trace of a dispatch. -/
def OfDispatch (performed : Performed) : Prop :=
  InLoop performed ∨ performed.act = .refuse ∨ performed.act = .answer ∨
    ∃ message, performed.act = .fail message

/-- The acts after the last message. -/
theorem Ends.trace {cfg : Config α} {data : View} {p : ParseState (ServerState α)}
    {t : ServerState α} (ends : Ends cfg data p t) :
    ∃ trace, Trace cfg.impls p.conn.client trace t.client ∧ receivedIn trace = [] ∧
      ∀ performed ∈ trace, OfDispatch performed := by
  have failed : ∀ (client : CServerClient) (message : String) (next : CServerClient),
      ∀ performed ∈ [⟨.fail message, client, next⟩], OfDispatch performed := by
    intro client message next performed one
    rw [List.mem_singleton.mp one]
    exact .inr (.inr (.inr ⟨message, rfl⟩))
  cases ends with
  | malformed => exact ⟨_, @Trace.single _ _ _ (.fail _) rfl, rfl, failed _ _ _⟩
  | invalid =>
      refine ⟨_, @Trace.cons _ _ _ _ .refuse _ rfl (@Trace.single _ _ _ (.fail _) rfl), rfl, ?_⟩
      exact List.forall_mem_cons.mpr ⟨.inr (.inl rfl), failed _ _ _⟩
  | stray => exact ⟨_, @Trace.single _ _ _ (.fail _) rfl, rfl, failed _ _ _⟩
  | finished =>
      refine ⟨_, @Trace.single _ _ _ .answer ?_, rfl, ?_⟩
      · simp only [CServerClient.act, CServerClient.answer, afterBatch, ne_eq, not_true, if_false]
        split <;> rfl
      · intro performed one
        rw [List.mem_singleton.mp one]
        exact .inr (.inr (.inl rfl))

/-- **A dispatch is a trace** of the messages that are handled. -/
theorem dispatchClient_trace {cfg : Config α} {turns : Nat}
    {read : Option SSocketRawParsedMessage} {s t : ServerState α} {handled : List Received}
    (dispatched : dispatchClient cfg turns read s = some (.ok (t, handled))) :
    ∃ trace, Trace cfg.impls s.client trace t.client ∧ receivedIn trace = handled ∧
      ∀ performed ∈ trace, OfDispatch performed := by
  cases read with
  | none =>
      cases dispatched
      refine ⟨_, @Trace.single _ _ _ (.fail _) rfl, rfl, fun performed one => ?_⟩
      rw [List.mem_singleton.mp one]
      exact .inr (.inr (.inr ⟨_, rfl⟩))
  | some raw =>
      by_cases bytes : raw.data.size = 0
      · rw [dispatchClient_empty bytes] at dispatched
        cases dispatched
        exact ⟨[], .nil, rfl, fun _ none => absurd none List.not_mem_nil⟩
      · obtain ⟨p, reaches, rfl, ends⟩ := dispatchClient_ends bytes dispatched
        obtain ⟨loop, trace, all, loops⟩ := parseTurn_trace reaches
        obtain ⟨last, trace', none, shape⟩ := ends.trace
        refine ⟨loop ++ last, trace.append trace', ?_, fun performed either => ?_⟩
        · rw [receivedIn_append, none, List.append_nil, all]
          rfl
        · rcases List.mem_append.mp either with early | late
          · exact .inl (loops performed early)
          · exact shape performed late

/-- **A dispatch is a run of the connection.** -/
theorem dispatchClient_run {cfg : Config α} {turns : Nat} {read : Option SSocketRawParsedMessage}
    {s t : ServerState α} {handled : List Received}
    (dispatched : dispatchClient cfg turns read s = some (.ok (t, handled))) :
    ActRun cfg.impls s.client t.client := by
  obtain ⟨trace, performed, -, -⟩ := dispatchClient_trace dispatched
  exact performed.run

end Hyprwire.Server
