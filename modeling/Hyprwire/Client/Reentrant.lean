import Hyprwire.Client.Dispatch

/-!
# Listeners that dispatch

A listener can call `dispatchEvents` again, by itself or from `roundtrip`, `bindProtocol`
and `waitForHandshake`, while the batch it was called from has messages left. Here the
functions of the library that are in progress are the frames of a stack (`Frame`), each of
which goes on with one `Step` at a time. The application is not fixed: where it has control,
at the top or in a listener, it may call any function.

A step changes the connection by acts only (`Step.acts`), and a dispatch whose listeners do
not dispatch is a run of steps (`dispatchEvents_steps`).
-/

set_option autoImplicit false

namespace Hyprwire.Client.Reentrant

open Cpp Wire Object

/-! ## The functions in progress -/

/-- What one read returned, and how far the loop over its messages has come. -/
structure Batch where
  data : View
  queue : List Fd
  needle : Nat
  fds : List Fd
  handled : List Received

/-- A read before its first message. -/
def Batch.ofRaw (raw : SSocketRawParsedMessage) : Batch :=
  { data := raw.data, queue := raw.fds, needle := 0, fds := raw.fds, handled := [] }

/-- A function that is in progress. A dispatch has the number of its read, and can be at a
message whose listener is running. -/
inductive Frame where
  | dispatchEvents (number : Nat) (listening : Bool)
  | roundtrip (nextSeq : UInt32)
  | waitForObject (object : Nat)
  | waitForHandshake
  deriving DecidableEq

namespace Frame

/-- The condition of the `while` loop that dispatches. -/
def waits (client : CClientSocket) : Frame → Bool
  | dispatchEvents _ _ => false
  | roundtrip nextSeq => client.lastAckdRoundtripSeq < nextSeq
  | waitForObject object => (client.objects[object]?).map (·.id) = some 0 && !client.error
  | waitForHandshake => !client.error && !client.handshakeDone

/-- A dispatch that fails ends the loop. -/
def breaks : Frame → Bool
  | roundtrip _ | waitForHandshake => true
  | _ => false

/-- The read a dispatch is at. -/
def number? : Frame → Option Nat
  | dispatchEvents number _ => some number
  | _ => none

/-- A dispatch is not a loop that could end. -/
theorem number?_of_breaks {frame : Frame} (breaks : frame.breaks = true) : frame.number? = none := by
  cases frame with
  | dispatchEvents number listening => cases breaks
  | roundtrip nextSeq => rfl
  | waitForObject object => rfl
  | waitForHandshake => rfl

end Frame

/-- The connection with the functions in progress, the innermost first. `batches` has all
that was read, and `log` the messages that were handled, each with the number of its
read. -/
structure Process where
  client : CClientSocket
  frames : List Frame := []
  batches : List Batch := []
  log : List (Nat × Received) := []

namespace Process

/-- The application has control, at the top or in a listener. -/
def application (p : Process) : Bool :=
  match p.frames with
  | [] => true
  | .dispatchEvents _ listening :: _ => listening
  | _ => false

/-- `dispatchEvents` is called, by the application or by a loop that waits. -/
def dispatches (p : Process) : Bool :=
  p.application || (p.frames.head?.map (Frame.waits p.client)).getD false

/-- The read of a batch, before its first message. -/
def reading (p : Process) (raw : SSocketRawParsedMessage) : Process :=
  { p with
    frames := .dispatchEvents p.batches.length false :: p.frames
    batches := p.batches ++ [.ofRaw raw] }

theorem length_reading (p : Process) (raw : SSocketRawParsedMessage) :
    (p.reading raw).batches.length = p.batches.length + 1 := List.length_append

end Process

/-- The functions in progress after a dispatch has returned. -/
def returned (goesOn : Bool) : List Frame → List Frame
  | [] => []
  | frame :: rest => if !goesOn && frame.breaks then rest else frame :: rest

theorem returned_dispatchEvents (goesOn : Bool) (number : Nat) (listening : Bool)
    (rest : List Frame) : returned goesOn (.dispatchEvents number listening :: rest) =
      .dispatchEvents number listening :: rest := by
  have stays : (!goesOn && (Frame.dispatchEvents number listening).breaks) = false :=
    Bool.and_false _
  rw [returned, stays]
  rfl

/-! ## A dispatch -/

/-- `dispatchEvents` up to `handleMessage`. -/
inductive Begun where
  | returned (goesOn : Bool) (client : CClientSocket)
  | reads (raw : SSocketRawParsedMessage)

def begin (client : CClientSocket) (polled : Polled) : Begun :=
  if client.error then
    .returned false client
  else
    match polled with
    | .timedOut =>
        if client.handshakeDone then .returned true client
        else .returned false client.disconnectOnError
    | .hangup => .returned false client
    | .nothing => .returned true client
    | .readable none => .returned false client.disconnectOnError
    | .readable (some raw) => if raw.data.size = 0 then .returned false client else .reads raw

/-- `dispatchEvents` after `handleMessage`. -/
def finish (result : EMessageParsingResult) (client : CClientSocket) : Bool × CClientSocket :=
  if result ≠ .parsedOk then
    (false, client.disconnectOnError)
  else
    (!client.flushPending.error, client.flushPending)

/-- The parser's view of the connection, with the listener that a message calls. -/
def receiver (heap : Heap) : Receiver (CClientSocket × Option Invocation) where
  parse := parseClient heap
  stops _ := false
  setError conn := ({ conn.1 with error := true }, none)
  handle message conn := conn.1.receive message

/-- The loop of `handleMessage` where a batch has come to. -/
def Batch.state (batch : Batch) (client : CClientSocket) :
    ParseState (CClientSocket × Option Invocation) :=
  { needle := batch.needle, fds := batch.fds, conn := (client, none), handled := batch.handled }

/-! ## Steps -/

/-- What happens in a step. -/
inductive Event where
  | calls
  | returns
  | polls
  | reads (raw : SSocketRawParsedMessage)
  | handles
  | leaves

/-- One step of the client, with the implementations and the heap it has. -/
inductive Step (impls : Impls) (heap : Heap) (p : Process) : Event → Process → Prop
  | call {index : Nat} {id result : UInt32} {args : List Arg} {client : CClientSocket}
      (control : p.application = true)
      (called : p.client.call impls index id args = .ok (result, client)) :
      Step impls heap p .calls { p with client }
  | listen {index : Nat} {id : UInt32} {fn : Option Callback} {client : CClientSocket}
      (control : p.application = true) (listens : p.client.listen index id fn = .ok client) :
      Step impls heap p .calls { p with client }
  | roundtrip (control : p.application = true) (clean : p.client.error = false) :
      Step impls heap p .calls
        { p with
          client := p.client.roundtrip
          frames := .roundtrip (p.client.lastSentRoundtripSeq + 1) :: p.frames }
  | bindProtocol {spec : IProtocolSpec} {version : UInt32} {object : Nat} {client : CClientSocket}
      (control : p.application = true)
      (bound : p.client.bindProtocol spec version = .ok (some object, client)) :
      Step impls heap p .calls { p with client, frames := .waitForObject object :: p.frames }
  | bindRefused {spec : IProtocolSpec} {version : UInt32} {client : CClientSocket}
      (control : p.application = true)
      (refused : p.client.bindProtocol spec version = .ok (none, client)) :
      Step impls heap p .calls { p with client }
  | waitForHandshake (control : p.application = true) :
      Step impls heap p .calls { p with frames := .waitForHandshake :: p.frames }
  | listened {number : Nat} {rest : List Frame}
      (top : p.frames = .dispatchEvents number true :: rest) :
      Step impls heap p .returns { p with frames := .dispatchEvents number false :: rest }
  | waited {frame : Frame} {rest : List Frame} (top : p.frames = frame :: rest)
      (loop : frame.number? = none) (ends : frame.waits p.client = false) :
      Step impls heap p .returns { p with frames := rest }
  | poll {polled : Polled} {goesOn : Bool} {client : CClientSocket} (calls : p.dispatches = true)
      (begun : begin p.client polled = .returned goesOn client) :
      Step impls heap p .polls { p with client, frames := returned goesOn p.frames }
  | read {polled : Polled} {raw : SSocketRawParsedMessage} (calls : p.dispatches = true)
      (begun : begin p.client polled = .reads raw) :
      Step impls heap p (.reads raw) (p.reading raw)
  | message {number : Nat} {rest : List Frame} {batch : Batch} {needle : Nat} {fds : List Fd}
      {client : CClientSocket} {invocation : Option Invocation} {received : Received}
      (top : p.frames = .dispatchEvents number false :: rest)
      (is : p.batches[number]? = some batch)
      (turn : Next (parseTurn (receiver heap) batch.data) (batch.state p.client)
        ⟨needle, fds, (client, invocation), batch.handled ++ [received]⟩) :
      Step impls heap p .handles
        { client
          frames := .dispatchEvents number invocation.isSome :: rest
          batches := p.batches.set number
            { batch with needle, fds, handled := batch.handled ++ [received] }
          log := p.log ++ [(number, received)] }
  | leave {number : Nat} {rest : List Frame} {batch : Batch}
      {h : Handled (CClientSocket × Option Invocation)}
      (top : p.frames = .dispatchEvents number false :: rest)
      (is : p.batches[number]? = some batch)
      (turn : parseTurn (receiver heap) batch.data (batch.state p.client) =
        some (.leave (.ok h))) :
      Step impls heap p .leaves
        { client := (finish h.result h.conn.1).2
          frames := returned (finish h.result h.conn.1).1 rest
          batches := p.batches.set number { batch with handled := h.handled }
          -- The message of a fatal error is acted on even when it has no length.
          log := p.log ++ (h.handled.drop batch.handled.length).map (Prod.mk number) }

/-- A run of steps, each allowed in the state it meets. -/
inductive Run (impls : Impls) (heap : Heap) (allowed : Process → Event → Prop) (start : Process) :
    Process → Prop
  | refl : Run impls heap allowed start start
  | step {p next : Process} {event : Event} (run : Run impls heap allowed start p)
      (may : allowed p event) (steps : Step impls heap p event next) :
      Run impls heap allowed start next

/-- Every step is allowed. -/
def anyEvent (_ : Process) (_ : Event) : Prop := True

namespace Run

variable {impls : Impls} {heap : Heap} {allowed : Process → Event → Prop} {start p next : Process}

theorem trans (first : Run impls heap allowed start p) (second : Run impls heap allowed p next) :
    Run impls heap allowed start next := by
  induction second with
  | refl => exact first
  | step _ may steps ih => exact ih.step may steps

theorem single {event : Event} (steps : Step impls heap p event next) :
    Run impls heap anyEvent p next := .step .refl trivial steps

theorem mono {weaker : Process → Event → Prop} (run : Run impls heap allowed start p)
    (imp : ∀ p event, allowed p event → weaker p event) : Run impls heap weaker start p := by
  induction run with
  | refl => exact .refl
  | step _ may steps ih => exact ih.step (imp _ _ may) steps

end Run

/-! ## A step is a run of acts -/

/-- The end of a dispatch is a run of acts. -/
theorem finish_acts (impls : Impls) (result : EMessageParsingResult) (client : CClientSocket) :
    Client.Run impls anyAct client (finish result client).2 := by
  rw [finish]
  split
  · exact .single .disconnectOnError rfl
  · exact .single .flushPending rfl

/-- **A step changes the connection by acts only.** -/
theorem Step.acts {impls : Impls} {heap : Heap} {p next : Process} {event : Event}
    (steps : Step impls heap p event next) : Client.Run impls anyAct p.client next.client := by
  cases steps with
  | @call index id result args client control called =>
      exact .single (.call index id args) (by simp only [CClientSocket.act, called]; rfl)
  | @listen index id fn client control listens =>
      exact .single (.listen index id fn) (by simp only [CClientSocket.act, listens])
  | roundtrip control clean => exact .single .roundtrip rfl
  | @bindProtocol spec version object client control bound =>
      exact .single (.bindProtocol spec version) (by simp only [CClientSocket.act, bound]; rfl)
  | @bindRefused spec version client control refused =>
      exact .single (.bindProtocol spec version) (by simp only [CClientSocket.act, refused]; rfl)
  | waitForHandshake control => exact .refl
  | listened top => exact .refl
  | waited top loop ends => exact .refl
  | @poll polled goesOn client calls begun =>
      simp only [begin] at begun
      split at begun
      · cases begun; exact .refl
      · split at begun
        · split at begun
          · cases begun; exact .refl
          · cases begun; exact .single .disconnectOnError rfl
        · cases begun; exact .refl
        · cases begun; exact .refl
        · cases begun; exact .single .disconnectOnError rfl
        · split at begun
          · cases begun; exact .refl
          · cases begun
  | read calls begun => exact .refl
  | message top is turn =>
      obtain ⟨-, received, len, left, conn, -, acted, -, same⟩ := parseTurn_next_iff.mp turn
      obtain ⟨-, -, rfl, -⟩ := ParseState.mk.inj same
      refine .single (.receive received) ?_
      rw [CClientSocket.act, show p.client.receive received = _ from acted]
      rfl
  | @leave number rest batch h top is turn =>
      refine .trans ?_ (finish_acts impls h.result h.conn.1)
      rcases parseTurn_leaves turn with same | same | ⟨received, acted⟩
      · rw [same]
        exact .refl
      · rw [same]
        exact .single .refuse rfl
      · refine .single (.receive received) ?_
        rw [CClientSocket.act, show p.client.receive received = _ from acted]
        rfl

/-! ## A dispatch is a run of steps -/

section Flat

variable {α : Type} {cfg : Config α}

/-- A listener that only calls and listens is a run of steps. -/
def Listens (cfg : Config α) (s t : ClientState α) : Prop :=
  ∀ p : Process, p.client = s.client → p.application = true →
    Run cfg.impls cfg.heap anyEvent p { p with client := t.client }

theorem perform_steps (cfg : Config α)
    (callback : ClientCode α → ClientState α → Except Fault (ClientState α))
    (request : Client.Request α) : Keeps (Listens cfg) Prod.snd (perform cfg callback request) := by
  intro s t run p same control
  cases request with
  | call object id args =>
      obtain ⟨⟨result, client⟩, called, rest⟩ := bind_eq_ok.mp run
      cases rest
      rw [← same] at called
      exact .single (.call control called)
  | listen object id fn =>
      obtain ⟨client, called, rest⟩ := bind_eq_ok.mp run
      cases rest
      rw [← same] at called
      exact .single (.listen control called)
  | load =>
      cases run
      rw [← same]
      exact .refl
  | store memory =>
      cases run
      rw [← same]
      exact .refl

theorem runCode_steps (cfg : Config α) (code : ClientCode α) :
    Keeps (Listens cfg) id (runCode cfg code) := by
  refine exec_keeps ?_ ?_ (fun callback _ request => perform_steps cfg callback request) cfg.frames
    code
  · intro s p same _
    rw [← same]
    exact .refl
  · intro s t u first second p same control
    exact (first p same control).trans (second { p with client := t.client } rfl control)

/-- Only the message of a fatal error can be without a length, and it calls no listener. -/
theorem invocation_of_zero {heap : Heap} {data : View} {fds left : List Fd} {off : Nat}
    {received : Received} {client next : CClientSocket} {invocation : Option Invocation}
    (read : parseClient heap data fds off = some (.ok (.message received 0, left)))
    (acted : client.receive received = some (.ok (next, invocation))) : invocation = none := by
  cases received with
  | generic msg =>
      obtain ⟨tag, -⟩ := parseClient_message read
      simp only [parseClient, tag, EMessageType.ofByte_code, Received.type] at read
      obtain ⟨msg, -, length, -, zero⟩ := readGeneric_message read
      exact absurd zero.symm length
  | handshakeBegin versions => cases acted; rfl
  | handshakeProtocols protocols => cases acted; rfl
  | newObject seq id => cases acted; rfl
  | fatalError objectId errorId errorMsg => cases acted; rfl
  | roundtripDone seq => cases acted; rfl
  | hello => cases acted; rfl
  | handshakeAck version => cases acted; rfl
  | bindProtocol protocol seq version => cases acted; rfl
  | roundtripRequest seq => cases acted; rfl

/-- The dispatch of a read that was begun in `p`, before a turn of its loop. -/
def dispatching (p : Process) (raw : SSocketRawParsedMessage) (s : ParseState (ClientState α)) :
    Process where
  client := s.conn.client
  frames := .dispatchEvents p.batches.length false :: p.frames
  batches := p.batches ++ [⟨raw.data, raw.fds, s.needle, s.fds, s.handled⟩]
  log := p.log ++ s.handled.map (Prod.mk p.batches.length)

/-- What acting on a message comes to: the library's part, and the listener's. -/
theorem handle_eq_ok {received : Received} {s t : ClientState α}
    (acted : handle cfg received s = some (.ok t)) :
    ∃ client invocation, s.client.receive received = some (.ok (client, invocation)) ∧
      invoke cfg { s with client } invocation = .ok t := by
  obtain ⟨result, library, rest⟩ := Option.map_eq_some_iff.mp acted
  obtain ⟨⟨client, invocation⟩, rfl, called⟩ := bind_eq_ok.mp rest
  exact ⟨client, invocation, library, called⟩

/-- A turn of the loop is a run of steps. -/
theorem turn_steps {p : Process} {raw : SSocketRawParsedMessage} {s s' : ParseState (ClientState α)}
    (turn : Next (parseTurn (Client.receiver cfg) raw.data) s s') :
    Run cfg.impls cfg.heap anyEvent (dispatching p raw s) (dispatching p raw s') := by
  obtain ⟨⟨inside, -⟩, received, len, left, conn, read, acted, length, rfl⟩ :=
    parseTurn_next_iff.mp turn
  obtain ⟨client, invocation, library, called⟩ := handle_eq_ok acted
  let batch : Batch := ⟨raw.data, raw.fds, s.needle, s.fds, s.handled⟩
  have next : Next (parseTurn (receiver cfg.heap) batch.data) (batch.state s.conn.client)
      ⟨wrap (s.needle + len), left, (client, invocation), s.handled ++ [received]⟩ :=
    parseTurn_next_iff.mpr
      ⟨⟨inside, rfl⟩, received, len, left, (client, invocation), read, library, length, rfl⟩
  have is : (dispatching p raw s).batches[p.batches.length]? = some batch :=
    List.getElem?_concat_length
  have set : ∀ batch',
      (p.batches ++ [batch]).set p.batches.length batch' = p.batches ++ [batch'] := by
    intro batch'
    rw [List.set_append_right _ _ (Nat.le_refl _), Nat.sub_self, List.set_cons_zero]
  have log : p.log ++ s.handled.map (Prod.mk p.batches.length) ++ [(p.batches.length, received)] =
      p.log ++ (s.handled ++ [received]).map (Prod.mk p.batches.length) := by
    rw [List.map_append, List.append_assoc]
    rfl
  let after : Process := dispatching p raw
    ⟨wrap (s.needle + len), left, { s.conn with client }, s.handled ++ [received]⟩
  have first : Run cfg.impls cfg.heap anyEvent (dispatching p raw s)
      { after with frames := .dispatchEvents p.batches.length invocation.isSome :: p.frames } := by
    have steps := @Step.message cfg.impls cfg.heap (dispatching p raw s) _ _ _ _ _ _ _ _ rfl is next
    refine @Run.single cfg.impls cfg.heap _ _ .handles ?_
    convert steps using 1
    exact (Process.mk.injEq ..).mpr ⟨rfl, rfl, (set _).symm, log.symm⟩
  cases invocation with
  | none =>
      cases called
      exact first
  | some invocation =>
      refine first.trans (.trans (runCode_steps cfg _ _ _ called _ rfl rfl) ?_)
      exact .single (.listened rfl)

/-- The loop leaves where the dispatch does. -/
theorem leave_steps {p : Process} {raw : SSocketRawParsedMessage} {s : ParseState (ClientState α)}
    {h : Handled (ClientState α)}
    (leaves : parseTurn (Client.receiver cfg) raw.data s = some (.leave (.ok h))) :
    ∃ next, Run cfg.impls cfg.heap anyEvent (dispatching p raw s) next ∧
      next.client = (finish h.result h.conn.client).2 ∧
      next.frames = returned (finish h.result h.conn.client).1 p.frames ∧
      next.log = p.log ++ h.handled.map (Prod.mk p.batches.length) := by
  let batch : Batch := ⟨raw.data, raw.fds, s.needle, s.fds, s.handled⟩
  let start := batch.state s.conn.client
  have is : (dispatching p raw s).batches[p.batches.length]? = some batch :=
    List.getElem?_concat_length
  have found : (∃ invocation, parseTurn (receiver cfg.heap) raw.data start =
        some (.leave (.ok ⟨h.result, (h.conn.client, invocation), h.handled⟩))) ∧
      h.handled = s.handled ++ h.handled.drop s.handled.length := by
    have nothing : s.handled = s.handled ++ s.handled.drop s.handled.length := by
      rw [List.drop_length, List.append_nil]
    simp only [parseTurn] at leaves
    split at leaves
    · next going =>
      have goes : start.needle < raw.data.size ∧ ¬ (receiver cfg.heap).stops start.conn = true :=
        going
      split at leaves
      · cases leaves
      · cases leaves
      · next left read =>
        cases leaves
        replace read : (receiver cfg.heap).parse raw.data start.fds start.needle = _ := read
        refine ⟨⟨none, ?_⟩, nothing⟩
        rw [parseTurn, if_pos goes, read]
        rfl
      · next left read =>
        cases leaves
        replace read : (receiver cfg.heap).parse raw.data start.fds start.needle = _ := read
        refine ⟨⟨none, ?_⟩, nothing⟩
        rw [parseTurn, if_pos goes, read]
        rfl
      · next received len left read =>
        split at leaves
        · cases leaves
        · cases leaves
        · next acted =>
          split at leaves
          · next zero =>
            subst zero
            cases leaves
            obtain ⟨client, invocation, library, called⟩ := handle_eq_ok acted
            obtain rfl := invocation_of_zero read library
            cases called
            replace read : (receiver cfg.heap).parse raw.data start.fds start.needle = _ := read
            replace library : (receiver cfg.heap).handle received start.conn = _ := library
            refine ⟨⟨none, ?_⟩, by rw [List.drop_left]⟩
            rw [parseTurn, if_pos goes, read]
            simp only [library, if_true]
            rfl
          · cases leaves
    · next ended =>
      cases leaves
      have ends : ¬ (start.needle < raw.data.size ∧
          ¬ (receiver cfg.heap).stops start.conn = true) := ended
      refine ⟨⟨none, ?_⟩, nothing⟩
      rw [parseTurn, if_neg ends]
      rfl
  obtain ⟨⟨invocation, turn⟩, grown⟩ := found
  refine ⟨_, .single (@Step.leave cfg.impls cfg.heap (dispatching p raw s) _ _ _ _ rfl is turn), rfl,
    rfl, ?_⟩
  show p.log ++ s.handled.map (Prod.mk p.batches.length) ++
    (h.handled.drop s.handled.length).map (Prod.mk p.batches.length) = _
  rw [List.append_assoc, ← List.map_append, ← grown]

/-- The loop is a run of steps. -/
theorem reaches_steps {p : Process} {raw : SSocketRawParsedMessage}
    {s s' : ParseState (ClientState α)}
    (reaches : Reaches (parseTurn (Client.receiver cfg) raw.data) s s') :
    Run cfg.impls cfg.heap anyEvent (dispatching p raw s) (dispatching p raw s') := by
  induction reaches with
  | refl => exact .refl
  | tail _ turn ih => exact ih.trans (turn_steps turn)

/-- Where the application has control, a dispatch comes back to it. -/
theorem Process.returned_frames {p : Process} (control : p.application = true) (goesOn : Bool) :
    returned goesOn p.frames = p.frames := by
  rw [Process.application] at control
  split at control
  · next none =>
    rw [none]
    rfl
  · next number listening rest top =>
    rw [top, returned_dispatchEvents]
  · cases control

/-- The reading part of a dispatch is a run of steps. -/
theorem dispatchRead_steps {turns : Nat} {raw : SSocketRawParsedMessage} {s t : ClientState α}
    {goesOn : Bool} {handled : List Received}
    (dispatched : dispatchRead cfg turns raw s = some (.ok (goesOn, t, handled)))
    {p : Process} (same : p.client = s.client) (control : p.application = true)
    (calls : p.dispatches = true) {polled : Polled} (begun : begin p.client polled = .reads raw) :
    ∃ next, Run cfg.impls cfg.heap anyEvent p next ∧ next.client = t.client ∧
      next.frames = p.frames ∧ next.log = p.log ++ handled.map (Prod.mk p.batches.length) := by
  obtain ⟨result, run, rest⟩ := Option.map_eq_some_iff.mp dispatched
  obtain ⟨h, rfl, made⟩ := map_eq_ok.mp rest
  obtain ⟨last, reaches, leaves⟩ := exits_iff.mp ⟨turns, run⟩
  have first : Step cfg.impls cfg.heap p (.reads raw) (dispatching p raw (firstMessage raw s)) := by
    have started : dispatching p raw (firstMessage raw s) = p.reading raw :=
      (Process.mk.injEq ..).mpr ⟨same.symm, rfl, rfl, List.append_nil _⟩
    rw [started]
    exact .read calls begun
  obtain ⟨next, last, client, frames, log⟩ := @leave_steps _ _ p raw last h leaves
  refine ⟨next, (Run.single first).trans ((reaches_steps reaches).trans last), ?_,
    frames.trans (Process.returned_frames control _), ?_⟩
  · rw [client, finish]
    split at made
    · next failed =>
      cases made
      rw [if_pos failed]
    · next parsed =>
      cases made
      rw [if_neg parsed]
  · rw [log]
    split at made
    · cases made; rfl
    · cases made; rfl

/-- **A dispatch whose listeners do not dispatch is a run of steps**, from where the
application has control to where it has it again. -/
theorem dispatchEvents_steps {turns : Nat} {polled : Polled} {s t : ClientState α} {goesOn : Bool}
    {handled : List Received}
    (dispatched : Client.dispatchEvents cfg turns polled s = some (.ok (goesOn, t, handled)))
    {p : Process} (same : p.client = s.client) (control : p.application = true) :
    ∃ next, Run cfg.impls cfg.heap anyEvent p next ∧ next.client = t.client ∧
      next.frames = p.frames ∧ next.log = p.log ++ handled.map (Prod.mk p.batches.length) := by
  have calls : p.dispatches = true := by
    rw [Process.dispatches, control]
    rfl
  have polls : ∀ goesOn client, begin p.client polled = .returned goesOn client →
      ∃ next, Run cfg.impls cfg.heap anyEvent p next ∧ next.client = client ∧
        next.frames = p.frames ∧ next.log = p.log ++ [] := by
    intro goesOn client begun
    exact ⟨_, .single (.poll calls begun), rfl, Process.returned_frames control goesOn,
      (List.append_nil _).symm⟩
  rw [same] at polls
  simp only [Client.dispatchEvents] at dispatched
  split at dispatched
  · next error =>
    cases dispatched
    exact polls false _ (by simp only [begin, if_pos error])
  · next clean =>
    simp only [begin, if_neg clean] at polls
    split at dispatched
    · split at dispatched
      · next done =>
        cases dispatched
        exact polls true _ (if_pos done)
      · next pending =>
        cases dispatched
        exact polls false _ (if_neg pending)
    · cases dispatched
      exact polls _ _ rfl
    · cases dispatched
      exact polls _ _ rfl
    · cases dispatched
      exact polls _ _ rfl
    · next raw =>
      split at dispatched
      · next empty =>
        cases dispatched
        exact polls false _ (if_pos empty)
      · next filled =>
        refine @dispatchRead_steps _ _ _ raw _ _ _ _ dispatched _ same control calls
          (.readable (some raw)) ?_
        simp only [begin, same, if_neg clean, if_neg filled]

end Flat

end Hyprwire.Client.Reentrant
