import Hyprwire.Cpp.Code
import Hyprwire.Client.ClientSocket

/-!
# Dispatch on the client

`dispatchEvents` handles what one read returned, with the listeners of the application,
and then sends the calls whose objects have got their identifiers. A connection is
changed by single acts only (`Act`): what the application does, a received message, the
flush, and the loss of the connection. `Run` is any sequence of them, and
`dispatchEvents_run` says that a dispatch is such a run.
-/

set_option autoImplicit false

namespace Hyprwire.Client

open Cpp Wire Object

/-! ## The application -/

/-- What a listener can ask for. -/
inductive Request (α : Type) where
  | call (object : Nat) (id : UInt32) (args : List Arg)
  | listen (object : Nat) (id : UInt32) (fn : Option Callback)
  | load
  | store (memory : α)

/-- What is answered: what `call` returns, or the memory. -/
def Request.Answer {α : Type} : Request α → Type
  | .call _ _ _ => UInt32
  | .load => α
  | _ => Unit

/-- A listener. -/
abbrev ClientCode (α : Type) := Code (Request α) Request.Answer

/-- The client: its implementations, the heap, the listeners, and the room on the
stack. -/
structure Config (α : Type) where
  impls : Impls
  heap : Heap
  listener : Invocation → ClientCode α
  frames : Nat

/-- The connection, and the memory of the application. -/
structure ClientState (α : Type) where
  client : CClientSocket
  memory : α

variable {α : Type}

/-- The operations of the library. A call of a client calls no listener. -/
def perform (cfg : Config α)
    (_ : ClientCode α → ClientState α → Except Fault (ClientState α)) :
    Perform (Request α) Request.Answer (ClientState α)
  | .call object id args, s => do
      let (result, client) ← s.client.call cfg.impls object id args
      return (result, { s with client })
  | .listen object id fn, s => do
      let client ← s.client.listen object id fn
      return ((), { s with client })
  | .load, s => .ok (s.memory, s)
  | .store memory, s => .ok ((), { s with memory })

/-- A listener is run. -/
def runCode (cfg : Config α) : ClientCode α → ClientState α → Except Fault (ClientState α) :=
  exec (perform cfg) cfg.frames

/-! ## Dispatch -/

/-- The listener is called, if one is to be. -/
def invoke (cfg : Config α) (s : ClientState α) :
    Option Invocation → Except Fault (ClientState α)
  | none => .ok s
  | some invocation => runCode cfg (cfg.listener invocation) s

/-- The acting part of `parseSingleMessage`, with the listeners. -/
def handle (cfg : Config α) (message : Received) (s : ClientState α) :
    Option (Except Fault (ClientState α)) :=
  (s.client.receive message).map fun result =>
    result.bind fun (client, invocation) => invoke cfg { s with client } invocation

/-- The parser's view of the connection. An error does not stop the loop. -/
def receiver (cfg : Config α) : Receiver (ClientState α) where
  parse := parseClient cfg.heap
  stops _ := false
  setError s := { s with client := { s.client with error := true } }
  handle := handle cfg

/-- What `poll` has found. A read that failed has nothing to it. -/
inductive Polled where
  | timedOut
  | hangup
  | nothing
  | readable (read : Option SSocketRawParsedMessage)

/-- The reading part of `dispatchEvents`, from `handleMessage` on. -/
def dispatchRead (cfg : Config α) (turns : Nat) (raw : SSocketRawParsedMessage)
    (s : ClientState α) : Option (Except Fault (Bool × ClientState α × List Received)) :=
  (handleMessage (receiver cfg) turns raw s).map fun result =>
    result.map fun h =>
      if h.result ≠ .parsedOk then
        (false, { h.conn with client := h.conn.client.disconnectOnError }, h.handled)
      else
        let client := h.conn.client.flushPending
        (!client.error, { h.conn with client }, h.handled)

/-- `dispatchEvents`: what it returns, and the messages that have been acted on. -/
def dispatchEvents (cfg : Config α) (turns : Nat) (polled : Polled) (s : ClientState α) :
    Option (Except Fault (Bool × ClientState α × List Received)) :=
  if s.client.error then
    some (.ok (false, s, []))
  else
    match polled with
    | .timedOut =>
        if s.client.handshakeDone then
          some (.ok (true, s, []))
        else
          some (.ok (false, { s with client := s.client.disconnectOnError }, []))
    | .hangup => some (.ok (false, s, []))
    | .nothing => some (.ok (true, s, []))
    | .readable none =>
        some (.ok (false, { s with client := s.client.disconnectOnError }, []))
    | .readable (some raw) =>
        if raw.data.size = 0 then some (.ok (false, s, [])) else dispatchRead cfg turns raw s

/-! ## Acts -/

/-- What can happen to a connection. -/
inductive Act where
  | call (object : Nat) (id : UInt32) (args : List Arg)
  | listen (object : Nat) (id : UInt32) (fn : Option Callback)
  | bindProtocol (spec : IProtocolSpec) (version : UInt32)
  | roundtrip
  | receive (message : Received)
  | refuse
  | flushPending
  | disconnectOnError

/-- The connection after an act. -/
def CClientSocket.act (impls : Impls) (client : CClientSocket) :
    Act → Option (Except Fault CClientSocket)
  | .call object id args => some ((client.call impls object id args).map Prod.snd)
  | .listen object id fn => some (client.listen object id fn)
  | .bindProtocol spec version => some ((client.bindProtocol spec version).map Prod.snd)
  | .roundtrip => some (.ok client.roundtrip)
  | .receive message => (client.receive message).map fun result => result.map Prod.fst
  | .refuse => some (.ok { client with error := true })
  | .flushPending => some (.ok client.flushPending)
  | .disconnectOnError => some (.ok client.disconnectOnError)

/-- A run of acts, each allowed in the state it meets. -/
inductive Run (impls : Impls) (allowed : CClientSocket → Act → Prop) (start : CClientSocket) :
    CClientSocket → Prop
  | refl : Run impls allowed start start
  | step {client next : CClientSocket} {act : Act} (run : Run impls allowed start client)
      (may : allowed client act) (acts : client.act impls act = some (.ok next)) :
      Run impls allowed start next

/-- Every act is allowed. -/
def anyAct (_ : CClientSocket) (_ : Act) : Prop := True

namespace Run

variable {impls : Impls} {allowed : CClientSocket → Act → Prop} {start client next : CClientSocket}

theorem trans (first : Run impls allowed start client) (second : Run impls allowed client next) :
    Run impls allowed start next := by
  induction second with
  | refl => exact first
  | step _ may acts ih => exact ih.step may acts

/-- **What every act keeps holds after a run.** -/
theorem invariant {I : CClientSocket → Prop}
    (keeps : ∀ c c' act, allowed c act → c.act impls act = some (.ok c') → I c → I c')
    (run : Run impls allowed start client) (first : I start) : I client := by
  induction run with
  | refl => exact first
  | step _ may acts ih => exact keeps _ _ _ may acts ih

theorem mono {weaker : CClientSocket → Act → Prop} (run : Run impls allowed start client)
    (imp : ∀ client act, allowed client act → weaker client act) :
    Run impls weaker start client := by
  induction run with
  | refl => exact .refl
  | step _ may acts ih => exact ih.step (imp _ _ may) acts

theorem single (act : Act) (acts : client.act impls act = some (.ok next)) :
    Run impls anyAct client next := .step .refl trivial acts

end Run

/-! ## A dispatch is a run -/

/-- The relation of two states of the client whose connections are joined by a run. -/
def RunState (impls : Impls) (s t : ClientState α) : Prop := Run impls anyAct s.client t.client

theorem perform_run (cfg : Config α)
    (callback : ClientCode α → ClientState α → Except Fault (ClientState α))
    (request : Request α) :
    Keeps (RunState cfg.impls) Prod.snd (perform cfg callback request) := by
  intro s t run
  cases request with
  | call object id args =>
      obtain ⟨⟨result, client⟩, called, rest⟩ := bind_eq_ok.mp run
      cases rest
      exact .single (.call object id args) (by simp only [CClientSocket.act, called]; rfl)
  | listen object id fn =>
      obtain ⟨client, called, rest⟩ := bind_eq_ok.mp run
      cases rest
      exact .single (.listen object id fn) (by simp only [CClientSocket.act, called])
  | load =>
      cases run
      exact .refl
  | store memory =>
      cases run
      exact .refl

theorem runCode_run (cfg : Config α) (code : ClientCode α) :
    Keeps (RunState cfg.impls) id (runCode cfg code) :=
  exec_keeps (fun _ => .refl) (fun _ _ _ first second => first.trans second)
    (fun callback _ request => perform_run cfg callback request) cfg.frames code

/-- Acting on a message is a run. -/
theorem handle_run {cfg : Config α} {message : Received} {s t : ClientState α}
    (run : handle cfg message s = some (.ok t)) : Run cfg.impls anyAct s.client t.client := by
  obtain ⟨received, library, rest⟩ := Option.map_eq_some_iff.mp run
  cases received with
  | error fault => cases rest
  | ok result =>
      obtain ⟨client, invocation⟩ := result
      have first : Run cfg.impls anyAct s.client client :=
        .single (.receive message) (by simp only [CClientSocket.act, library]; rfl)
      cases invocation with
      | none => cases rest; exact first
      | some invocation => exact first.trans (runCode_run cfg _ { s with client } t rest)

/-- **A dispatch is a run of the connection.** -/
theorem dispatchEvents_run {cfg : Config α} {turns : Nat} {polled : Polled}
    {s t : ClientState α} {goesOn : Bool} {handled : List Received}
    (dispatched : dispatchEvents cfg turns polled s = some (.ok (goesOn, t, handled))) :
    Run cfg.impls anyAct s.client t.client := by
  have lost : ∀ client : CClientSocket, Run cfg.impls anyAct client client.disconnectOnError :=
    fun _ => .single .disconnectOnError rfl
  have read : ∀ raw, dispatchRead cfg turns raw s = some (.ok (goesOn, t, handled)) →
      Run cfg.impls anyAct s.client t.client := by
    intro raw run
    obtain ⟨result, run, rest⟩ := Option.map_eq_some_iff.mp run
    cases result with
    | error fault => cases rest
    | ok h =>
        have parsed : RunState cfg.impls s h.conn :=
          handleMessage_keeps (R := RunState cfg.impls) (fun _ => .refl)
            (fun _ _ _ first second => first.trans second) (fun _ _ _ acted => handle_run acted)
            (fun _ => .single .refuse rfl) run
        simp only [Except.map] at rest
        split at rest
        · cases rest
          exact parsed.trans (lost _)
        · cases rest
          exact parsed.trans (.single .flushPending rfl)
  simp only [dispatchEvents] at dispatched
  split at dispatched
  · cases dispatched; exact .refl
  · split at dispatched
    · split at dispatched
      · cases dispatched; exact .refl
      · cases dispatched; exact lost _
    · cases dispatched; exact .refl
    · cases dispatched; exact .refl
    · cases dispatched; exact lost _
    · split at dispatched
      · cases dispatched; exact .refl
      · exact read _ dispatched

end Hyprwire.Client
