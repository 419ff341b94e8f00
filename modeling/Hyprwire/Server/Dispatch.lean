import Hyprwire.Cpp.Code
import Hyprwire.Server.ServerClient

/-!
# Dispatch on the server

`dispatchClient` handles what one read of a client's socket returned, and answers a
scheduled roundtrip after it. Handling a message can call the application, whose
functions are `Code` over the operations of the library (`Request`) and a memory of
their own. `createObject` calls the application again, so the number of frames on
the stack is a part of the configuration.
-/

set_option autoImplicit false

namespace Hyprwire.Server

open Cpp Wire Object

/-! ## The application -/

/-- What a function of the application can ask for. The reference of `createObject`
is any object, of this client or of another. -/
inductive Request (α : Type) where
  | createObject (reference : Option IWireObject) (object : Str) (seq : UInt32)
  | call (object : Nat) (id : UInt32) (args : List Arg)
  | error (object : Nat) (id : UInt32) (message : Str)
  | listen (object : Nat) (id : UInt32) (fn : Option Callback)
  | load
  | store (memory : α)

/-- What is answered: an object, what `call` returns, or the memory. -/
def Request.Answer {α : Type} : Request α → Type
  | .createObject _ _ _ => Option Nat
  | .call _ _ _ => UInt32
  | .load => α
  | _ => Unit

/-- A function of the application. -/
abbrev ServerCode (α : Type) := Code (Request α) Request.Answer

/-- The functions of the application. -/
structure Application (α : Type) where
  onBind : Callback → Nat → ServerCode α
  listener : Callback → Nat → List Value → ServerCode α

def Application.code {α : Type} (app : Application α) : Invocation → ServerCode α
  | .onBind fn object => app.onBind fn object
  | .listener fn object values => app.listener fn object values

/-- The server of one client: the implementations, the heap, the application, and the
room on the stack. -/
structure Config (α : Type) where
  impls : Impls
  heap : Heap
  app : Application α
  frames : Nat

/-- The connection, and the memory of the application. -/
structure ServerState (α : Type) where
  client : CServerClient
  memory : α

variable {α : Type}

/-! ## Operations -/

/-- The application is called, if it is to be. -/
def invoke (cfg : Config α) (callback : ServerCode α → ServerState α → Except Fault (ServerState α))
    (s : ServerState α) : Option Invocation → Except Fault (ServerState α)
  | none => .ok s
  | some invocation => callback (cfg.app.code invocation) s

/-- `CServerSocket::createObject`. -/
def createObject (cfg : Config α)
    (callback : ServerCode α → ServerState α → Except Fault (ServerState α))
    (reference : Option IWireObject) (object : Str) (seq : UInt32) (s : ServerState α) :
    Except Fault (Option Nat × ServerState α) :=
  match reference with
  | none => .ok (none, s)
  | some ref => do
      let (made, client) := CServerClient.createObject cfg.impls ref.protocolName object
        ref.version seq s.client
      let s ← invoke cfg callback { s with client } (client.bound cfg.impls made)
      return (made, s)

/-- The operations of the library. -/
def perform (cfg : Config α)
    (callback : ServerCode α → ServerState α → Except Fault (ServerState α)) :
    Perform (Request α) Request.Answer (ServerState α)
  | .createObject reference object seq, s => createObject cfg callback reference object seq s
  | .call object id args, s => do
      let (result, client) ← s.client.call object id args
      return (result, { s with client })
  | .error object id message, s => do
      let client ← s.client.raiseAt object id message
      return ((), { s with client })
  | .listen object id fn, s => do
      let client ← s.client.listen object id fn
      return ((), { s with client })
  | .load, s => .ok (s.memory, s)
  | .store memory, s => .ok ((), { s with memory })

/-- A function of the application, with the frames that are left. -/
def runCode (cfg : Config α) : ServerCode α → ServerState α → Except Fault (ServerState α) :=
  exec (perform cfg) cfg.frames

/-! ## Dispatch -/

/-- The acting part of `parseSingleMessage`, with the application. -/
def handle (cfg : Config α) (message : Received) (s : ServerState α) :
    Option (Except Fault (ServerState α)) :=
  (s.client.receive cfg.impls message).map fun result =>
    result.bind fun (client, invocation) => invoke cfg (runCode cfg) { s with client } invocation

/-- The parser's view of the connection. -/
def receiver (cfg : Config α) : Receiver (ServerState α) where
  parse := parseServer cfg.heap
  stops s := s.client.error
  setError s := { s with client := s.client.setError }
  handle := handle cfg

/-- The message that ends a connection. -/
def fatal (message : String) (s : ServerState α) : ServerState α :=
  { s with client := (s.client.sendMessage (.fatalError none 0xffffffff (text message))).setError }

/-- What follows after `handleMessage`. -/
def afterBatch (result : EMessageParsingResult) (s : ServerState α) : ServerState α :=
  if result ≠ .parsedOk then
    fatal "fatal: failed to handle message on wire" s
  else if 0 < s.client.scheduledRoundtripSeq then
    let client := s.client.sendMessage (.roundtripDone s.client.scheduledRoundtripSeq)
    { s with client := { client with scheduledRoundtripSeq := 0 } }
  else
    s

/-- `CServerSocket::dispatchClient` on what was read, with the messages it has acted on;
nothing was read when the read failed. -/
def dispatchClient (cfg : Config α) (turns : Nat) (read : Option SSocketRawParsedMessage)
    (s : ServerState α) : Option (Except Fault (ServerState α × List Received)) :=
  match read with
  | none => some (.ok (fatal "fatal: invalid message on wire" s, []))
  | some raw =>
      if raw.data.size = 0 then
        some (.ok (s, []))
      else
        (handleMessage (receiver cfg) turns raw s).map fun result =>
          result.map fun h => (afterBatch h.result h.conn, h.handled)

/-- At the end of the bytes nothing is done. -/
theorem dispatchClient_empty {cfg : Config α} {turns : Nat} {raw : SSocketRawParsedMessage}
    {s : ServerState α} (bytes : raw.data.size = 0) :
    dispatchClient cfg turns (some raw) s = some (.ok (s, [])) := if_pos bytes

/-- **A dispatch of some bytes** handles the messages, and ends after them. -/
theorem dispatchClient_eq_ok {cfg : Config α} {turns : Nat} {raw : SSocketRawParsedMessage}
    {s t : ServerState α} {handled : List Received} (bytes : raw.data.size ≠ 0) :
    dispatchClient cfg turns (some raw) s = some (.ok (t, handled)) ↔
      ∃ h, handleMessage (receiver cfg) turns raw s = some (.ok h) ∧
        t = afterBatch h.result h.conn ∧ handled = h.handled := by
  simp only [dispatchClient, bytes, if_false]
  constructor
  · intro dispatched
    obtain ⟨result, run, rest⟩ := Option.map_eq_some_iff.mp dispatched
    obtain ⟨h, rfl, same⟩ := map_eq_ok.mp rest
    cases same
    exact ⟨h, run, rfl, rfl⟩
  · rintro ⟨h, run, rfl, rfl⟩
    rw [run]
    rfl

/-! ## What the application leaves alone -/

/-- The sequences of the roundtrips that have been answered. -/
def dones (sent : List Message) : List UInt32 :=
  sent.filterMap fun
    | .roundtripDone seq => some seq
    | _ => none

/-- The sequences of the roundtrips that have been asked for. -/
def requests (handled : List Received) : List UInt32 :=
  handled.filterMap fun
    | .roundtripRequest seq => some seq
    | _ => none

/-- An error stays, no roundtrip is answered, and none is asked for. -/
structure Quiet (c c' : CServerClient) : Prop where
  error : c.error = true → c'.error = true
  dones : dones c'.sent = dones c.sent
  scheduled : c'.scheduledRoundtripSeq = c.scheduledRoundtripSeq

namespace Quiet

theorem refl (c : CServerClient) : Quiet c c := ⟨id, rfl, rfl⟩

theorem trans {c c' c'' : CServerClient} (first : Quiet c c') (second : Quiet c' c'') :
    Quiet c c'' :=
  ⟨second.error ∘ first.error, second.dones.trans first.dones,
    second.scheduled.trans first.scheduled⟩

theorem sendMessage {c : CServerClient} {message : Message}
    (other : Server.dones [message] = []) : Quiet c (c.sendMessage message) where
  error := id
  dones := by
    rw [CServerClient.sendMessage, Server.dones, List.filterMap_append]
    exact (congrArg _ other).trans (List.append_nil _)
  scheduled := rfl

theorem setError (c : CServerClient) : Quiet c c.setError := ⟨fun _ => rfl, rfl, rfl⟩

theorem listObject (c : CServerClient) (object : IWireObject) : Quiet c (c.listObject object) :=
  ⟨id, rfl, rfl⟩

theorem raise (c : CServerClient) (object : IWireObject) (id : UInt32) (message : Str) :
    Quiet c (c.raise object id message) :=
  (sendMessage rfl).trans (setError _)

theorem createObject (impls : Impls) (protocol object : Str) (version seq : UInt32)
    (c : CServerClient) :
    Quiet c (CServerClient.createObject impls protocol object version seq c).2 := by
  simp only [CServerClient.createObject]
  split
  · exact (listObject c _).trans (setError _)
  · split
    · exact (listObject c _).trans (setError _)
    · split
      · exact (listObject c _).trans (setError _)
      · exact (listObject c _).trans (sendMessage rfl)

theorem call {c c' : CServerClient} {index : Nat} {id result : UInt32} {args : List Arg}
    (run : c.call index id args = .ok (result, c')) : Quiet c c' := by
  obtain ⟨object, -, rest⟩ := bind_eq_ok.mp run
  obtain ⟨spec, -, rest⟩ := bind_eq_ok.mp rest
  obtain ⟨⟨outcome, seq⟩, -, rest⟩ := bind_eq_ok.mp rest
  cases outcome with
  | error message => cases rest; exact raise _ _ _ _
  | errd => cases rest; exact setError _
  | send msg returned => cases rest; exact sendMessage rfl
  | defer msg returned => cases rest; exact sendMessage rfl

theorem raiseAt {c c' : CServerClient} {index : Nat} {id : UInt32} {message : Str}
    (run : c.raiseAt index id message = .ok c') : Quiet c c' := by
  obtain ⟨object, -, rest⟩ := bind_eq_ok.mp run
  cases rest
  exact raise _ _ _ _

theorem listen {c c' : CServerClient} {index : Nat} {id : UInt32} {fn : Option Callback}
    (run : c.listen index id fn = .ok c') : Quiet c c' := by
  obtain ⟨object, -, rest⟩ := bind_eq_ok.mp run
  cases rest
  exact ⟨fun set => set, rfl, rfl⟩

theorem outcome (c : CServerClient) (index : Nat) (object : IWireObject) (outcome : Outcome) :
    Quiet c (c.outcome index object outcome).1 := by
  cases outcome with
  | ignored => exact .refl c
  | error message => exact raise c _ _ _
  | errd => exact setError c
  | invoke fn types values => exact .refl c

theorem onGeneric {c c' : CServerClient} {msg : CGenericProtocolMessage}
    {invocation : Option Invocation} (run : c.onGeneric msg = some (.ok (c', invocation))) :
    Quiet c c' := by
  simp only [CServerClient.onGeneric] at run
  split at run
  · cases run
    exact .refl c
  · split at run
    · cases run
    · split at run
      · cases run
      · obtain ⟨result, -, rest⟩ := Option.map_eq_some_iff.mp run
        cases result with
        | error fault => cases rest
        | ok outcome =>
            have same : _ = c' := congrArg Prod.fst (Except.ok.inj rest)
            exact same ▸ Quiet.outcome c _ _ _

end Quiet

/-- The relation of two states of the server whose connections are so related. -/
def QuietState (s t : ServerState α) : Prop := Quiet s.client t.client

theorem invoke_quiet {cfg : Config α}
    {callback : ServerCode α → ServerState α → Except Fault (ServerState α)}
    (quiet : ∀ code, Keeps QuietState id (callback code)) (invocation : Option Invocation) :
    Keeps QuietState id fun s => invoke cfg callback s invocation := by
  intro s t run
  cases invocation with
  | none =>
      cases run
      exact .refl _
  | some invocation => exact quiet _ _ _ run

theorem perform_quiet {cfg : Config α}
    {callback : ServerCode α → ServerState α → Except Fault (ServerState α)}
    (quiet : ∀ code, Keeps QuietState id (callback code)) (request : Request α) :
    Keeps QuietState Prod.snd (perform cfg callback request) := by
  intro s t run
  cases request with
  | createObject reference object seq =>
      cases reference with
      | none =>
          cases run
          exact .refl _
      | some ref =>
          obtain ⟨u, called, rest⟩ := bind_eq_ok.mp run
          cases rest
          exact (Quiet.createObject _ _ _ _ _ _).trans (invoke_quiet quiet _ _ _ called)
  | call object id args =>
      obtain ⟨⟨result, client⟩, called, rest⟩ := bind_eq_ok.mp run
      cases rest
      exact Quiet.call called
  | error object id message =>
      obtain ⟨client, called, rest⟩ := bind_eq_ok.mp run
      cases rest
      exact Quiet.raiseAt called
  | listen object id fn =>
      obtain ⟨client, called, rest⟩ := bind_eq_ok.mp run
      cases rest
      exact Quiet.listen called
  | load =>
      cases run
      exact .refl _
  | store memory =>
      cases run
      exact .refl _

/-- **The application answers no roundtrip and asks for none, and does not take an
error back.** -/
theorem runCode_quiet (cfg : Config α) (code : ServerCode α) :
    Keeps QuietState id (runCode cfg code) :=
  exec_keeps (fun s => Quiet.refl s.client) (fun _ _ _ first second => first.trans second)
    (fun _ quiet request => perform_quiet quiet request) cfg.frames code

/-- The requests of a message take the place of what was scheduled. -/
def scheduledAfter (before : UInt32) (handled : List Received) : UInt32 :=
  (requests handled).getLastD before

/-- What a received message does to an error, to the answers and to what is scheduled. -/
theorem receive_effect {impls : Impls} {client next : CServerClient} {message : Received}
    {invocation : Option Invocation}
    (run : client.receive impls message = some (.ok (next, invocation))) :
    (client.error = true → next.error = true) ∧ dones next.sent = dones client.sent ∧
      next.scheduledRoundtripSeq = scheduledAfter client.scheduledRoundtripSeq [message] := by
  have quiet : Quiet client next → (client.error = true → next.error = true) ∧
      dones next.sent = dones client.sent ∧
      next.scheduledRoundtripSeq = client.scheduledRoundtripSeq :=
    fun same => ⟨same.error, same.dones, same.scheduled⟩
  cases message with
  | roundtripRequest seq => cases run; exact ⟨id, rfl, rfl⟩
  | hello =>
      cases run
      have sent := @Quiet.sendMessage { client with firstPollDone := true }
        (.handshakeBegin [protocolVer]) rfl
      exact quiet ⟨sent.error, sent.dones, sent.scheduled⟩
  | handshakeAck version =>
      cases run
      have sent := @Quiet.sendMessage { client with version }
        (.handshakeProtocols (impls.map CServerClient.advertised)) rfl
      exact quiet ⟨sent.error, sent.dones, sent.scheduled⟩
  | bindProtocol protocol seq version => cases run; exact quiet (Quiet.createObject _ _ _ _ _ _)
  | generic msg => exact quiet (Quiet.onGeneric run)
  | handshakeBegin versions => cases run; exact quiet (.refl _)
  | handshakeProtocols protocols => cases run; exact quiet (.refl _)
  | newObject seq id => cases run; exact quiet (.refl _)
  | fatalError objectId errorId errorMsg => cases run; exact quiet (.refl _)
  | roundtripDone seq => cases run; exact quiet (.refl _)

/-- What acting on a message does to an error, to the answers and to what is scheduled. -/
theorem handle_effect {cfg : Config α} {message : Received} {s t : ServerState α}
    (run : handle cfg message s = some (.ok t)) :
    (s.client.error = true → t.client.error = true) ∧
      dones t.client.sent = dones s.client.sent ∧
      t.client.scheduledRoundtripSeq =
        scheduledAfter s.client.scheduledRoundtripSeq [message] := by
  obtain ⟨received, library, rest⟩ := Option.map_eq_some_iff.mp run
  cases received with
  | error fault => cases rest
  | ok result =>
      obtain ⟨client, invocation⟩ := result
      have called : Quiet client t.client :=
        invoke_quiet (runCode_quiet cfg) invocation { s with client } t rest
      obtain ⟨error, quiet, scheduled⟩ := receive_effect library
      exact ⟨called.error ∘ error, called.dones.trans quiet, called.scheduled.trans scheduled⟩

end Hyprwire.Server
