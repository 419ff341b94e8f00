import Hyprwire.Object.Call
import Hyprwire.Object.Called
import Hyprwire.Wire.Parser

/-!
# The client's side of a connection

`CClientSocket` keeps the objects of a client, and the calls that wait for the
identifier of their object. This module has what the library does with it, up to the
listeners of the application.

Two fields are not in the source. `sent` lists what has been written to the socket,
and a generic message in it or in `pendingOutgoing` comes with the call it was made
for (`Origin`); `made` counts these messages, and numbers them.
-/

set_option autoImplicit false

namespace Hyprwire.Client

open Cpp Wire Object

/-- The call a message was made for: the object, by its place in the list, and the
number of the message. -/
structure Origin where
  object : Nat
  number : Nat
  deriving DecidableEq, Repr

/-- A generic message that waits for the identifier of an object. -/
structure Pending where
  msg : CGenericProtocolMessage
  origin : Origin

/-- A message on the wire. -/
structure Sent where
  message : Message
  origin : Option Origin := none
  deriving DecidableEq, Repr

/-- `CServerSpec`. -/
structure CServerSpec where
  name : Str
  version : UInt32
  deriving DecidableEq, Repr

/-- `CClientSocket`. -/
structure CClientSocket where
  serverSpecs : List CServerSpec := []
  objects : List IWireObject := []
  pendingOutgoing : List Pending := []
  error : Bool := false
  handshakeDone : Bool := false
  seq : UInt32 := 0
  lastAckdRoundtripSeq : UInt32 := 0
  lastSentRoundtripSeq : UInt32 := 0
  fdIsValid : Bool := true
  sent : List Sent := []
  made : Nat := 0

/-- The implementations of a client, `m_impls`. -/
abbrev Impls := List IProtocolClientImplementation

/-- A listener that is to be called. -/
structure Invocation where
  fn : Callback
  object : Nat
  values : List Value

namespace CClientSocket

/-- Nothing is written to a socket that is closed. -/
def sendMessage (client : CClientSocket) (message : Message) (origin : Option Origin := none) :
    CClientSocket :=
  if client.fdIsValid then { client with sent := client.sent ++ [⟨message, origin⟩] } else client

/-- A socket that has been opened: `attemptFromFd` sends `SUP` at once. -/
def opened : CClientSocket := ({} : CClientSocket).sendMessage .hello

def disconnectOnError (client : CClientSocket) : CClientSocket :=
  { client with error := true, fdIsValid := false }

/-! ## Objects -/

def objectForSeq (client : CClientSocket) (seq : UInt32) : Option IWireObject :=
  client.objects.find? fun o => o.seq = seq

/-- The kind of object a protocol of the client has under a name. -/
def specFor (impls : Impls) (protocolName objectName : Str) : Option IProtocolObjectSpec := do
  let p ← impls.find? fun p => p.protocol.specName = protocolName
  p.protocol.objects.find? fun o => o.objectName = objectName

/-- The version of the object stays at zero. -/
def makeObject (impls : Impls) (protocolName objectName : Str) (seq : UInt32)
    (client : CClientSocket) : CClientSocket :=
  match specFor impls protocolName objectName with
  | none => client
  | some spec =>
      { client with
        objects := client.objects ++ [{ seq, protocolName, spec := some spec }] }

/-- The first object with the sequence gets the identifier. -/
def onSeq (client : CClientSocket) (seq id : UInt32) : CClientSocket :=
  match client.objects.findIdx? fun o => o.seq = seq with
  | none => client
  | some index =>
      { client with objects := client.objects.modify index fun o => { o with id } }

/-- `bindProtocol` up to the wait for the object. -/
def bindProtocol (client : CClientSocket) (spec : IProtocolSpec) (version : UInt32) :
    Except Fault (Option Nat × CClientSocket) :=
  if spec.specVer < version then
    .ok (none, client.disconnectOnError)
  else
    match spec.objects with
    | [] => .error .outOfBounds
    | front :: _ =>
        let seq := client.seq + 1
        let object : IWireObject :=
          { seq, version, protocolName := spec.specName, spec := some front }
        let bound := { client with seq, objects := client.objects ++ [object] }
        .ok (some client.objects.length,
          bound.sendMessage (.bindProtocol spec.specName seq version))

/-- `m_spec`, which is followed without a look. -/
def specOf (object : IWireObject) : Except Fault IProtocolObjectSpec :=
  match object.spec with
  | some spec => .ok spec
  | none => .error .nullDeref

/-- The object that the application holds, which is not to be null. -/
def objectAt (client : CClientSocket) (index : Nat) : Except Fault IWireObject :=
  match client.objects[index]? with
  | some object => .ok object
  | none => .error .nullDeref

/-! ## Calls -/

/-- What a call returns and makes when its method returns an object. -/
def returned (impls : Impls) (object : IWireObject) (client : CClientSocket) :
    Option (UInt32 × Str) → UInt32 × CClientSocket
  | none => (0, client)
  | some (seq, kind) => (seq, makeObject impls object.protocolName kind seq client)

/-- A message waits for its object. -/
def defer (client : CClientSocket) (index : Nat) (msg : CGenericProtocolMessage) :
    CClientSocket :=
  { client with
    pendingOutgoing := client.pendingOutgoing ++ [⟨msg, ⟨index, client.made⟩⟩]
    made := client.made + 1 }

/-- A message is written at once. -/
def direct (client : CClientSocket) (index : Nat) (msg : CGenericProtocolMessage) :
    CClientSocket :=
  { client.sendMessage (.generic msg.data msg.fds) (some ⟨index, client.made⟩) with
    made := client.made + 1 }

/-- What a call on an object comes to for the connection. `error` does nothing there. -/
def afterCall (impls : Impls) (index : Nat) (object : IWireObject) (client : CClientSocket) :
    CallOutcome → UInt32 × CClientSocket
  | .error _ => (0, client)
  | .errd => (0, { client with error := true })
  | .defer msg kind => returned impls object (client.defer index msg) kind
  | .send msg kind => returned impls object (client.direct index msg) kind

/-- `IWireObject::call` on an object of the client. -/
def call (impls : Impls) (client : CClientSocket) (index : Nat) (id : UInt32) (args : List Arg) :
    Except Fault (UInt32 × CClientSocket) := do
  let object ← client.objectAt index
  let spec ← specOf object
  let (outcome, seq) ← object.call false spec.c2s client.seq id args
  return afterCall impls index object { client with seq } outcome

/-- `IWireObject::listen`. -/
def listen (client : CClientSocket) (index : Nat) (id : UInt32) (fn : Option Callback) :
    Except Fault CClientSocket := do
  let object ← client.objectAt index
  return { client with objects := client.objects.set index (object.listen id fn) }

/-! ## The calls that wait -/

/-- What becomes of a waiting message. -/
inductive Waiting where
  | drop
  | keep
  | send (message : Message)

/-- A message whose object is unknown is dropped, and one whose object has an
identifier is resolved and sent. -/
def waiting (client : CClientSocket) (msg : CGenericProtocolMessage) : Waiting :=
  match client.objectForSeq msg.dependsOnSeq with
  | none => .drop
  | some object =>
      if object.id = 0 then
        .keep
      else
        let msg := msg.resolveSeq object.id
        .send (.generic msg.data msg.fds)

/-- The predicate of `std::erase_if` over the waiting messages, with its effect: the
messages that stay. -/
def flush : List Pending → CClientSocket → List Pending × CClientSocket
  | [], client => ([], client)
  | pending :: rest, client =>
      match client.waiting pending.msg with
      | .drop => flush rest client
      | .keep =>
          let (kept, client) := flush rest client
          (pending :: kept, client)
      | .send message => flush rest (client.sendMessage message (some pending.origin))

/-- The end of `dispatchEvents`. -/
def flushPending (client : CClientSocket) : CClientSocket :=
  let (kept, client) := flush client.pendingOutgoing client
  { client with pendingOutgoing := kept }

/-! ## Roundtrips -/

/-- `roundtrip` up to the wait for the answer. -/
def roundtrip (client : CClientSocket) : CClientSocket :=
  if client.error then
    client
  else
    let nextSeq := client.lastSentRoundtripSeq + 1
    { client with lastSentRoundtripSeq := nextSeq }.sendMessage (.roundtripRequest nextSeq)

/-! ## Messages -/

/-- The white space `std::stoul` skips. -/
def isSpace (byte : UInt8) : Bool := byte = 0x20 ∨ 0x09 ≤ byte ∧ byte ≤ 0x0d

/-- A decimal digit. -/
def isDigit (byte : UInt8) : Bool := 0x30 ≤ byte ∧ byte ≤ 0x39

/-- `std::stoul`, or nothing when it throws. -/
def stoul (s : Str) : Option Nat :=
  let s := s.dropWhile isSpace
  let (negative, s) :=
    match s with
    | 0x2d :: rest => (true, rest)
    | 0x2b :: rest => (false, rest)
    | _ => (false, s)
  let digits := s.takeWhile isDigit
  let value := digits.foldl (fun value digit => 10 * value + (digit.toNat - 0x30)) 0
  if digits = [] ∨ 2 ^ 64 ≤ value then
    none
  else if negative then
    some (wrapSub 0 value)
  else
    some value

/-- The name and the version around the last `@`. Without one, both are the whole
string. -/
def serverSpec (specName : Str) : Option CServerSpec := do
  let back := specName.reverse.takeWhile (· ≠ 0x40)
  let version ← stoul back.reverse
  let name := if 0x40 ∈ specName then specName.take (specName.length - back.length - 1)
    else specName
  return { name, version := UInt32.ofNat version }

/-- The loop of `serverSpecs`, which an exception ends. -/
def addServerSpecs : List Str → CClientSocket → CClientSocket
  | [], client => client
  | specName :: rest, client =>
      match serverSpec specName with
      | none => client.disconnectOnError
      | some spec =>
          addServerSpecs rest { client with serverSpecs := client.serverSpecs ++ [spec] }

/-- `serverSpecs`: the handshake is done in any case. -/
def takeServerSpecs (client : CClientSocket) (s : List Str) : CClientSocket :=
  { addServerSpecs s client with handshakeDone := true }

/-- `getSpec`: the first protocol of the server with the name. -/
def getSpec (client : CClientSocket) (name : Str) : Option CServerSpec :=
  client.serverSpecs.find? fun s => s.name = name

/-- What a received call comes to. -/
def outcome (client : CClientSocket) (index : Nat) :
    Outcome → CClientSocket × Option Invocation
  | .ignored | .error _ => (client, none)
  | .errd => ({ client with error := true }, none)
  | .invoke fn _ values => (client, some ⟨fn, index, values⟩)

/-- `onGeneric`: the first object with the identifier is called. -/
def onGeneric (client : CClientSocket) (msg : CGenericProtocolMessage) :
    Option (Except Fault (CClientSocket × Option Invocation)) :=
  match client.objects.findIdx? fun o => o.id = msg.object with
  | none => some (.ok (client, none))
  | some index =>
      match client.objectAt index with
      | .error fault => some (.error fault)
      | .ok object =>
          match specOf object with
          | .error fault => some (.error fault)
          | .ok spec =>
              (object.called spec.s2c msg.method msg.dataSpan msg.fds).map fun result =>
                result.map (client.outcome index)

/-- The acting part of `parseSingleMessage` on the client. The other messages are
refused before. -/
def receive (client : CClientSocket) :
    Received → Option (Except Fault (CClientSocket × Option Invocation))
  | .handshakeBegin _ => some (.ok (client.sendMessage (.handshakeAck protocolVer), none))
  | .handshakeProtocols protocols => some (.ok (client.takeServerSpecs protocols, none))
  | .newObject seq id => some (.ok (client.onSeq seq id, none))
  | .generic msg => client.onGeneric msg
  | .fatalError _ _ _ => some (.ok ({ client with error := true }, none))
  | .roundtripDone seq => some (.ok ({ client with lastAckdRoundtripSeq := seq }, none))
  | _ => some (.ok (client, none))

/-! ## What the functions do -/

theorem objectAt_eq_ok {client : CClientSocket} {index : Nat} {object : IWireObject} :
    client.objectAt index = .ok object ↔ client.objects[index]? = some object := by
  unfold objectAt
  split <;> rename_i h <;> rw [h] <;> simp

theorem specOf_eq_ok {object : IWireObject} {spec : IProtocolObjectSpec} :
    specOf object = .ok spec ↔ object.spec = some spec := by
  unfold specOf
  split <;> rename_i h <;> rw [h] <;> simp

/-- A call that returns has called an object of the list. -/
theorem call_eq_ok {impls : Impls} {client : CClientSocket} {index : Nat} {id : UInt32}
    {args : List Arg} {result : UInt32 × CClientSocket} :
    client.call impls index id args = .ok result ↔
      ∃ object spec outcome seq, client.objects[index]? = some object ∧
        object.spec = some spec ∧
        object.call false spec.c2s client.seq id args = .ok (outcome, seq) ∧
        result = afterCall impls index object { client with seq } outcome := by
  simp only [call, bind_eq_ok, objectAt_eq_ok, specOf_eq_ok, pure_eq_ok, Except.ok.injEq,
    Prod.exists]
  constructor
  · rintro ⟨object, has, spec, kind, outcome, seq, run, rfl⟩
    exact ⟨object, spec, outcome, seq, has, kind, run, rfl⟩
  · rintro ⟨object, spec, outcome, seq, has, kind, run, rfl⟩
    exact ⟨object, has, spec, kind, outcome, seq, run, rfl⟩

/-- The specs of the server matter to the specs, and can end the connection. -/
theorem addServerSpecs_eq (s : List Str) (client : CClientSocket) :
    ∃ serverSpecs error fdIsValid,
      addServerSpecs s client = { client with serverSpecs, error, fdIsValid } ∧
      (error = client.error ∧ fdIsValid = client.fdIsValid ∨ error = true) := by
  induction s generalizing client with
  | nil => exact ⟨_, _, _, rfl, .inl ⟨rfl, rfl⟩⟩
  | cons specName rest ih =>
      rw [addServerSpecs]
      split
      · exact ⟨_, _, _, rfl, .inr rfl⟩
      · exact ih _

/-- A generic message changes nothing but the error. -/
theorem onGeneric_eq_ok {client next : CClientSocket} {msg : CGenericProtocolMessage}
    {invocation : Option Invocation} (run : client.onGeneric msg = some (.ok (next, invocation))) :
    next = { client with error := next.error } ∧ (client.error = true → next.error = true) := by
  simp only [onGeneric] at run
  split at run
  · cases run
    exact ⟨rfl, id⟩
  · split at run
    · cases run
    · split at run
      · cases run
      · obtain ⟨result, -, rest⟩ := Option.map_eq_some_iff.mp run
        cases result with
        | error fault => cases rest
        | ok result =>
            cases result <;> cases rest
            · exact ⟨rfl, id⟩
            · exact ⟨rfl, id⟩
            · exact ⟨rfl, fun _ => rfl⟩
            · exact ⟨rfl, id⟩

end CClientSocket

end Hyprwire.Client
