import Hyprwire.Object.Call
import Hyprwire.Object.Called
import Hyprwire.Wire.Parser

/-!
# The server's side of a connection

`CServerClient` is what the server keeps for one client. This module has what the
library itself does with it: it creates objects, acts on the messages of the client,
and sends. Where the source calls a function of the application, the functions here
return which one (`Invocation`); running it is the matter of the next module.

`sent` is not a field of the source: it lists what has been handed to `sendMessage`.
-/

set_option autoImplicit false

namespace Hyprwire.Server

open Cpp Wire Object

/-- `CServerClient`. -/
structure CServerClient where
  firstPollDone : Bool := false
  version : UInt32 := 0
  maxId : UInt32 := 1
  error : Bool := false
  scheduledRoundtripSeq : UInt32 := 0
  objects : List IWireObject := []
  sent : List Message := []
  deriving DecidableEq, Repr

/-- A function of the application that is to be called. -/
inductive Invocation where
  | onBind (fn : Callback) (object : Nat)
  | listener (fn : Callback) (object : Nat) (values : List Value)
  deriving DecidableEq, Repr

/-- The implementations a server offers, `m_impls`. -/
abbrev Impls := List IProtocolServerImplementation

namespace CServerClient

def sendMessage (client : CServerClient) (message : Message) : CServerClient :=
  { client with sent := client.sent ++ [message] }

def setError (client : CServerClient) : CServerClient := { client with error := true }

/-- `CServerObject::error`. -/
def raise (client : CServerClient) (object : IWireObject) (id : UInt32) (message : Str) :
    CServerClient :=
  (client.sendMessage (.fatalError (some object.id) id message)).setError

/-! ## Objects -/

/-- The first implementation of a protocol. -/
def implFor (impls : Impls) (protocol : Str) : Option IProtocolServerImplementation :=
  impls.find? fun p => p.protocol.specName = protocol

/-- The kind of object a name asks for. The empty name asks for the first one. -/
def specFor (protocol : IProtocolSpec) (object : Str) : Option IProtocolObjectSpec :=
  protocol.objects.find? fun s => s.objectName = object ∨ object = []

/-- The object is listed whatever comes of it. -/
def listObject (client : CServerClient) (object : IWireObject) : CServerClient :=
  { client with maxId := client.maxId + 1, objects := client.objects ++ [object] }

/-- `createObject` up to `onBind`: the place of the new object, if it was made. -/
def createObject (impls : Impls) (protocol object : Str) (version seq : UInt32)
    (client : CServerClient) : Option Nat × CServerClient :=
  let obj : IWireObject := { id := client.maxId, version }
  match implFor impls protocol with
  | none => (none, (client.listObject obj).setError)
  | some p =>
      let obj := { obj with spec := specFor p.protocol object, protocolName := protocol }
      if obj.spec = none then
        (none, (client.listObject obj).setError)
      else if p.protocol.specVer < version then
        (none, (client.listObject obj).setError)
      else
        (some client.objects.length,
          (client.listObject obj).sendMessage (.newObject seq obj.id))

/-- The function `onBind` calls for an object. -/
def onBind (impls : Impls) (object : IWireObject) : Option Callback := do
  let p ← implFor impls object.protocolName
  let spec ← object.spec
  let on ← p.implementation.find? fun on => on.objectName = spec.objectName
  on.onBind

/-- The function that is called after `createObject` has made an object. -/
def bound (impls : Impls) (client : CServerClient) (made : Option Nat) : Option Invocation := do
  let index ← made
  let object ← client.objects[index]?
  let fn ← onBind impls object
  return .onBind fn index

/-- `m_spec`, which is followed without a look. -/
def specOf (object : IWireObject) : Except Fault IProtocolObjectSpec :=
  match object.spec with
  | some spec => .ok spec
  | none => .error .nullDeref

/-- The object that the application holds, which is not to be null. -/
def objectAt (client : CServerClient) (index : Nat) : Except Fault IWireObject :=
  match client.objects[index]? with
  | some object => .ok object
  | none => .error .nullDeref

theorem specOf_eq_ok {object : IWireObject} {spec : IProtocolObjectSpec} :
    specOf object = .ok spec ↔ object.spec = some spec := by
  rw [specOf]
  cases object.spec with
  | none => simp
  | some found => simp

theorem objectAt_eq_ok {client : CServerClient} {index : Nat} {object : IWireObject} :
    client.objectAt index = .ok object ↔ client.objects[index]? = some object := by
  rw [objectAt]
  cases client.objects[index]? with
  | none => simp
  | some found => simp

/-- `IWireObject::call` on an object of the server. -/
def call (client : CServerClient) (index : Nat) (id : UInt32) (args : List Arg) :
    Except Fault (UInt32 × CServerClient) := do
  let object ← client.objectAt index
  let spec ← specOf object
  let (outcome, _) ← object.call true spec.s2c 0 id args
  match outcome with
  | .error message => return (0, client.raise object object.id (text message))
  | .errd => return (0, client.setError)
  | .send msg _ | .defer msg _ => return (0, client.sendMessage (.generic msg.data msg.fds))

/-- `CServerObject::error`, called by the application. -/
def raiseAt (client : CServerClient) (index : Nat) (id : UInt32) (message : Str) :
    Except Fault CServerClient := do
  let object ← client.objectAt index
  return client.raise object id message

/-- `IWireObject::listen`. -/
def listen (client : CServerClient) (index : Nat) (id : UInt32) (fn : Option Callback) :
    Except Fault CServerClient := do
  let object ← client.objectAt index
  return { client with objects := client.objects.set index (object.listen id fn) }

/-! ## Messages -/

/-- What a received call comes to for the connection. -/
def outcome (client : CServerClient) (index : Nat) (object : IWireObject) :
    Outcome → CServerClient × Option Invocation
  | .ignored => (client, none)
  | .error message => (client.raise object object.id (text message), none)
  | .errd => (client.setError, none)
  | .invoke fn _ values => (client, some (.listener fn index values))

/-- `onGeneric`: the first object with the identifier is called. -/
def onGeneric (client : CServerClient) (msg : CGenericProtocolMessage) :
    Option (Except Fault (CServerClient × Option Invocation)) :=
  match client.objects.findIdx? fun o => o.id = msg.object with
  | none => some (.ok (client, none))
  | some index =>
      match client.objectAt index with
      | .error fault => some (.error fault)
      | .ok object =>
          match specOf object with
          | .error fault => some (.error fault)
          | .ok spec =>
              (object.called spec.c2s msg.method msg.dataSpan msg.fds).map fun result =>
                result.map (client.outcome index object)

/-- `std::format("{}@{}", specName, specVer)`. -/
def advertised (p : IProtocolServerImplementation) : Str :=
  p.protocol.specName ++ text s!"@{p.protocol.specVer}"

/-- The acting part of `parseSingleMessage` on the server. The other messages are
refused before. -/
def receive (impls : Impls) (client : CServerClient) :
    Received → Option (Except Fault (CServerClient × Option Invocation))
  | .hello =>
      let client := { client with firstPollDone := true }
      some (.ok (client.sendMessage (.handshakeBegin [protocolVer]), none))
  | .handshakeAck version =>
      let client := { client with version }
      some (.ok (client.sendMessage (.handshakeProtocols (impls.map advertised)), none))
  | .bindProtocol protocol seq version =>
      let (made, client) := createObject impls protocol [] version seq client
      some (.ok (client, bound impls client made))
  | .generic msg => client.onGeneric msg
  | .roundtripRequest seq => some (.ok ({ client with scheduledRoundtripSeq := seq }, none))
  | _ => some (.ok (client, none))

end CServerClient

end Hyprwire.Server
