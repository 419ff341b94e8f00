import Hyprwire.Server.Acts

/-!
# What the server utters

An act of the server sends one message or none. `act_utters` tells which: what answers a message,
what an object that was made is announced with, and what a call or an error is sent as.
-/

set_option autoImplicit false

namespace Hyprwire.Server

open Cpp Wire Object

/-! ## The message of a call -/

/-- A call that is sent names its object. -/
theorem call_header {object : IWireObject} {server : Bool} {methods : List SMethod}
    {seq seq' id : UInt32} {args : List Arg} {msg : CGenericProtocolMessage}
    {kind : Option (UInt32 × Str)}
    (made : object.call server methods seq id args = .ok (.send msg kind, seq')) :
    ∃ method rest, msg.data = callHeader object.id method ++ rest := by
  simp only [IWireObject.call] at made
  split at made
  · cases made
  · obtain ⟨message, run, rest⟩ := bind_eq_ok.mp made
    obtain ⟨marshalled, -, whole⟩ := bind_eq_ok.mp run
    cases marshalled with
    | none =>
        cases whole
        cases rest
    | some pair =>
        cases whole
        simp only at rest
        split at rest
        · cases rest
        · cases rest
          exact ⟨id, _, rfl⟩

/-- The server keeps no call back. -/
theorem call_ne_defer {object : IWireObject} {methods : List SMethod} {seq seq' id : UInt32}
    {args : List Arg} {msg : CGenericProtocolMessage} {kind : Option (UInt32 × Str)} :
    object.call true methods seq id args ≠ .ok (.defer msg kind, seq') := by
  intro made
  simp only [IWireObject.call] at made
  split at made
  · cases made
  · obtain ⟨message, -, rest⟩ := bind_eq_ok.mp made
    cases message with
    | none => cases rest
    | some msg => simp at rest

/-! ## Acts -/

/-- The message that an act sends. -/
inductive Utters (impls : Impls) (client : CServerClient) : Act → Message → Prop
  | begins : Utters impls client (.receive .hello) (.handshakeBegin [protocolVer])
  | offers {version : UInt32} : Utters impls client (.receive (.handshakeAck version))
      (.handshakeProtocols (impls.map CServerClient.advertised))
  | binds {protocol : Str} {seq version : UInt32} :
      Utters impls client (.receive (.bindProtocol protocol seq version))
        (.newObject seq client.maxId)
  | makes {protocol object : Str} {version seq : UInt32} :
      Utters impls client (.createObject protocol object version seq) (.newObject seq client.maxId)
  | calls {index : Nat} {object : IWireObject} {id : UInt32} {args : List Arg}
      {msg : CGenericProtocolMessage} (has : client.objects[index]? = some object)
      (header : ∃ method rest, msg.data = callHeader object.id method ++ rest) :
      Utters impls client (.call index id args) (.generic msg.data msg.fds)
  | refuses {index : Nat} {id : UInt32} {args : List Arg} {object : IWireObject} {message : Str} :
      Utters impls client (.call index id args) (.fatalError (some object.id) object.id message)
  | raises {index : Nat} {id : UInt32} {object : IWireObject} {message : Str} :
      Utters impls client (.error index id message) (.fatalError (some object.id) id message)
  | rejects {msg : CGenericProtocolMessage} {object : IWireObject} {message : Str} :
      Utters impls client (.receive (.generic msg))
        (.fatalError (some object.id) object.id message)
  | answers (scheduled : 0 < client.scheduledRoundtripSeq) :
      Utters impls client .answer (.roundtripDone client.scheduledRoundtripSeq)
  | fails {message : String} :
      Utters impls client (.fail message) (.fatalError none 0xffffffff (text message))

/-- Nothing has been sent, or the message of an act. -/
def Speaks (impls : Impls) (client : CServerClient) (act : Act) (next : CServerClient) : Prop :=
  next.sent = client.sent ∨
    ∃ message, next.sent = client.sent ++ [message] ∧ Utters impls client act message

namespace Speaks

variable {impls : Impls} {client next : CServerClient}

theorem createObject {act : Act} {protocol object : Str} {version seq : UInt32}
    (utters : Utters impls client act (.newObject seq client.maxId)) :
    Speaks impls client act
      (CServerClient.createObject impls protocol object version seq client).2 := by
  simp only [CServerClient.createObject]
  split
  · exact .inl rfl
  · split
    · exact .inl rfl
    · split
      · exact .inl rfl
      · exact .inr ⟨_, rfl, utters⟩

theorem call {index : Nat} {id result : UInt32} {args : List Arg}
    (run : client.call index id args = .ok (result, next)) :
    Speaks impls client (.call index id args) next := by
  obtain ⟨object, at_, rest⟩ := bind_eq_ok.mp run
  obtain ⟨spec, -, rest⟩ := bind_eq_ok.mp rest
  obtain ⟨⟨outcome, seq⟩, made, rest⟩ := bind_eq_ok.mp rest
  have has := CServerClient.objectAt_eq_ok.mp at_
  cases outcome with
  | error message => cases rest; exact .inr ⟨_, rfl, .refuses⟩
  | errd => cases rest; exact .inl rfl
  | send msg returned => cases rest; exact .inr ⟨_, rfl, .calls has (call_header made)⟩
  | defer msg returned => exact absurd made call_ne_defer

theorem onGeneric {msg : CGenericProtocolMessage} {invocation : Option Invocation}
    (run : client.onGeneric msg = some (.ok (next, invocation))) :
    Speaks impls client (.receive (.generic msg)) next := by
  simp only [CServerClient.onGeneric] at run
  split at run
  · cases run
    exact .inl rfl
  · split at run
    · cases run
    · split at run
      · cases run
      · obtain ⟨result, -, rest⟩ := Option.map_eq_some_iff.mp run
        obtain ⟨outcome, -, same⟩ := map_eq_ok.mp rest
        obtain rfl : _ = next := congrArg Prod.fst same
        cases outcome with
        | error message => exact .inr ⟨_, rfl, .rejects⟩
        | ignored => exact .inl rfl
        | errd => exact .inl rfl
        | invoke fn types values => exact .inl rfl

theorem receive {message : Received} {invocation : Option Invocation}
    (run : client.receive impls message = some (.ok (next, invocation))) :
    Speaks impls client (.receive message) next := by
  cases message with
  | hello => cases run; exact .inr ⟨_, rfl, .begins⟩
  | handshakeAck version => cases run; exact .inr ⟨_, rfl, .offers⟩
  | bindProtocol protocol seq version => cases run; exact createObject .binds
  | generic msg => exact onGeneric run
  | roundtripRequest seq => cases run; exact .inl rfl
  | handshakeBegin versions => cases run; exact .inl rfl
  | handshakeProtocols protocols => cases run; exact .inl rfl
  | newObject seq id => cases run; exact .inl rfl
  | fatalError objectId errorId errorMsg => cases run; exact .inl rfl
  | roundtripDone seq => cases run; exact .inl rfl

end Speaks

/-- **What an act sends.** -/
theorem act_utters {impls : Impls} {client next : CServerClient} {act : Act}
    (acts : client.act impls act = some (.ok next)) : Speaks impls client act next := by
  cases act with
  | createObject protocol object version seq => cases acts; exact .createObject .makes
  | call object id args =>
      obtain ⟨⟨result, _⟩, called, rfl⟩ := map_eq_ok.mp (Option.some.inj acts)
      exact .call called
  | error index id message =>
      obtain ⟨object, -, rest⟩ := bind_eq_ok.mp (Option.some.inj acts)
      cases rest
      exact .inr ⟨_, rfl, .raises⟩
  | listen object id fn =>
      obtain ⟨object, -, rest⟩ := bind_eq_ok.mp (Option.some.inj acts)
      cases rest
      exact .inl rfl
  | receive message =>
      obtain ⟨received, run, rest⟩ := Option.map_eq_some_iff.mp acts
      obtain ⟨⟨_, invocation⟩, rfl, rfl⟩ := map_eq_ok.mp rest
      exact .receive run
  | refuse => cases acts; exact .inl rfl
  | answer =>
      cases acts
      rw [CServerClient.answer]
      split
      · next scheduled => exact .inr ⟨_, rfl, .answers scheduled⟩
      · exact .inl rfl
  | fail message => cases acts; exact .inr ⟨_, rfl, .fails⟩

end Hyprwire.Server
