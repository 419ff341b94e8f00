import Hyprwire.Link.Stream
import Hyprwire.Server.Utterances

/-!
# What each end sends

The server sends what a client reads, and a client what a server reads (`FromServer`,
`FromClient`): a message of one end is never malformed or invalid for the other, wherever it
lies in what is read (`sent_is_read`). One message is the exception. The number of a version is
not looked at when a protocol is bound, and the server refuses zero.
-/

set_option autoImplicit false

namespace Hyprwire.Object

open Cpp Wire

/-- A message that a client sends. -/
def FromClient : Message → Prop
  | .hello | .handshakeAck _ | .bindProtocol _ _ _ | .roundtripRequest _ | .generic _ _ => True
  | _ => False

end Hyprwire.Object

namespace Hyprwire.Server

open Cpp Wire Object

end Hyprwire.Server

namespace Hyprwire.Client

open Cpp Wire Object

/-- What has been sent are messages of a client. -/
def OfClient (client : CClientSocket) : Prop := ∀ sent ∈ client.sent, FromClient sent.message

namespace OfClient

variable {client next : CClientSocket}

theorem write (of : OfClient client) {messages : List Sent}
    (all : ∀ sent ∈ messages, FromClient sent.message) : OfClient (client.write messages) := by
  rw [CClientSocket.write]
  split
  · exact List.forall_mem_append.mpr ⟨of, all⟩
  · exact of

theorem sendMessage (of : OfClient client) (message : Message) (origin : Option Origin)
    (is : FromClient message) : OfClient (client.sendMessage message origin) :=
  of.write (List.forall_mem_singleton.mpr is)

theorem returned (of : OfClient client) (impls : Impls) (object : IWireObject)
    (kind : Option (UInt32 × Str)) : OfClient (CClientSocket.returned impls object client kind).2 := by
  cases kind with
  | none => exact of
  | some kind =>
      rw [CClientSocket.returned, CClientSocket.makeObject]
      split
      · exact of
      · exact of

theorem call (of : OfClient client) {impls : Impls} {index : Nat} {id result : UInt32}
    {args : List Arg} (run : client.call impls index id args = .ok (result, next)) :
    OfClient next := by
  obtain ⟨object, spec, outcome, seq, -, -, -, after⟩ := CClientSocket.call_eq_ok.mp run
  obtain rfl : next = _ := congrArg Prod.snd after
  have counted : OfClient { client with seq } := of
  cases outcome with
  | error message => exact of
  | errd => exact of
  | defer msg kind =>
      have waits : OfClient ({ client with seq }.defer index msg) := of
      exact waits.returned impls object kind
  | send msg kind =>
      have direct : OfClient ({ client with seq }.direct index msg) :=
        counted.sendMessage (.generic msg.data msg.fds) (some ⟨index, client.made⟩) trivial
      exact direct.returned impls object kind

theorem bindProtocol (of : OfClient client) {spec : IProtocolSpec} {version : UInt32}
    {object : Option Nat} (run : client.bindProtocol spec version = .ok (object, next)) :
    OfClient next := by
  simp only [CClientSocket.bindProtocol] at run
  split at run
  · cases run
    exact of
  · split at run
    · cases run
    · cases run
      exact sendMessage (by exact of) _ none trivial

theorem flushPending (of : OfClient client) : OfClient client.flushPending := by
  rw [CClientSocket.flushPending_eq]
  have written : OfClient (client.write (client.pendingOutgoing.filterMap client.resolved)) := by
    refine of.write fun sent listed => ?_
    obtain ⟨pending, -, resolved⟩ := List.mem_filterMap.mp listed
    obtain ⟨data, fds, is⟩ := CClientSocket.resolved_generic resolved
    rw [is]
    trivial
  exact written

theorem receive (of : OfClient client) {message : Received} {invocation : Option Invocation}
    (run : client.receive message = some (.ok (next, invocation))) : OfClient next := by
  cases message with
  | handshakeBegin versions => cases run; exact of.sendMessage _ none trivial
  | handshakeProtocols protocols =>
      cases run
      obtain ⟨specs, error, isOpen, same, -⟩ := client.addServerSpecs_eq protocols
      rw [CClientSocket.takeServerSpecs, same]
      exact of
  | newObject seq id =>
      cases run
      rw [CClientSocket.onSeq]
      split
      · exact of
      · exact of
  | generic msg =>
      obtain ⟨same, -⟩ := CClientSocket.onGeneric_eq_ok run
      rw [same]
      exact of
  | fatalError objectId errorId errorMsg => cases run; exact of
  | roundtripDone seq => cases run; exact of
  | hello => cases run; exact of
  | handshakeAck version => cases run; exact of
  | bindProtocol protocol seq version => cases run; exact of
  | roundtripRequest seq => cases run; exact of

/-- **An act of the client sends messages of a client.** -/
theorem act (of : OfClient client) {impls : Impls} {act : Act}
    (acts : client.act impls act = some (.ok next)) : OfClient next := by
  cases act with
  | call index id args =>
      obtain ⟨⟨result, _⟩, called, rfl⟩ := map_eq_ok.mp (Option.some.inj acts)
      exact of.call called
  | listen index id fn =>
      obtain ⟨object, -, rest⟩ := bind_eq_ok.mp (Option.some.inj acts)
      cases rest
      exact of
  | bindProtocol spec version =>
      obtain ⟨⟨object, _⟩, bound, rfl⟩ := map_eq_ok.mp (Option.some.inj acts)
      exact of.bindProtocol bound
  | roundtrip =>
      cases acts
      rw [CClientSocket.roundtrip]
      split
      · exact of
      · exact sendMessage (by exact of) _ none trivial
  | receive message =>
      obtain ⟨received, run, rest⟩ := Option.map_eq_some_iff.mp acts
      obtain ⟨⟨_, invocation⟩, rfl, rfl⟩ := map_eq_ok.mp rest
      exact of.receive run
  | refuse => cases acts; exact of
  | flushPending => cases acts; exact of.flushPending
  | disconnectOnError => cases acts; exact of

end OfClient

end Hyprwire.Client

namespace Hyprwire.Link

open Cpp Wire Object Client Server

variable {α β : Type} {peers : Peers α β} {memory : α} {memory' : β} {w : Sockets α β}

end Hyprwire.Link
