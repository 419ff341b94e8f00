import Hyprwire.Client.Deferred
import Hyprwire.Server.Acts
import Hyprwire.Tracing.Sent

/-!
# What the ends send

Every message that an end has sent is one of its constructors' or that of a call
(`Sendable`). On the server an act adds such messages only (`Server.act_sendable`). On the
client the calls that wait have to be looked at too (`Client.Composed`), since the flush
sends them later on (`Composed.act`).
-/

set_option autoImplicit false

namespace Hyprwire.Tracing

open Cpp Wire Object

/-- A message that an end sends. -/
def Sendable (message : Message) : Prop := ∃ headers, IsSent message headers

/-- A message with the bytes and the descriptors of a call. -/
def FromCall (msg : CGenericProtocolMessage) : Prop :=
  ∃ (object : IWireObject) (id : UInt32) (seq : Option UInt32) (method : SMethod)
    (args : List Arg) (made : CGenericProtocolMessage),
    callMessage object id seq method args = .ok (some made) ∧ msg.data = made.data ∧
      msg.fds = made.fds

namespace FromCall

variable {msg : CGenericProtocolMessage}

theorem sendable (called : FromCall msg) : Sendable (.generic msg.data msg.fds) := by
  obtain ⟨object, id, seq, method, args, made, message, data, fds⟩ := called
  rw [data, fds]
  exact ⟨_, .call object id seq method args made message⟩

theorem resolved (called : FromCall msg) (name : UInt32) :
    Sendable (.generic (msg.resolveSeq name).data (msg.resolveSeq name).fds) := by
  obtain ⟨object, id, seq, method, args, made, message, data, fds⟩ := called
  have same : (msg.resolveSeq name).data = (made.resolveSeq name).data := by
    rw [CGenericProtocolMessage.resolveSeq, CGenericProtocolMessage.resolveSeq, data]
  have same' : (msg.resolveSeq name).fds = made.fds := fds
  rw [same, same']
  exact ⟨_, .resolved object id seq method args made message name⟩

end FromCall

/-- The message of a call, if it comes to one. -/
def OutcomeFromCall : CallOutcome → Prop
  | .send msg _ | .defer msg _ => FromCall msg
  | _ => True

theorem call_fromCall {object : IWireObject} {server : Bool} {methods : List SMethod}
    {seq seq' id : UInt32} {args : List Arg} {outcome : CallOutcome}
    (made : object.call server methods seq id args = .ok (outcome, seq')) :
    OutcomeFromCall outcome := by
  simp only [IWireObject.call] at made
  split at made
  · cases made
    trivial
  · next method checked =>
    obtain ⟨result, run, rest⟩ := bind_eq_ok.mp made
    cases result with
    | none =>
        cases rest
        trivial
    | some msg =>
        simp only at rest
        split at rest
        · cases rest
          exact ⟨object, id, _, method, args, msg, run, rfl, rfl⟩
        · cases rest
          exact ⟨object, id, _, method, args, msg, run, rfl, rfl⟩

end Hyprwire.Tracing

namespace Hyprwire.Server

open Cpp Wire Object Tracing

/-! ## The server -/

/-- Messages that an end sends have been added. -/
def Adds (client next : CServerClient) : Prop :=
  ∃ new, next.sent = client.sent ++ new ∧ ∀ message ∈ new, Sendable message

namespace Adds

variable {client next : CServerClient}

theorem nothing (sent : next.sent = client.sent) : Adds client next :=
  ⟨[], by rw [sent, List.append_nil], fun _ none => absurd none List.not_mem_nil⟩

theorem one {message : Message} {headers : List LengthHeader} (is : IsSent message headers)
    (sent : next.sent = client.sent ++ [message]) : Adds client next :=
  ⟨[message], sent, List.forall_mem_singleton.mpr ⟨headers, is⟩⟩

theorem createObject (impls : Impls) (protocol object : Str) (version seq : UInt32)
    (client : CServerClient) :
    Adds client (CServerClient.createObject impls protocol object version seq client).2 := by
  simp only [CServerClient.createObject]
  split
  · exact nothing rfl
  · split
    · exact nothing rfl
    · split
      · exact nothing rfl
      · exact one (.newObject seq client.maxId) rfl

theorem call {index : Nat} {id result : UInt32} {args : List Arg}
    (run : client.call index id args = .ok (result, next)) : Adds client next := by
  obtain ⟨object, -, rest⟩ := bind_eq_ok.mp run
  obtain ⟨spec, -, rest⟩ := bind_eq_ok.mp rest
  obtain ⟨⟨outcome, seq⟩, made, rest⟩ := bind_eq_ok.mp rest
  have called := call_fromCall made
  cases outcome with
  | error message => cases rest; exact one (.fatalError _ _ _) rfl
  | errd => cases rest; exact nothing rfl
  | send msg returned =>
      cases rest
      exact ⟨_, rfl, List.forall_mem_singleton.mpr called.sendable⟩
  | defer msg returned =>
      cases rest
      exact ⟨_, rfl, List.forall_mem_singleton.mpr called.sendable⟩

theorem raiseAt {index : Nat} {id : UInt32} {message : Str}
    (run : client.raiseAt index id message = .ok next) : Adds client next := by
  obtain ⟨object, -, rest⟩ := bind_eq_ok.mp run
  cases rest
  exact one (.fatalError _ _ _) rfl

theorem listen {index : Nat} {id : UInt32} {fn : Option Callback}
    (run : client.listen index id fn = .ok next) : Adds client next := by
  obtain ⟨object, -, rest⟩ := bind_eq_ok.mp run
  cases rest
  exact nothing rfl

theorem outcome (client : CServerClient) (index : Nat) (object : IWireObject) (outcome : Outcome) :
    Adds client (client.outcome index object outcome).1 := by
  cases outcome with
  | ignored => exact nothing rfl
  | error message => exact one (.fatalError _ _ _) rfl
  | errd => exact nothing rfl
  | invoke fn types values => exact nothing rfl

theorem onGeneric {msg : CGenericProtocolMessage} {invocation : Option Invocation}
    (run : client.onGeneric msg = some (.ok (next, invocation))) : Adds client next := by
  simp only [CServerClient.onGeneric] at run
  split at run
  · cases run
    exact nothing rfl
  · split at run
    · cases run
    · split at run
      · cases run
      · obtain ⟨result, -, rest⟩ := Option.map_eq_some_iff.mp run
        obtain ⟨outcome, -, same⟩ := map_eq_ok.mp rest
        obtain rfl : _ = next := congrArg Prod.fst same
        exact Adds.outcome client _ _ _

theorem receive {impls : Impls} {message : Received} {invocation : Option Invocation}
    (run : client.receive impls message = some (.ok (next, invocation))) : Adds client next := by
  cases message with
  | hello => cases run; exact one (.handshakeBegin _) rfl
  | handshakeAck version => cases run; exact one (.handshakeProtocols _) rfl
  | bindProtocol protocol seq version => cases run; exact createObject _ _ _ _ _ _
  | generic msg => exact onGeneric run
  | roundtripRequest seq => cases run; exact nothing rfl
  | handshakeBegin versions => cases run; exact nothing rfl
  | handshakeProtocols protocols => cases run; exact nothing rfl
  | newObject seq id => cases run; exact nothing rfl
  | fatalError objectId errorId errorMsg => cases run; exact nothing rfl
  | roundtripDone seq => cases run; exact nothing rfl

end Adds

/-- **What an act of the server sends.** -/
theorem act_adds {impls : Impls} {client next : CServerClient} {act : Act}
    (acts : client.act impls act = some (.ok next)) : Adds client next := by
  cases act with
  | createObject protocol object version seq => cases acts; exact .createObject _ _ _ _ _ _
  | call object id args =>
      obtain ⟨⟨result, _⟩, called, rfl⟩ := map_eq_ok.mp (Option.some.inj acts)
      exact .call called
  | error object id message => exact .raiseAt (Option.some.inj acts)
  | listen object id fn => exact .listen (Option.some.inj acts)
  | receive message =>
      obtain ⟨received, run, rest⟩ := Option.map_eq_some_iff.mp acts
      obtain ⟨⟨_, invocation⟩, rfl, rfl⟩ := map_eq_ok.mp rest
      exact .receive run
  | refuse => cases acts; exact .nothing rfl
  | answer =>
      cases acts
      rw [CServerClient.answer]
      split
      · exact .one (.roundtripDone _) rfl
      · exact .nothing rfl
  | fail message => cases acts; exact .one (.fatalError _ _ _) rfl

/-- **Every message that a server has sent is one that an end sends.** -/
theorem ActRun.sendable {impls : Impls} {start client : CServerClient}
    (run : ActRun impls start client) (first : ∀ message ∈ start.sent, Sendable message) :
    ∀ message ∈ client.sent, Sendable message := by
  induction run with
  | refl => exact first
  | step _ acts ih =>
      obtain ⟨new, sent, sendable⟩ := act_adds acts
      rw [sent]
      exact List.forall_mem_append.mpr ⟨ih, sendable⟩

end Hyprwire.Server

namespace Hyprwire.Client

open Cpp Wire Object Tracing

/-! ## The client -/

/-- What has been sent is what an end sends, and what waits was made by calls. -/
structure Composed (client : CClientSocket) : Prop where
  sent : ∀ sent ∈ client.sent, Sendable sent.message
  waits : ∀ pending ∈ client.pendingOutgoing, FromCall pending.msg

namespace Composed

variable {client next : CClientSocket}

theorem opened : Composed .opened where
  sent := List.forall_mem_singleton.mpr ⟨_, .hello⟩
  waits _ none := absurd none List.not_mem_nil

theorem of_fields (composed : Composed client) (sent : next.sent = client.sent)
    (waits : next.pendingOutgoing = client.pendingOutgoing) : Composed next :=
  ⟨sent ▸ composed.sent, waits ▸ composed.waits⟩

theorem write (composed : Composed client) {messages : List Sent}
    (sendable : ∀ sent ∈ messages, Sendable sent.message) : Composed (client.write messages) := by
  rw [CClientSocket.write]
  split
  · exact ⟨List.forall_mem_append.mpr ⟨composed.sent, sendable⟩, composed.waits⟩
  · exact composed

theorem sendMessage (composed : Composed client) {message : Message} (origin : Option Origin)
    (sendable : Sendable message) : Composed (client.sendMessage message origin) :=
  composed.write (List.forall_mem_singleton.mpr sendable)

theorem defer (composed : Composed client) (index : Nat) {msg : CGenericProtocolMessage}
    (called : FromCall msg) : Composed (client.defer index msg) where
  sent := composed.sent
  waits := List.forall_mem_append.mpr ⟨composed.waits, List.forall_mem_singleton.mpr called⟩

theorem returned (composed : Composed client) (impls : Impls) (object : IWireObject)
    (kind : Option (UInt32 × Str)) : Composed (CClientSocket.returned impls object client kind).2 := by
  cases kind with
  | none => exact composed
  | some kind =>
      rw [CClientSocket.returned, CClientSocket.makeObject]
      split
      · exact composed
      · exact composed.of_fields rfl rfl

theorem call (composed : Composed client) {impls : Impls} {index : Nat} {id result : UInt32}
    {args : List Arg} (run : client.call impls index id args = .ok (result, next)) :
    Composed next := by
  obtain ⟨object, spec, outcome, seq, -, -, made, after⟩ := CClientSocket.call_eq_ok.mp run
  obtain rfl : next = _ := congrArg Prod.snd after
  have counted : Composed { client with seq } := composed.of_fields rfl rfl
  have called := call_fromCall made
  cases outcome with
  | error message => exact counted
  | errd => exact counted.of_fields rfl rfl
  | defer msg kind => exact (counted.defer index called).returned impls object kind
  | send msg kind =>
      have direct : Composed ({ client with seq }.direct index msg) :=
        (counted.sendMessage (some ⟨index, client.made⟩) called.sendable).of_fields rfl rfl
      exact direct.returned impls object kind

theorem bindProtocol (composed : Composed client) {spec : IProtocolSpec} {version : UInt32}
    {object : Option Nat} (run : client.bindProtocol spec version = .ok (object, next)) :
    Composed next := by
  simp only [CClientSocket.bindProtocol] at run
  split at run
  · cases run
    exact composed.of_fields rfl rfl
  · split at run
    · cases run
    · cases run
      refine Composed.sendMessage ?_ none ⟨_, .bindProtocol _ _ _⟩
      exact composed.of_fields rfl rfl

theorem roundtrip (composed : Composed client) : Composed client.roundtrip := by
  rw [CClientSocket.roundtrip]
  split
  · exact composed
  · have counted : Composed
        { client with lastSentRoundtripSeq := client.lastSentRoundtripSeq + 1 } :=
      composed.of_fields rfl rfl
    exact counted.sendMessage none ⟨_, .roundtripRequest _⟩

theorem flushPending (composed : Composed client) : Composed client.flushPending := by
  rw [CClientSocket.flushPending_eq]
  have written : Composed (client.write (client.pendingOutgoing.filterMap client.resolved)) := by
    refine composed.write fun sent listed => ?_
    obtain ⟨pending, waits, resolved⟩ := List.mem_filterMap.mp listed
    have called := composed.waits pending waits
    simp only [CClientSocket.resolved, CClientSocket.waiting] at resolved
    split at resolved
    · next message found =>
      cases resolved
      split at found
      · cases found
      · split at found
        · cases found
        · cases found
          exact called.resolved _
    · cases resolved
  exact ⟨written.sent, fun pending kept => composed.waits pending (List.mem_filter.mp kept).1⟩

theorem receive (composed : Composed client) {message : Received} {invocation : Option Invocation}
    (run : client.receive message = some (.ok (next, invocation))) : Composed next := by
  cases message with
  | handshakeBegin versions => cases run; exact composed.sendMessage none ⟨_, .handshakeAck _⟩
  | handshakeProtocols protocols =>
      cases run
      obtain ⟨specs, error, isOpen, same, -⟩ := client.addServerSpecs_eq protocols
      rw [CClientSocket.takeServerSpecs, same]
      exact composed.of_fields rfl rfl
  | newObject seq id =>
      cases run
      rw [CClientSocket.onSeq]
      split
      · exact composed
      · exact composed.of_fields rfl rfl
  | generic msg =>
      obtain ⟨same, -⟩ := CClientSocket.onGeneric_eq_ok run
      rw [same]
      exact composed.of_fields rfl rfl
  | fatalError objectId errorId errorMsg => cases run; exact composed.of_fields rfl rfl
  | roundtripDone seq => cases run; exact composed.of_fields rfl rfl
  | hello => cases run; exact composed
  | handshakeAck version => cases run; exact composed
  | bindProtocol protocol seq version => cases run; exact composed
  | roundtripRequest seq => cases run; exact composed

/-- **What an act of the client sends.** -/
theorem act (composed : Composed client) {impls : Impls} {act : Act}
    (acts : client.act impls act = some (.ok next)) : Composed next := by
  cases act with
  | call index id args =>
      obtain ⟨⟨result, _⟩, called, rfl⟩ := map_eq_ok.mp (Option.some.inj acts)
      exact composed.call called
  | listen index id fn =>
      obtain ⟨object, -, rest⟩ := bind_eq_ok.mp (Option.some.inj acts)
      cases rest
      exact composed.of_fields rfl rfl
  | bindProtocol spec version =>
      obtain ⟨⟨object, _⟩, bound, rfl⟩ := map_eq_ok.mp (Option.some.inj acts)
      exact composed.bindProtocol bound
  | roundtrip => cases acts; exact composed.roundtrip
  | receive message =>
      obtain ⟨received, run, rest⟩ := Option.map_eq_some_iff.mp acts
      obtain ⟨⟨_, invocation⟩, rfl, rfl⟩ := map_eq_ok.mp rest
      exact composed.receive run
  | refuse => cases acts; exact composed.of_fields rfl rfl
  | flushPending => cases acts; exact composed.flushPending
  | disconnectOnError => cases acts; exact composed.of_fields rfl rfl

/-- **Every message that a client has sent is one that an end sends.** -/
theorem run {impls : Impls} {allowed : CClientSocket → Act → Prop} {start : CClientSocket}
    (run : Run impls allowed start client) (first : Composed start) : Composed client :=
  run.invariant (fun _ _ _ _ acts composed => composed.act acts) first

end Composed

end Hyprwire.Client
