import Hyprwire.Server.Acts
import Hyprwire.Server.Roundtrips

/-!
# The handshake

The server answers `SUP` and `HANDSHAKE_ACK` and remembers that they came, but looks at
what it remembers nowhere. `Shakes` says what messages do to the replies, to
`m_firstPollDone` and to `m_version`, and `handshake_followed` what these are at any moment
of any run: they follow from the messages that were handled, in whatever order the client
has sent them. `bound_before_handshake` is a protocol bound by the first message of a
client.
-/

set_option autoImplicit false

namespace Hyprwire.Server

open Cpp Wire Object

/-! ## Replies -/

/-- The messages of the handshake that a server sends. -/
def IsReply : Message → Bool
  | .handshakeBegin _ => true
  | .handshakeProtocols _ => true
  | _ => false

/-- The replies among what has been sent. -/
def replies (sent : List Message) : List Message := sent.filter IsReply

theorem replies_other {sent : List Message} {message : Message} (other : IsReply message = false) :
    replies (sent ++ [message]) = replies sent := by
  rw [replies, List.filter_append, List.filter_singleton, other]
  exact List.append_nil _

/-- The reply to a message. -/
def replyTo (impls : Impls) : Received → Option Message
  | .hello => some (.handshakeBegin [protocolVer])
  | .handshakeAck _ => some (.handshakeProtocols (impls.map CServerClient.advertised))
  | _ => none

/-- The version of an acknowledgement. -/
def ackOf : Received → Option UInt32
  | .handshakeAck version => some version
  | _ => none

/-- The version of the last acknowledgement, or the one before. -/
def acked (before : UInt32) (handled : List Received) : UInt32 :=
  (handled.filterMap ackOf).getLastD before

theorem acked_append (before : UInt32) (first second : List Received) :
    acked before (first ++ second) = acked (acked before first) second := by
  simp only [acked, List.filterMap_append]
  cases second.filterMap ackOf with
  | nil => simp
  | cons version rest => simp [List.getLastD_eq_getLast?, List.getLast?_append]

/-- What some messages do to the replies, and to what is remembered of the handshake. -/
structure Shakes (impls : Impls) (client : CServerClient) (messages : List Received)
    (next : CServerClient) : Prop where
  replies : replies next.sent = replies client.sent ++ messages.filterMap (replyTo impls)
  polled : next.firstPollDone = true ↔ client.firstPollDone = true ∨ .hello ∈ messages
  version : next.version = acked client.version messages

namespace Shakes

variable {impls : Impls} {client next last : CServerClient} {first second : List Received}

/-- Nothing of the handshake is done. -/
theorem still (sent : Server.replies next.sent = Server.replies client.sent)
    (polled : next.firstPollDone = client.firstPollDone)
    (version : next.version = client.version) : Shakes impls client [] next where
  replies := by rw [sent, List.filterMap_nil, List.append_nil]
  polled := by rw [polled, or_iff_left List.not_mem_nil]
  version := version

theorem refl (client : CServerClient) : Shakes impls client [] client := still rfl rfl rfl

theorem trans (one : Shakes impls client first next) (two : Shakes impls next second last) :
    Shakes impls client (first ++ second) last where
  replies := by rw [two.replies, one.replies, List.filterMap_append, List.append_assoc]
  polled := by rw [two.polled, one.polled, List.mem_append, or_assoc]
  version := by rw [two.version, one.version, acked_append]

/-- A message that is no reply is sent. -/
theorem sendMessage {message : Message} (other : IsReply message = false) :
    Shakes impls client [] (client.sendMessage message) :=
  still (replies_other other) rfl rfl

theorem setError (client : CServerClient) : Shakes impls client [] client.setError :=
  still rfl rfl rfl

theorem listObject (client : CServerClient) (object : IWireObject) :
    Shakes impls client [] (client.listObject object) :=
  still rfl rfl rfl

theorem raise (client : CServerClient) (object : IWireObject) (id : UInt32) (message : Str) :
    Shakes impls client [] (client.raise object id message) :=
  (sendMessage rfl).trans (setError _)

theorem createObject (impls impls' : Impls) (protocol object : Str) (version seq : UInt32)
    (client : CServerClient) :
    Shakes impls client []
      (CServerClient.createObject impls' protocol object version seq client).2 := by
  simp only [CServerClient.createObject]
  split
  · exact (listObject client _).trans (setError _)
  · split
    · exact (listObject client _).trans (setError _)
    · split
      · exact (listObject client _).trans (setError _)
      · exact (listObject client _).trans (sendMessage rfl)

theorem call {index : Nat} {id result : UInt32} {args : List Arg}
    (run : client.call index id args = .ok (result, next)) : Shakes impls client [] next := by
  obtain ⟨object, -, rest⟩ := bind_eq_ok.mp run
  obtain ⟨spec, -, rest⟩ := bind_eq_ok.mp rest
  obtain ⟨⟨outcome, seq⟩, -, rest⟩ := bind_eq_ok.mp rest
  cases outcome with
  | error message => cases rest; exact raise _ _ _ _
  | errd => cases rest; exact setError _
  | send msg returned => cases rest; exact sendMessage rfl
  | defer msg returned => cases rest; exact sendMessage rfl

theorem outcome (client : CServerClient) (index : Nat) (object : IWireObject) (outcome : Outcome) :
    Shakes impls client [] (client.outcome index object outcome).1 := by
  cases outcome with
  | ignored => exact refl client
  | error message => exact raise client _ _ _
  | errd => exact setError client
  | invoke fn types values => exact refl client

theorem onGeneric {msg : CGenericProtocolMessage} {invocation : Option Invocation}
    (run : client.onGeneric msg = some (.ok (next, invocation))) :
    Shakes impls client [] next := by
  simp only [CServerClient.onGeneric] at run
  split at run
  · cases run
    exact refl client
  · split at run
    · cases run
    · split at run
      · cases run
      · obtain ⟨result, -, rest⟩ := Option.map_eq_some_iff.mp run
        obtain ⟨outcome, -, same⟩ := map_eq_ok.mp rest
        obtain rfl : _ = next := congrArg Prod.fst same
        exact Shakes.outcome client _ _ _

end Shakes

/-- A message that is received. -/
theorem receive_shakes {impls : Impls} {client next : CServerClient} {message : Received}
    {invocation : Option Invocation}
    (run : client.receive impls message = some (.ok (next, invocation))) :
    Shakes impls client [message] next := by
  have other : replyTo impls message = none → ackOf message = none → message ≠ .hello →
      Shakes impls client [] next → Shakes impls client [message] next := by
    intro noReply noAck notHello still
    refine ⟨?_, ?_, ?_⟩
    · rw [still.replies, List.filterMap_cons_none noReply]
    · rw [still.polled, List.mem_singleton, eq_comm (a := Received.hello)]
      simp [notHello]
    · rw [still.version, acked, acked, List.filterMap_cons_none noAck]
  cases message with
  | hello =>
      cases run
      refine ⟨List.filter_append _ _, ?_, rfl⟩
      exact iff_of_true rfl (.inr (List.mem_singleton.mpr rfl))
  | handshakeAck version =>
      cases run
      refine ⟨List.filter_append _ _, ?_, rfl⟩
      exact (or_iff_left (by simp)).symm
  | bindProtocol protocol seq version =>
      cases run
      exact other rfl rfl nofun (.createObject _ _ _ _ _ _ _)
  | generic msg => exact other rfl rfl nofun (.onGeneric run)
  | roundtripRequest seq => cases run; exact other rfl rfl nofun (.still rfl rfl rfl)
  | handshakeBegin versions => cases run; exact other rfl rfl nofun (.refl _)
  | handshakeProtocols protocols => cases run; exact other rfl rfl nofun (.refl _)
  | newObject seq id => cases run; exact other rfl rfl nofun (.refl _)
  | fatalError objectId errorId errorMsg => cases run; exact other rfl rfl nofun (.refl _)
  | roundtripDone seq => cases run; exact other rfl rfl nofun (.refl _)

/-- **What an act does to the handshake.** Only the receipt of a message does anything. -/
theorem act_shakes {impls : Impls} {client next : CServerClient} {act : Act}
    (acts : client.act impls act = some (.ok next)) :
    Shakes impls client (receivedIn [⟨act, client, next⟩]) next := by
  cases act with
  | createObject protocol object version seq => cases acts; exact .createObject _ _ _ _ _ _ _
  | call object id args =>
      obtain ⟨⟨result, _⟩, called, rfl⟩ := map_eq_ok.mp (Option.some.inj acts)
      exact .call called
  | error object id message =>
      obtain ⟨object, -, rest⟩ := bind_eq_ok.mp (Option.some.inj acts)
      cases rest
      exact .raise _ _ _ _
  | listen object id fn =>
      obtain ⟨object, -, rest⟩ := bind_eq_ok.mp (Option.some.inj acts)
      cases rest
      exact .still rfl rfl rfl
  | receive message =>
      obtain ⟨received, run, rest⟩ := Option.map_eq_some_iff.mp acts
      obtain ⟨⟨_, invocation⟩, rfl, rfl⟩ := map_eq_ok.mp rest
      exact receive_shakes run
  | refuse => cases acts; exact .setError _
  | answer =>
      cases acts
      rw [CServerClient.answer]
      split
      · exact .still (replies_other rfl) rfl rfl
      · exact .refl _
  | fail message => cases acts; exact (Shakes.sendMessage rfl).trans (.setError _)

/-- **What a trace does to the handshake.** -/
theorem Trace.shakes {impls : Impls} {client last : CServerClient} {trace : List Performed}
    (performed : Trace impls client trace last) : Shakes impls client (receivedIn trace) last := by
  induction performed with
  | nil => exact .refl _
  | @cons client next last act rest acts _ ih =>
      have both := (act_shakes acts).trans ih
      rwa [← receivedIn_append] at both

/-! ## Moments -/

variable {α : Type}

/-- A moment of a run, with the messages that were handled before it: between two batches,
or between two messages of one. -/
inductive Moment (cfg : Config α) (s : ServerState α) : List Received → ServerState α → Prop
  | between {batches : List (List Received)} {t : ServerState α} (run : Run cfg s batches t) :
      Moment cfg s batches.flatten t
  | within {batches : List (List Received)} {t : ServerState α} {raw : SSocketRawParsedMessage}
      {p : ParseState (ServerState α)} (run : Run cfg s batches t)
      (reaches : Reaches (parseTurn (receiver cfg) raw.data) (firstMessage raw t) p) :
      Moment cfg s (batches.flatten ++ p.handled) p.conn

/-- What a run has done to the handshake. -/
theorem Run.shakes {cfg : Config α} {s t : ServerState α} {batches : List (List Received)}
    (run : Run cfg s batches t) : Shakes cfg.impls s.client batches.flatten t.client := by
  induction run with
  | start => exact .refl _
  | dispatch _ dispatched ih =>
      obtain ⟨trace, performed, rfl, -⟩ := dispatchClient_trace dispatched
      rw [List.flatten_append, List.flatten_singleton]
      exact ih.trans performed.shakes
  | application _ ran ih =>
      obtain ⟨trace, own, performed⟩ := runCode_asked cfg _ _ _ ran
      have still := performed.shakes
      rw [receivedIn_application own] at still
      have both := ih.trans still
      rwa [List.append_nil] at both

theorem Moment.shakes {cfg : Config α} {s t : ServerState α} {handled : List Received}
    (moment : Moment cfg s handled t) : Shakes cfg.impls s.client handled t.client := by
  cases moment with
  | between run => exact run.shakes
  | within run reaches =>
      obtain ⟨trace, performed, all, -⟩ := parseTurn_trace reaches
      rw [all]
      exact run.shakes.trans performed.shakes

/-! ## Refused messages -/

/-- The messages that a client may send. -/
def fromClient : List EMessageType :=
  [.sup, .handshakeAck, .bindProtocol, .genericProtocolMessage, .roundtripRequest]

/-- The bytes that come next in a batch are no message that a client may send. -/
def RefusedNext (data : View) (p : ParseState (ServerState α)) : Prop :=
  p.needle < data.size ∧ p.conn.client.error = false ∧ ∃ byte,
    data.checkedAt p.needle = .ok byte ∧ ∀ type ∈ fromClient, EMessageType.ofByte byte ≠ some type

theorem parseServer_refused {heap : Heap} {data : View} {fds : List Fd} {off : Nat} {byte : UInt8}
    (read : data.checkedAt off = .ok byte)
    (other : ∀ type ∈ fromClient, EMessageType.ofByte byte ≠ some type) :
    parseServer heap data fds off = some (.ok (.invalid, fds)) := by
  simp only [parseServer, read]
  cases known : EMessageType.ofByte byte with
  | none => rfl
  | some type =>
      rw [known] at other
      cases type with
      | sup => exact absurd rfl (other .sup (by decide))
      | handshakeAck => exact absurd rfl (other .handshakeAck (by decide))
      | bindProtocol => exact absurd rfl (other .bindProtocol (by decide))
      | roundtripRequest => exact absurd rfl (other .roundtripRequest (by decide))
      | genericProtocolMessage => exact absurd rfl (other .genericProtocolMessage (by decide))
      | _ => rfl

/-- A dispatch that comes to such a message ends there, with an error. -/
theorem dispatchClient_refused {cfg : Config α} {turns : Nat} {raw : SSocketRawParsedMessage}
    {s t : ServerState α} {handled : List Received} {p : ParseState (ServerState α)}
    (reaches : Reaches (parseTurn (receiver cfg) raw.data) (firstMessage raw s) p)
    (refused : RefusedNext raw.data p)
    (dispatched : dispatchClient cfg turns (some raw) s = some (.ok (t, handled))) :
    handled = p.handled ∧ t.client.error = true := by
  obtain ⟨inside, clean, byte, read, other⟩ := refused
  have bytes : raw.data.size ≠ 0 := Nat.ne_of_gt (Nat.zero_lt_of_lt inside)
  obtain ⟨h, run, rfl, rfl⟩ := (dispatchClient_eq_ok bytes).mp dispatched
  have invalid : (receiver cfg).parse raw.data p.fds p.needle = some (.ok (.invalid, p.fds)) :=
    parseServer_refused read other
  have leaves : parseTurn (receiver cfg) raw.data p = some (.leave
      (.ok ⟨.parsedError, { p.conn with client := p.conn.client.setError }, p.handled⟩)) := by
    have going : p.needle < raw.data.size ∧ ¬ (receiver cfg).stops p.conn = true := by
      refine ⟨inside, ?_⟩
      rw [show (receiver cfg).stops p.conn = p.conn.client.error from rfl, clean]
      exact Bool.false_ne_true
    simp only [parseTurn, if_pos going, invalid]
    rfl
  cases Exits.unique ⟨turns, run⟩ (exits_iff.mpr ⟨p, reaches, leaves⟩)
  exact ⟨rfl, rfl⟩

/-! ## The documented order -/

/-- The messages come in the documented order: `SUP`, the acknowledgement of the version
that was offered, and then no more of the handshake. -/
def InOrder : List Received → Prop
  | [] => True
  | [first] => first = .hello
  | first :: second :: rest =>
      first = .hello ∧ second = .handshakeAck protocolVer ∧
        ∀ message ∈ rest, message ≠ .hello ∧ ackOf message = none

/-- A message that is acted on for the protocols. -/
def Regular (message : Received) : Prop :=
  message.type = .bindProtocol ∨ message.type = .genericProtocolMessage

/-- When the order is kept, the handshake is complete before a protocol is used. -/
theorem InOrder.complete {impls : Impls} {handled : List Received} (order : InOrder handled)
    {message : Received} (member : message ∈ handled) (regular : Regular message) :
    acked 0 handled = protocolVer ∧ .hello ∈ handled ∧
      handled.filterMap (replyTo impls) = [.handshakeBegin [protocolVer],
        .handshakeProtocols (impls.map CServerClient.advertised)] := by
  match handled, order with
  | [], _ => exact absurd member List.not_mem_nil
  | [first], first_ =>
      obtain rfl : first = .hello := first_
      rw [List.mem_singleton.mp member] at regular
      exact absurd regular (by simp [Regular, Received.type])
  | first :: second :: rest, ⟨first_, second_, others⟩ =>
      subst first_ second_
      have noAcks : rest.filterMap ackOf = [] :=
        List.filterMap_eq_nil_iff.mpr fun message later => (others message later).2
      have noReplies : rest.filterMap (replyTo impls) = [] := by
        refine List.filterMap_eq_nil_iff.mpr fun message later => ?_
        obtain ⟨notHello, notAck⟩ := others message later
        cases message with
        | hello => exact absurd rfl notHello
        | handshakeAck version => cases notAck
        | _ => rfl
      refine ⟨?_, List.mem_cons_self, ?_⟩
      · simp only [acked, List.filterMap_cons, ackOf, noAcks]
        rfl
      · simp only [List.filterMap_cons, replyTo, noReplies]

/-- **The server follows the messages it handles.** At any moment of any run each `SUP` has
been answered with `HANDSHAKE_BEGIN` and each acknowledgement with `HANDSHAKE_PROTOCOLS`, in
their order, and `m_version` is the version that was acknowledged last. No order is asked
for: when the client keeps the documented one, the handshake is complete before a protocol
is used. A message that no client may send puts the client into error wherever it comes. -/
theorem handshake_followed {cfg : Config α} {memory : α} {handled : List Received}
    {t : ServerState α} (moment : Moment cfg (.fresh memory) handled t) :
    replies t.client.sent = handled.filterMap (replyTo cfg.impls) ∧
      (t.client.firstPollDone = true ↔ .hello ∈ handled) ∧
      t.client.version = acked 0 handled ∧
      (InOrder handled → (∃ message ∈ handled, Regular message) →
        t.client.version = protocolVer ∧ t.client.firstPollDone = true ∧
          replies t.client.sent = [.handshakeBegin [protocolVer],
            .handshakeProtocols (cfg.impls.map CServerClient.advertised)]) ∧
      ∀ (raw : SSocketRawParsedMessage) (p : ParseState (ServerState α)) (turns : Nat)
        (u : ServerState α) (batch : List Received),
        Reaches (parseTurn (receiver cfg) raw.data) (firstMessage raw t) p →
        RefusedNext raw.data p → dispatchClient cfg turns (some raw) t = some (.ok (u, batch)) →
        batch = p.handled ∧ u.client.error = true := by
  obtain ⟨replied, polled, version⟩ := moment.shakes
  have sent : replies t.client.sent = handled.filterMap (replyTo cfg.impls) := replied
  have hello : t.client.firstPollDone = true ↔ .hello ∈ handled := by
    rw [polled]
    exact or_iff_right Bool.false_ne_true
  refine ⟨sent, hello, version, ?_, ?_⟩
  · rintro order ⟨message, member, regular⟩
    obtain ⟨last, first, both⟩ := @InOrder.complete cfg.impls _ order _ member regular
    exact ⟨version.trans last, hello.mpr first, sent.trans both⟩
  · intro raw p turns u batch reaches refused dispatched
    exact dispatchClient_refused reaches refused dispatched

/-- A server that offers one protocol, called `a`. -/
def offering : Config Unit where
  impls := [{
    protocol := { specName := [0x61], specVer := 1, objects := [⟨[0x6f], [], []⟩] },
    implementation := [] }]
  heap := .ample
  app := { onBind := fun _ _ => .done, listener := fun _ _ _ => .done }
  frames := 1

/-- The messages of a client that binds the protocol after the handshake. -/
def connecting : List Message :=
  [.hello, .handshakeAck protocolVer, .bindProtocol [0x61] 1 1]

/-- The handshake of a client that keeps the order. -/
theorem handshake_followed_connecting :
    ∃ (batch : List Received) (t : ServerState Unit),
      Moment offering (.fresh ()) [batch].flatten t ∧ t.client.version = protocolVer ∧
        replies t.client.sent = [.handshakeBegin [protocolVer],
          .handshakeProtocols (offering.impls.map CServerClient.advertised)] := by
  have dispatched :
      dispatchClient offering 4 (some (reading (connecting.flatMap Message.data) (by decide)))
        (.fresh ()) =
      some (.ok (⟨{
        firstPollDone := true, version := 1, maxId := 2,
        objects := [{ id := 1, version := 1, spec := some ⟨[0x6f], [], []⟩, protocolName := [0x61] }],
        sent := [.handshakeBegin [protocolVer],
          .handshakeProtocols (offering.impls.map CServerClient.advertised), .newObject 1 1] }, ()⟩,
        [.hello, .handshakeAck 1, .bindProtocol [0x61] 1 1])) := by
    rfl
  have moment := Moment.between (.dispatch .start dispatched)
  obtain ⟨-, -, -, complete, -⟩ := handshake_followed moment
  obtain ⟨version, -, replied⟩ := complete ⟨rfl, rfl, by simp [ackOf]⟩
    ⟨.bindProtocol [0x61] 1 1, by simp, .inl rfl⟩
  exact ⟨_, _, moment, version, replied⟩

/-- The first message of a client binds a protocol, and no handshake has been made. -/
theorem bound_before_handshake :
    ∃ (batch : List Received) (t : ServerState Unit),
      Moment offering (.fresh ()) [batch].flatten t ∧ batch = [.bindProtocol [0x61] 1 1] ∧
        t.client.error = false ∧ (∃ object ∈ t.client.objects, object.spec.isSome) ∧
        t.client.firstPollDone = false ∧ t.client.version = 0 ∧ replies t.client.sent = [] := by
  have dispatched :
      dispatchClient offering 2 (some (reading (CBindProtocolMessage.encode [0x61] 1 1) (by decide)))
        (.fresh ()) =
      some (.ok (⟨{
        maxId := 2,
        objects := [{ id := 1, version := 1, spec := some ⟨[0x6f], [], []⟩, protocolName := [0x61] }],
        sent := [.newObject 1 1] }, ()⟩, [.bindProtocol [0x61] 1 1])) := by
    rfl
  exact ⟨_, _, .between (.dispatch .start dispatched), rfl, rfl, by simp, rfl, rfl, rfl⟩

end Hyprwire.Server
