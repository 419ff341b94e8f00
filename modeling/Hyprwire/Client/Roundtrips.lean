import Hyprwire.Client.CallOrder

/-!
# Roundtrips on the client

A roundtrip is asked for with the next number of `m_lastSentRoundtripSeq`. `act_asks`
says what an act does to the requests and to the answers, and `Asking` what holds of
the requests on the wire as long as the counter does not wrap: they come in the order
of their numbers. `Kept` says that a call that has been made is on the wire or waits,
unless the connection is lost.
-/

set_option autoImplicit false

namespace Hyprwire.Client

open Cpp Wire Object

/-! ## Acts -/

/-- A message that starts with its code, and is not a request. -/
def Plain (message : Message) : Prop :=
  Tagged message ∧ ∀ seq, message ≠ .roundtripRequest seq

theorem plain_generic {data : List UInt8} {fds : List Fd}
    (head : data.head? = some EMessageType.genericProtocolMessage.code) :
    Plain (.generic data fds) :=
  ⟨head, by intro _ same; cases same⟩

/-- A message that waits starts with the code of generic messages. -/
def Headed (client : CClientSocket) : Prop :=
  ∀ pending ∈ client.pendingOutgoing,
    pending.msg.data.head? = some EMessageType.genericProtocolMessage.code

/-- A message that is flushed starts as it did before. -/
theorem Headed.resolved {client : CClientSocket} (headed : Headed client) {pending : Pending}
    {sent : Sent} (waits : pending ∈ client.pendingOutgoing)
    (resolved : client.resolved pending = some sent) : Plain sent.message := by
  simp only [CClientSocket.resolved, CClientSocket.waiting] at resolved
  split at resolved
  · next message found =>
    cases resolved
    split at found
    · cases found
    · split at found
      · cases found
      · cases found
        refine plain_generic ?_
        rw [CGenericProtocolMessage.resolveSeq]
        have head := headed pending waits
        split
        · cases bytes : pending.msg.data with
          | nil => rw [bytes] at head; cases head
          | cons byte rest => rw [bytes] at head; exact head
        · exact head
  · cases resolved

/-- No roundtrip is asked for and none is answered. An error stays, and a socket is
closed with an error. -/
structure Quiet (client next : CClientSocket) : Prop where
  counter : next.lastSentRoundtripSeq = client.lastSentRoundtripSeq
  ackd : next.lastAckdRoundtripSeq = client.lastAckdRoundtripSeq
  sends : ∃ new, next.sent = client.sent ++ new ∧ ∀ sent ∈ new, Plain sent.message
  errors : client.error = true → next.error = true
  closes : next.fdIsValid = false → client.fdIsValid = false ∨ next.error = true

namespace Quiet

variable {client next : CClientSocket}

theorem trans {first second third : CClientSocket} (one : Quiet first second)
    (two : Quiet second third) : Quiet first third where
  counter := two.counter.trans one.counter
  ackd := two.ackd.trans one.ackd
  sends := by
    obtain ⟨new, sent, plain⟩ := one.sends
    obtain ⟨new', sent', plain'⟩ := two.sends
    refine ⟨new ++ new', by rw [sent', sent, List.append_assoc], ?_⟩
    intro message either
    rcases List.mem_append.mp either with before | after
    · exact plain message before
    · exact plain' message after
  errors := two.errors ∘ one.errors
  closes := by
    intro closed
    rcases two.closes closed with before | error
    · exact (one.closes before).imp_right two.errors
    · exact .inr error

theorem of_fields (counter : next.lastSentRoundtripSeq = client.lastSentRoundtripSeq)
    (ackd : next.lastAckdRoundtripSeq = client.lastAckdRoundtripSeq)
    (sent : next.sent = client.sent) (isOpen : next.fdIsValid = client.fdIsValid)
    (errors : client.error = true → next.error = true) : Quiet client next where
  counter := counter
  ackd := ackd
  sends := ⟨[], sent.trans (List.append_nil _).symm, fun _ new => absurd new List.not_mem_nil⟩
  errors := errors
  closes := fun closed => .inl (isOpen ▸ closed)

theorem refl (client : CClientSocket) : Quiet client client := of_fields rfl rfl rfl rfl id

theorem disconnectOnError (client : CClientSocket) : Quiet client client.disconnectOnError where
  counter := rfl
  ackd := rfl
  sends := ⟨[], (List.append_nil _).symm, fun _ new => absurd new List.not_mem_nil⟩
  errors _ := rfl
  closes _ := .inr rfl

theorem write (client : CClientSocket) {messages : List Sent}
    (plain : ∀ sent ∈ messages, Plain sent.message) : Quiet client (client.write messages) := by
  rw [CClientSocket.write]
  split
  · exact ⟨rfl, rfl, ⟨messages, rfl, plain⟩, id, .inl⟩
  · exact refl client

theorem sendMessage (client : CClientSocket) (message : Message) (origin : Option Origin)
    (plain : Plain message) : Quiet client (client.sendMessage message origin) :=
  write client fun _ new => List.mem_singleton.mp new ▸ plain

theorem returned (impls : Impls) (object : IWireObject) (client : CClientSocket)
    (kind : Option (UInt32 × Str)) :
    Quiet client (CClientSocket.returned impls object client kind).2 := by
  cases kind with
  | none => exact refl client
  | some kind =>
      rw [CClientSocket.returned, CClientSocket.makeObject]
      split
      · exact refl client
      · exact of_fields rfl rfl rfl rfl id

theorem call {impls : Impls} {index : Nat} {id result : UInt32} {args : List Arg}
    (called : client.call impls index id args = .ok (result, next)) : Quiet client next := by
  obtain ⟨object, spec, outcome, seq, -, -, made, after⟩ := CClientSocket.call_eq_ok.mp called
  obtain rfl : next = _ := congrArg Prod.snd after
  have counted : Quiet client { client with seq } := of_fields rfl rfl rfl rfl fun set => set
  cases call_ends made with
  | error message => exact counted
  | errd method => exact of_fields rfl rfl rfl rfl fun _ => rfl
  | defer method msg head =>
      refine counted.trans (trans ?_ (returned impls object _ _))
      exact of_fields rfl rfl rfl rfl fun set => set
  | send method msg head =>
      refine counted.trans (trans ?_ (returned impls object _ _))
      exact trans (sendMessage _ _ _ (plain_generic head))
        (of_fields rfl rfl rfl rfl fun set => set)

theorem bindProtocol {spec : IProtocolSpec} {version : UInt32} {object : Option Nat}
    (run : client.bindProtocol spec version = .ok (object, next)) : Quiet client next := by
  simp only [CClientSocket.bindProtocol] at run
  split at run
  · cases run
    exact disconnectOnError client
  · split at run
    · cases run
    · cases run
      refine trans ?_ (sendMessage _ _ _ ⟨trivial, by intro _ same; cases same⟩)
      exact of_fields rfl rfl rfl rfl fun set => set

theorem listen {index : Nat} {id : UInt32} {fn : Option Callback}
    (run : client.listen index id fn = .ok next) : Quiet client next := by
  obtain ⟨object, -, rest⟩ := bind_eq_ok.mp run
  cases rest
  exact of_fields rfl rfl rfl rfl fun set => set

theorem takeServerSpecs (client : CClientSocket) (s : List Str) :
    Quiet client (client.takeServerSpecs s) := by
  obtain ⟨specs, error, isOpen, same, either⟩ := client.addServerSpecs_eq s
  rw [CClientSocket.takeServerSpecs, same]
  rcases either with ⟨rfl, rfl⟩ | rfl
  · exact of_fields rfl rfl rfl rfl fun set => set
  · exact ⟨rfl, rfl, ⟨[], (List.append_nil _).symm, fun _ new => absurd new List.not_mem_nil⟩,
      fun _ => rfl, fun _ => .inr rfl⟩

theorem flushPending {client : CClientSocket} (headed : Headed client) :
    Quiet client client.flushPending := by
  rw [CClientSocket.flushPending_eq]
  refine trans (write client ?_) (of_fields rfl rfl rfl rfl fun set => set)
  intro sent written
  obtain ⟨pending, waits, resolved⟩ := List.mem_filterMap.mp written
  exact headed.resolved waits resolved

end Quiet

/-! ## Errors stay -/

section Errors

variable {client next : CClientSocket}

theorem write_error (client : CClientSocket) (messages : List Sent) :
    (client.write messages).error = client.error := by
  rw [CClientSocket.write]
  split
  · rfl
  · rfl

theorem flushPending_error (client : CClientSocket) :
    client.flushPending.error = client.error := by
  rw [CClientSocket.flushPending_eq]
  exact write_error client _

theorem receive_error {message : Received} {invocation : Option Invocation}
    (run : client.receive message = some (.ok (next, invocation))) (error : client.error = true) :
    next.error = true := by
  cases message with
  | handshakeBegin versions =>
      cases run
      exact (write_error client _).trans error
  | handshakeProtocols protocols =>
      cases run
      exact (Quiet.takeServerSpecs client protocols).errors error
  | newObject seq id =>
      cases run
      rw [CClientSocket.onSeq]
      split
      · exact error
      · exact error
  | generic msg => exact (CClientSocket.onGeneric_eq_ok run).2 error
  | fatalError objectId errorId errorMsg =>
      cases run
      rfl
  | roundtripDone seq => cases run; exact error
  | hello => cases run; exact error
  | handshakeAck version => cases run; exact error
  | bindProtocol protocol seq version => cases run; exact error
  | roundtripRequest seq => cases run; exact error

end Errors

/-- What an act does to the roundtrips. -/
inductive Asks (client : CClientSocket) (act : Act) (next : CClientSocket) : Prop
  | quiet (same : Quiet client next)
  | asked (asks : act = .roundtrip) (clean : client.error = false) (is : next = client.roundtrip)
  | ackd (seq : UInt32) (done : act = .receive (.roundtripDone seq))
      (is : next = { client with lastAckdRoundtripSeq := seq })

/-- **What an act does to the roundtrips.** -/
theorem act_asks {impls : Impls} {client next : CClientSocket} {act : Act}
    (headed : Headed client) (acts : client.act impls act = some (.ok next)) :
    Asks client act next := by
  cases act with
  | call index id args =>
      obtain ⟨⟨result, _⟩, called, rfl⟩ := map_eq_ok.mp (Option.some.inj acts)
      exact .quiet (.call called)
  | listen index id fn => exact .quiet (.listen (Option.some.inj acts))
  | bindProtocol spec version =>
      obtain ⟨⟨object, _⟩, bound, rfl⟩ := map_eq_ok.mp (Option.some.inj acts)
      exact .quiet (.bindProtocol bound)
  | roundtrip =>
      cases acts
      by_cases error : client.error = true
      · rw [CClientSocket.roundtrip, if_pos error]
        exact .quiet (.refl client)
      · exact .asked rfl (Bool.not_eq_true _ ▸ error) rfl
  | receive message =>
      obtain ⟨received, run, rest⟩ := Option.map_eq_some_iff.mp acts
      obtain ⟨⟨_, invocation⟩, rfl, rfl⟩ := map_eq_ok.mp rest
      cases message with
      | handshakeBegin versions =>
          cases run
          exact .quiet (.sendMessage _ _ _ ⟨trivial, by intro _ same; cases same⟩)
      | handshakeProtocols protocols => cases run; exact .quiet (.takeServerSpecs _ _)
      | newObject seq id =>
          cases run
          rw [CClientSocket.onSeq]
          split
          · exact .quiet (.refl client)
          · exact .quiet (.of_fields rfl rfl rfl rfl fun set => set)
      | generic msg =>
          obtain ⟨same, errors⟩ := CClientSocket.onGeneric_eq_ok run
          refine .quiet ?_
          rw [same]
          exact .of_fields rfl rfl rfl rfl errors
      | fatalError objectId errorId errorMsg =>
          cases run
          exact .quiet (.of_fields rfl rfl rfl rfl fun _ => rfl)
      | roundtripDone seq => cases run; exact .ackd seq rfl rfl
      | hello => cases run; exact .quiet (.refl client)
      | handshakeAck version => cases run; exact .quiet (.refl client)
      | bindProtocol protocol seq version => cases run; exact .quiet (.refl client)
      | roundtripRequest seq => cases run; exact .quiet (.refl client)
  | refuse => cases acts; exact .quiet (.of_fields rfl rfl rfl rfl fun _ => rfl)
  | flushPending => cases acts; exact .quiet (.flushPending headed)
  | disconnectOnError => cases acts; exact .quiet (.disconnectOnError client)

namespace Asks

variable {client next : CClientSocket} {act : Act}

/-- An error stays. -/
theorem errors (asks : Asks client act next) (error : client.error = true) :
    next.error = true := by
  cases asks with
  | quiet same => exact same.errors error
  | asked _ clean => rw [clean] at error; cases error
  | ackd seq _ is => exact is ▸ error

/-- What is on the wire stays there. -/
theorem prefix_sent (asks : Asks client act next) : client.sent <+: next.sent := by
  cases asks with
  | quiet same =>
      obtain ⟨new, sent, -⟩ := same.sends
      exact ⟨new, sent.symm⟩
  | asked _ clean is =>
      rw [is, CClientSocket.roundtrip, clean, CClientSocket.sendMessage]
      simp only [Bool.false_eq_true, if_false]
      split
      · exact List.prefix_append _ _
      · exact List.prefix_rfl
  | ackd seq _ is => exact is ▸ List.prefix_rfl

/-- A roundtrip closes no socket. -/
theorem closes (asks : Asks client act next) (closed : next.fdIsValid = false) :
    client.fdIsValid = false ∨ next.error = true := by
  cases asks with
  | quiet same => exact same.closes closed
  | asked _ clean is =>
      refine .inl ?_
      rw [is, CClientSocket.roundtrip, clean, CClientSocket.sendMessage] at closed
      simp only [Bool.false_eq_true, if_false] at closed
      split at closed
      · exact closed
      · exact closed
  | ackd seq _ is => exact .inl (by rw [is] at closed; exact closed)

end Asks

/-! ## Calls that have been made -/

/-- A call that has been made is on the wire, or waits for an object that is there. -/
structure Kept (client : CClientSocket) : Prop where
  headed : Headed client
  closed : client.fdIsValid = false → client.error = true
  depends : ∀ pending ∈ client.pendingOutgoing, ∃ object ∈ client.objects,
    pending.msg.dependsOnSeq = object.seq
  complete : client.error = false → ∀ number < client.made,
    ∃ origin ∈ client.wireOrigins ++ client.waitingOrigins, origin.number = number

theorem kept_opened : Kept .opened where
  headed _ waits := absurd waits List.not_mem_nil
  closed isClosed := by cases isClosed
  depends _ waits := absurd waits List.not_mem_nil
  complete _ _ less := absurd less (Nat.not_lt_zero _)

namespace Kept

variable {client next : CClientSocket}

/-- What makes no call keeps them. -/
theorem sameCalls (kept : Kept client) (same : SameCalls client next)
    (errors : client.error = true → next.error = true)
    (closes : next.fdIsValid = false → client.fdIsValid = false ∨ next.error = true) :
    Kept next where
  headed := by
    rw [Headed, same.waiting]
    exact kept.headed
  closed closed := (closes closed).elim (errors ∘ kept.closed) id
  depends := by
    rw [same.waiting]
    intro pending waits
    obtain ⟨object, listed, depends⟩ := kept.depends pending waits
    obtain ⟨index, has⟩ := List.mem_iff_getElem?.mp listed
    obtain ⟨object', has', seq⟩ := same.seqs index object has
    exact ⟨object', List.mem_of_getElem? has', depends.trans seq.symm⟩
  complete := by
    intro clean
    rw [CClientSocket.waitingOrigins, same.wire, same.waiting, same.made]
    refine kept.complete ?_
    cases before : client.error with
    | false => rfl
    | true => rw [errors before] at clean; cases clean

/-- One call more. -/
theorem complete_succ (kept : Kept client) (clean : client.error = false) (index : Nat)
    {origins : List Origin}
    (before : ∀ origin ∈ client.wireOrigins ++ client.waitingOrigins, origin ∈ origins)
    (added : ⟨index, client.made⟩ ∈ origins) :
    ∀ number < client.made + 1, ∃ origin ∈ origins, origin.number = number := by
  intro n less
  rcases Nat.lt_succ_iff_lt_or_eq.mp less with smaller | rfl
  · obtain ⟨origin, listed, is⟩ := kept.complete clean n smaller
    exact ⟨origin, before origin listed, is⟩
  · exact ⟨_, added, rfl⟩

theorem defer (kept : Kept client) {index : Nat} {object : IWireObject}
    {msg : CGenericProtocolMessage} (listed : object ∈ client.objects)
    (depends : msg.dependsOnSeq = object.seq)
    (head : msg.data.head? = some EMessageType.genericProtocolMessage.code) :
    Kept (client.defer index msg) where
  headed := by
    intro pending waits
    rcases List.mem_append.mp waits with before | last
    · exact kept.headed pending before
    · exact List.mem_singleton.mp last ▸ head
  closed := kept.closed
  depends := by
    intro pending waits
    rcases List.mem_append.mp waits with before | last
    · exact kept.depends pending before
    · exact ⟨object, listed, List.mem_singleton.mp last ▸ depends⟩
  complete := by
    intro clean
    have waiting : (client.defer index msg).waitingOrigins =
        client.waitingOrigins ++ [⟨index, client.made⟩] := List.map_append
    refine kept.complete_succ clean index (fun origin before => ?_) ?_
    · rw [waiting, ← List.append_assoc]
      exact List.mem_append_left _ before
    · rw [waiting, ← List.append_assoc]
      exact List.mem_append_right _ (List.mem_singleton.mpr rfl)

theorem direct (kept : Kept client) (index : Nat) (msg : CGenericProtocolMessage) :
    Kept (client.direct index msg) := by
  have waiting : (client.direct index msg).pendingOutgoing = client.pendingOutgoing :=
    direct_pendingOutgoing ..
  have objects : (client.direct index msg).objects = client.objects :=
    CClientSocket.objects_write client _
  have fields : (client.direct index msg).fdIsValid = client.fdIsValid ∧
      (client.direct index msg).error = client.error := by
    rw [CClientSocket.direct, CClientSocket.sendMessage]
    split <;> exact ⟨rfl, rfl⟩
  refine ⟨?_, ?_, ?_, ?_⟩
  · rw [Headed, waiting]
    exact kept.headed
  · rw [fields.1, fields.2]
    exact kept.closed
  · rw [waiting, objects]
    exact kept.depends
  · rw [fields.2]
    intro clean
    have isOpen : client.fdIsValid = true := by
      cases valid : client.fdIsValid with
      | true => rfl
      | false => rw [kept.closed valid] at clean; cases clean
    have wire : (client.direct index msg).wireOrigins =
        client.wireOrigins ++ [⟨index, client.made⟩] := by
      have written := wireOrigins_write client
        [⟨.generic msg.data msg.fds, some ⟨index, client.made⟩⟩]
      rwa [isOpen] at written
    rw [CClientSocket.waitingOrigins, wire, waiting]
    refine kept.complete_succ clean index (fun origin before => ?_) ?_
    · rcases List.mem_append.mp before with wired | waits
      · exact List.mem_append_left _ (List.mem_append_left _ wired)
      · exact List.mem_append_right _ waits
    · exact List.mem_append_left _ (List.mem_append_right _ (List.mem_singleton.mpr rfl))

theorem flushPending (kept : Kept client) : Kept client.flushPending := by
  have quiet := Quiet.flushPending kept.headed
  refine ⟨?_, fun closed => (quiet.closes closed).elim (quiet.errors ∘ kept.closed) id, ?_, ?_⟩
  · rw [Headed, pendingOutgoing_flushPending]
    exact fun pending waits => kept.headed pending (List.mem_filter.mp waits).1
  · rw [pendingOutgoing_flushPending, objects_flushPending]
    exact fun pending waits => kept.depends pending (List.mem_filter.mp waits).1
  · intro clean number less
    have before : client.error = false := by
      cases was : client.error with
      | false => rfl
      | true => rw [quiet.errors was] at clean; cases clean
    have isOpen : client.fdIsValid = true := by
      cases valid : client.fdIsValid with
      | true => rfl
      | false => rw [kept.closed valid] at before; cases before
    rw [made_flushPending] at less
    obtain ⟨origin, listed, is⟩ := kept.complete before number less
    refine ⟨origin, ?_, is⟩
    rw [wireOrigins_flushPending, waitingOrigins_flushPending, CClientSocket.flushed, if_pos isOpen]
    rcases List.mem_append.mp listed with wired | waits
    · exact List.mem_append_left _ (List.mem_append_left _ wired)
    · obtain ⟨pending, pends, rfl⟩ := List.mem_map.mp waits
      obtain ⟨object, there, depends⟩ := kept.depends pending pends
      rcases CClientSocket.keeps_or_resolved there depends with keeps | sends
      · exact List.mem_append_right _ (List.mem_map_of_mem (List.mem_filter.mpr ⟨pends, keeps⟩))
      · exact List.mem_append_left _ (List.mem_append_right _
          (List.mem_map_of_mem (List.mem_filter.mpr ⟨pends, sends⟩)))

theorem call {impls : Impls} {index : Nat} {id result : UInt32} {args : List Arg}
    (kept : Kept client) (called : client.call impls index id args = .ok (result, next)) :
    Kept next := by
  obtain ⟨object, spec, outcome, seq, has, -, made, after⟩ := CClientSocket.call_eq_ok.mp called
  have counted : Kept { client with seq } :=
    kept.sameCalls (.of_fields rfl rfl rfl rfl) (fun set => set) .inl
  obtain rfl : next = _ := congrArg Prod.snd after
  have makes : ∀ {counted : CClientSocket} (kind), Kept counted →
      Kept (CClientSocket.returned impls object counted kind).2 := by
    intro counted kind kept
    have quiet := Quiet.returned impls object counted kind
    exact kept.sameCalls (.returned impls object counted kind) quiet.errors quiet.closes
  cases outcome with
  | error message => exact counted
  | errd => exact counted.sameCalls (.of_fields rfl rfl rfl rfl) (fun _ => rfl) .inl
  | defer msg kind =>
      obtain ⟨-, method, arguments, fds, -, -, -, -, rfl⟩ := call_eq_defer made
      exact makes kind (counted.defer (List.mem_of_getElem? has) rfl rfl)
  | send msg kind => exact makes kind (counted.direct index msg)

/-- **An act keeps the calls that have been made.** -/
theorem act {impls : Impls} {act : Act} (kept : Kept client)
    (acts : client.act impls act = some (.ok next)) : Kept next := by
  have asks := act_asks kept.headed acts
  rcases act_sameCalls acts with ⟨index, id, args, rfl⟩ | rfl | same
  · obtain ⟨⟨result, _⟩, called, rfl⟩ := map_eq_ok.mp (Option.some.inj acts)
    exact kept.call called
  · cases acts
    exact kept.flushPending
  · exact kept.sameCalls same asks.errors asks.closes

end Kept

/-! ## Requests -/

/-- Of two requests the first has the smaller number. -/
def InTurn (first second : Sent) : Prop :=
  ∀ seq seq', first.message = .roundtripRequest seq → second.message = .roundtripRequest seq' →
    seq.toNat < seq'.toNat

/-- The messages on the wire start with their codes, and the requests among them have been
counted. -/
structure Asking (client : CClientSocket) : Prop where
  tagged : ∀ sent ∈ client.sent, Tagged sent.message
  inTurn : client.sent.Pairwise InTurn
  counted : ∀ sent ∈ client.sent, ∀ seq, sent.message = .roundtripRequest seq →
    seq.toNat ≤ client.lastSentRoundtripSeq.toNat

theorem asking_opened : Asking .opened where
  tagged sent listed := by
    rw [List.mem_singleton.mp listed]
    trivial
  inTurn := List.pairwise_singleton _ _
  counted sent listed seq is := by
    rw [List.mem_singleton.mp listed] at is
    cases is

/-- The counter does not wrap at a roundtrip. -/
def Unwrapped (client : CClientSocket) : Act → Prop
  | .roundtrip => client.lastSentRoundtripSeq.toNat + 1 < 2 ^ 32
  | _ => True

namespace Asking

variable {client next : CClientSocket}

theorem quiet (asking : Asking client) (quiet : Quiet client next) : Asking next := by
  obtain ⟨new, sent, plain⟩ := quiet.sends
  refine ⟨?_, ?_, ?_⟩
  · rw [sent]
    intro message either
    rcases List.mem_append.mp either with before | last
    · exact asking.tagged message before
    · exact (plain message last).1
  · rw [sent]
    refine List.pairwise_append.mpr ⟨asking.inTurn, ?_, ?_⟩
    · refine List.pairwise_of_forall_mem_list ?_
      exact fun first one _ _ seq _ is _ => absurd is ((plain first one).2 seq)
    · exact fun _ _ second two _ seq' _ is => absurd is ((plain second two).2 seq')
  · rw [sent, quiet.counter]
    intro message either seq is
    rcases List.mem_append.mp either with before | last
    · exact asking.counted message before seq is
    · exact absurd is ((plain message last).2 seq)

theorem roundtrip (asking : Asking client) (clean : client.error = false)
    (unwrapped : client.lastSentRoundtripSeq.toNat + 1 < 2 ^ 32) : Asking client.roundtrip := by
  have value : (client.lastSentRoundtripSeq + 1).toNat =
      client.lastSentRoundtripSeq.toNat + 1 := by
    rw [UInt32.toNat_add]
    exact Nat.mod_eq_of_lt unwrapped
  have counted : ∀ sent ∈ client.sent, ∀ seq, sent.message = .roundtripRequest seq →
      seq.toNat ≤ (client.lastSentRoundtripSeq + 1).toNat := by
    intro sent listed seq is
    rw [value]
    exact Nat.le_succ_of_le (asking.counted sent listed seq is)
  rw [CClientSocket.roundtrip, clean, CClientSocket.sendMessage]
  simp only [Bool.false_eq_true, if_false]
  split
  · refine ⟨?_, ?_, ?_⟩
    · intro sent either
      rcases List.mem_append.mp either with before | last
      · exact asking.tagged sent before
      · rw [List.mem_singleton.mp last]
        trivial
    · refine List.pairwise_append.mpr ⟨asking.inTurn, List.pairwise_singleton _ _, ?_⟩
      intro first before second last seq seq' is is'
      rw [List.mem_singleton.mp last] at is'
      cases is'
      rw [value]
      exact Nat.lt_succ_of_le (asking.counted first before seq is)
    · intro sent either seq is
      rcases List.mem_append.mp either with before | last
      · exact counted sent before seq is
      · rw [List.mem_singleton.mp last] at is
        cases is
        exact Nat.le_refl _
  · exact ⟨asking.tagged, asking.inTurn, counted⟩

/-- **An act keeps the requests in turn**, while the counter does not wrap. -/
theorem act {act : Act} (asking : Asking client) (asks : Asks client act next)
    (unwrapped : Unwrapped client act) : Asking next := by
  cases asks with
  | quiet same => exact asking.quiet same
  | asked is clean next_eq => subst is; exact next_eq ▸ asking.roundtrip clean unwrapped
  | ackd seq _ is => exact is ▸ ⟨asking.tagged, asking.inTurn, asking.counted⟩

end Asking

end Hyprwire.Client
