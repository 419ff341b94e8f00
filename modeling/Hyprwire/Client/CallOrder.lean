import Hyprwire.Client.Deferred

/-!
# The order of calls

The messages of an object come in two streams: those that are written at once, and
those that wait for the identifier of the object. While a batch is handled an object
can get its identifier before the messages that wait for it are flushed, and a call
made in between overtakes them (`calls_overtaken`). In a run without such a call the
messages of every object are written in the order of the calls (`calls_in_order`). The
invariant is that what is on the wire, followed by what waits, is in order for each
object (`Ordered`).
-/

set_option autoImplicit false

namespace Hyprwire.Client

open Cpp Wire Object CGenericProtocolMessage

/-! ## Order -/

/-- Of two messages of one object the first was made before the second. -/
def InOrder (first second : Origin) : Prop :=
  first.object = second.object → first.number < second.number

namespace CClientSocket

/-- The calls on the wire. -/
def wireOrigins (client : CClientSocket) : List Origin := client.sent.filterMap Sent.origin

/-- The calls that wait. -/
def waitingOrigins (client : CClientSocket) : List Origin :=
  client.pendingOutgoing.map Pending.origin

/-- The numbers of the messages of one object, as they are on the wire. -/
def wireCalls (client : CClientSocket) (object : Nat) : List Nat :=
  (client.wireOrigins.filter fun origin => origin.object = object).map Origin.number

end CClientSocket

/-- What is on the wire, followed by what waits, is in order, and what waits depends on
the object it was called on. -/
structure Ordered (client : CClientSocket) : Prop where
  order : (client.wireOrigins ++ client.waitingOrigins).Pairwise InOrder
  numbered : ∀ origin ∈ client.wireOrigins ++ client.waitingOrigins, origin.number < client.made
  depends : ∀ pending ∈ client.pendingOutgoing, ∃ object,
    client.objects[pending.origin.object]? = some object ∧ pending.msg.dependsOnSeq = object.seq

/-- The messages of calls are the same, and the objects keep their sequences. -/
structure SameCalls (client next : CClientSocket) : Prop where
  wire : next.wireOrigins = client.wireOrigins
  waiting : next.pendingOutgoing = client.pendingOutgoing
  made : next.made = client.made
  seqs : ∀ (index : Nat) (object : IWireObject), client.objects[index]? = some object →
    ∃ object', next.objects[index]? = some object' ∧ object'.seq = object.seq

theorem SameCalls.ordered {client next : CClientSocket} (same : SameCalls client next)
    (ordered : Ordered client) : Ordered next where
  order := by
    rw [CClientSocket.waitingOrigins, same.wire, same.waiting]
    exact ordered.order
  numbered := by
    rw [CClientSocket.waitingOrigins, same.wire, same.waiting, same.made]
    exact ordered.numbered
  depends := by
    rw [same.waiting]
    intro pending waits
    obtain ⟨object, has, depends⟩ := ordered.depends pending waits
    obtain ⟨object', has', seq⟩ := same.seqs _ _ has
    exact ⟨object', has', depends.trans seq.symm⟩

namespace SameCalls

/-- Other fields do not matter. -/
theorem of_fields {client next : CClientSocket} (sent : next.sent = client.sent)
    (waiting : next.pendingOutgoing = client.pendingOutgoing) (made : next.made = client.made)
    (objects : next.objects = client.objects) : SameCalls client next where
  wire := by rw [CClientSocket.wireOrigins, sent, CClientSocket.wireOrigins]
  waiting := waiting
  made := made
  seqs _ object has := ⟨object, objects ▸ has, rfl⟩

theorem refl (client : CClientSocket) : SameCalls client client := of_fields rfl rfl rfl rfl

theorem trans {first second third : CClientSocket} (one : SameCalls first second)
    (two : SameCalls second third) : SameCalls first third where
  wire := two.wire.trans one.wire
  waiting := two.waiting.trans one.waiting
  made := two.made.trans one.made
  seqs index object has := by
    obtain ⟨object', has', seq⟩ := one.seqs index object has
    obtain ⟨object'', has'', seq'⟩ := two.seqs index object' has'
    exact ⟨object'', has'', seq'.trans seq⟩

/-- A message that no call has made. -/
theorem sendMessage (client : CClientSocket) (message : Message) :
    SameCalls client (client.sendMessage message) where
  wire := by
    rw [CClientSocket.sendMessage]
    split
    · simp [CClientSocket.wireOrigins]
    · rfl
  waiting := by rw [CClientSocket.sendMessage]; split <;> rfl
  made := by rw [CClientSocket.sendMessage]; split <;> rfl
  seqs index object has := by
    rw [CClientSocket.sendMessage]
    split <;> exact ⟨object, has, rfl⟩

/-- An object more. -/
theorem append (client : CClientSocket) (object : IWireObject) (seq : UInt32) :
    SameCalls client { client with seq, objects := client.objects ++ [object] } where
  wire := rfl
  waiting := rfl
  made := rfl
  seqs index object' has := by
    refine ⟨object', ?_, rfl⟩
    rw [List.getElem?_append_left (List.getElem?_eq_some_iff.mp has).1]
    exact has

theorem makeObject (impls : Impls) (protocolName objectName : Str) (seq : UInt32)
    (client : CClientSocket) :
    SameCalls client (CClientSocket.makeObject impls protocolName objectName seq client) := by
  rw [CClientSocket.makeObject]
  split
  · exact refl client
  · exact append client _ _

theorem returned (impls : Impls) (object : IWireObject) (client : CClientSocket)
    (kind : Option (UInt32 × Str)) :
    SameCalls client (CClientSocket.returned impls object client kind).2 := by
  cases kind with
  | none => exact refl client
  | some kind => exact makeObject _ _ _ _ _

theorem onSeq (client : CClientSocket) (seq id : UInt32) :
    SameCalls client (client.onSeq seq id) := by
  rw [CClientSocket.onSeq]
  split
  · exact refl client
  · next place _ =>
    refine ⟨rfl, rfl, rfl, fun index object has => ?_⟩
    refine ⟨if place = index then { object with id } else object, ?_, by split <;> rfl⟩
    simp only [List.getElem?_modify, has]
    split <;> rfl

theorem bindProtocol {client next : CClientSocket} {spec : IProtocolSpec} {version : UInt32}
    {object : Option Nat} (run : client.bindProtocol spec version = .ok (object, next)) :
    SameCalls client next := by
  simp only [CClientSocket.bindProtocol] at run
  split at run
  · cases run
    exact of_fields rfl rfl rfl rfl
  · split at run
    · cases run
    · cases run
      exact (append client _ _).trans (sendMessage _ _)

theorem listen {client next : CClientSocket} {index : Nat} {id : UInt32} {fn : Option Callback}
    (run : client.listen index id fn = .ok next) : SameCalls client next := by
  obtain ⟨object, at_, rest⟩ := bind_eq_ok.mp run
  cases rest
  refine ⟨rfl, rfl, rfl, fun place object' has => ?_⟩
  have has' := CClientSocket.objectAt_eq_ok.mp at_
  by_cases same : index = place
  · subst same
    obtain rfl := Option.some.inj (has.symm.trans has')
    have inside := (List.getElem?_eq_some_iff.mp has).1
    exact ⟨object'.listen id fn, by rw [List.getElem?_set_self inside], rfl⟩
  · exact ⟨object', by rw [List.getElem?_set_ne same]; exact has, rfl⟩

theorem roundtrip (client : CClientSocket) : SameCalls client client.roundtrip := by
  rw [CClientSocket.roundtrip]
  split
  · exact refl client
  · refine trans ?_ (sendMessage _ _)
    exact of_fields rfl rfl rfl rfl

theorem addServerSpecs (s : List Str) (client : CClientSocket) :
    SameCalls client (CClientSocket.addServerSpecs s client) := by
  induction s generalizing client with
  | nil => exact refl client
  | cons specName rest ih =>
      rw [CClientSocket.addServerSpecs]
      split
      · exact of_fields rfl rfl rfl rfl
      · refine trans ?_ (ih _)
        exact of_fields rfl rfl rfl rfl

/-- A received message makes no call itself. -/
theorem receive {client next : CClientSocket} {message : Received}
    {invocation : Option Invocation} (run : client.receive message = some (.ok (next, invocation))) :
    SameCalls client next := by
  cases message with
  | handshakeBegin versions => cases run; exact sendMessage client _
  | handshakeProtocols protocols =>
      cases run
      exact (addServerSpecs protocols client).trans (of_fields rfl rfl rfl rfl)
  | newObject seq id => cases run; exact onSeq client seq id
  | fatalError objectId errorId errorMsg => cases run; exact of_fields rfl rfl rfl rfl
  | roundtripDone seq => cases run; exact of_fields rfl rfl rfl rfl
  | generic msg =>
      rw [(CClientSocket.onGeneric_eq_ok run).1]
      exact of_fields rfl rfl rfl rfl
  | hello => cases run; exact refl client
  | handshakeAck version => cases run; exact refl client
  | bindProtocol protocol seq version => cases run; exact refl client
  | roundtripRequest seq => cases run; exact refl client

end SameCalls

/-- Only a call and the flush change the messages of calls. -/
theorem act_sameCalls {impls : Impls} {client next : CClientSocket} {act : Act}
    (acts : client.act impls act = some (.ok next)) :
    (∃ index id args, act = .call index id args) ∨ act = .flushPending ∨
      SameCalls client next := by
  cases act with
  | call index id args => exact .inl ⟨index, id, args, rfl⟩
  | listen index id fn => exact .inr (.inr (.listen (Option.some.inj acts)))
  | bindProtocol spec version =>
      obtain ⟨⟨object, _⟩, bound, rfl⟩ := map_eq_ok.mp (Option.some.inj acts)
      exact .inr (.inr (.bindProtocol bound))
  | roundtrip => cases acts; exact .inr (.inr (.roundtrip client))
  | receive message =>
      obtain ⟨received, run, rest⟩ := Option.map_eq_some_iff.mp acts
      obtain ⟨⟨_, invocation⟩, rfl, rfl⟩ := map_eq_ok.mp rest
      exact .inr (.inr (.receive run))
  | refuse => cases acts; exact .inr (.inr (.of_fields rfl rfl rfl rfl))
  | flushPending => exact .inr (.inl rfl)
  | disconnectOnError => cases acts; exact .inr (.inr (.of_fields rfl rfl rfl rfl))

/-! ## Steps -/

theorem wireOrigins_write (client : CClientSocket) (messages : List Sent) :
    (client.write messages).wireOrigins =
      client.wireOrigins ++ if client.fdIsValid then messages.filterMap Sent.origin else [] := by
  rw [CClientSocket.write, CClientSocket.wireOrigins]
  split
  · exact List.filterMap_append
  · exact (List.append_nil _).symm

theorem resolved_origins (client : CClientSocket) (waiting : List Pending) :
    (waiting.filterMap client.resolved).filterMap Sent.origin =
      (waiting.filter fun pending => (client.resolved pending).isSome).map Pending.origin := by
  induction waiting with
  | nil => rfl
  | cons pending rest ih =>
      rw [List.filterMap_cons, List.filter_cons]
      cases found : client.resolved pending with
      | none => exact ih
      | some sent =>
          have origin : sent.origin = some pending.origin := by
            rw [CClientSocket.resolved] at found
            split at found <;> cases found
            rfl
          simp only [List.filterMap_cons, origin, ih, Option.isSome_some, if_true, List.map_cons]

namespace CClientSocket

/-- The messages that the flush writes. -/
def flushed (client : CClientSocket) : List Pending :=
  if client.fdIsValid then
    client.pendingOutgoing.filter fun pending => (client.resolved pending).isSome
  else
    []

theorem flushed_sublist (client : CClientSocket) : client.flushed.Sublist client.pendingOutgoing := by
  rw [flushed]
  split
  · exact List.filter_sublist
  · exact List.nil_sublist _

theorem resolved_of_flushed {client : CClientSocket} {pending : Pending}
    (listed : pending ∈ client.flushed) : (client.resolved pending).isSome = true := by
  rw [flushed] at listed
  split at listed
  · exact (List.mem_filter.mp listed).2
  · cases listed

/-- A message whose object is there is not dropped. -/
theorem keeps_or_resolved {client : CClientSocket} {pending : Pending} {object : IWireObject}
    (there : object ∈ client.objects) (depends : pending.msg.dependsOnSeq = object.seq) :
    client.keeps pending = true ∨ (client.resolved pending).isSome = true := by
  have found : (client.objectForSeq pending.msg.dependsOnSeq).isSome := by
    rw [objectForSeq, List.find?_isSome]
    exact ⟨object, there, decide_eq_true depends.symm⟩
  obtain ⟨first, found⟩ := Option.isSome_iff_exists.mp found
  by_cases unknown : first.id = 0
  · simp only [keeps, waiting, found, unknown, if_true, true_or]
  · simp only [resolved, waiting, found, unknown, if_false, Option.isSome_some, or_true]

end CClientSocket

@[simp] theorem pendingOutgoing_flushPending (client : CClientSocket) :
    client.flushPending.pendingOutgoing = client.pendingOutgoing.filter client.keeps := by
  rw [CClientSocket.flushPending_eq]

@[simp] theorem objects_flushPending (client : CClientSocket) :
    client.flushPending.objects = client.objects := by
  rw [CClientSocket.flushPending_eq]
  exact CClientSocket.objects_write client _

theorem wireOrigins_flushPending (client : CClientSocket) :
    client.flushPending.wireOrigins = client.wireOrigins ++ client.flushed.map Pending.origin := by
  rw [CClientSocket.flushPending_eq]
  refine (wireOrigins_write client _).trans (congrArg _ ?_)
  rw [CClientSocket.flushed]
  split
  · exact resolved_origins client _
  · rfl

theorem waitingOrigins_flushPending (client : CClientSocket) :
    client.flushPending.waitingOrigins =
      (client.pendingOutgoing.filter client.keeps).map Pending.origin := by
  rw [CClientSocket.waitingOrigins, pendingOutgoing_flushPending]

theorem made_flushPending (client : CClientSocket) : client.flushPending.made = client.made := by
  rw [CClientSocket.flushPending_eq, CClientSocket.write]
  split <;> rfl

/-- A call that is sent at once is on an object that has an identifier. -/
theorem call_eq_send {object : IWireObject} {methods : List SMethod} {seq seq' id : UInt32}
    {args : List Arg} {msg : CGenericProtocolMessage} {kind : Option (UInt32 × Str)}
    (sent : object.call false methods seq id args = .ok (.send msg kind, seq')) :
    object.id ≠ 0 := by
  simp only [IWireObject.call] at sent
  split at sent
  · cases sent
  · obtain ⟨message, -, rest⟩ := bind_eq_ok.mp sent
    cases message with
    | none => cases rest
    | some msg =>
        simp only [Bool.false_eq_true, not_false_eq_true, and_true] at rest
        split at rest
        · cases rest
        · next identified => exact identified

/-- A call does not overtake a message of its object that waits. -/
def NoOvertaking (client : CClientSocket) : Act → Prop
  | .call index _ _ => ∀ object, client.objects[index]? = some object → object.id ≠ 0 →
      ∀ pending ∈ client.pendingOutgoing, pending.origin.object ≠ index
  | _ => True

namespace Ordered

variable {client : CClientSocket}

theorem of_fields {next : CClientSocket} (ordered : Ordered client)
    (sent : next.sent = client.sent) (waiting : next.pendingOutgoing = client.pendingOutgoing)
    (made : next.made = client.made) (objects : next.objects = client.objects) : Ordered next :=
  (SameCalls.of_fields sent waiting made objects).ordered ordered

/-- A message that waits is the last one made. -/
theorem defer (ordered : Ordered client) {index : Nat} {object : IWireObject}
    {msg : CGenericProtocolMessage} (has : client.objects[index]? = some object)
    (depends : msg.dependsOnSeq = object.seq) : Ordered (client.defer index msg) where
  order := by
    simp only [CClientSocket.waitingOrigins, CClientSocket.defer, List.map_append, List.map_cons,
      List.map_nil, ← List.append_assoc]
    refine List.pairwise_append.mpr ⟨ordered.order, List.pairwise_singleton _ _, ?_⟩
    intro origin before last is _
    rw [List.mem_singleton.mp is]
    exact ordered.numbered origin before
  numbered := by
    simp only [CClientSocket.waitingOrigins, CClientSocket.defer, List.map_append, List.map_cons,
      List.map_nil, ← List.append_assoc]
    intro origin either
    rcases List.mem_append.mp either with before | last
    · exact Nat.lt_succ_of_lt (ordered.numbered origin before)
    · rw [List.mem_singleton.mp last]
      exact Nat.lt_succ_self _
  depends := by
    intro pending waits
    rcases List.mem_append.mp waits with before | last
    · exact ordered.depends pending before
    · rw [List.mem_singleton.mp last]
      exact ⟨object, has, depends⟩

/-- A message that is written at once is the last one made, and nothing of its object
waits. -/
theorem direct (ordered : Ordered client) {index : Nat} {msg : CGenericProtocolMessage}
    (first : ∀ pending ∈ client.pendingOutgoing, pending.origin.object ≠ index) :
    Ordered (client.direct index msg) := by
  obtain ⟨wire, waiting, cross⟩ := List.pairwise_append.mp ordered.order
  have wireNow : (client.direct index msg).wireOrigins = client.wireOrigins ++
      if client.fdIsValid then [⟨index, client.made⟩] else [] :=
    wireOrigins_write client [⟨.generic msg.data msg.fds, some ⟨index, client.made⟩⟩]
  have waitingNow : (client.direct index msg).waitingOrigins = client.waitingOrigins := by
    rw [CClientSocket.waitingOrigins, direct_pendingOutgoing, CClientSocket.waitingOrigins]
  have last : ∀ origin ∈ (if client.fdIsValid then [⟨index, client.made⟩] else []),
      origin = (⟨index, client.made⟩ : Origin) := by
    intro origin written
    split at written
    · exact List.mem_singleton.mp written
    · cases written
  refine ⟨?_, ?_, ?_⟩
  · rw [wireNow, waitingNow, List.append_assoc]
    refine List.pairwise_append.mpr ⟨wire, List.pairwise_append.mpr ⟨?_, waiting, ?_⟩, ?_⟩
    · split
      · exact List.pairwise_singleton _ _
      · exact .nil
    · -- Nothing of the object waits.
      intro origin written origin' waits same
      obtain ⟨pending, listed, rfl⟩ := List.mem_map.mp waits
      rw [last origin written] at same
      exact absurd same.symm (first pending listed)
    · intro origin before origin' either same
      rcases List.mem_append.mp either with written | waits
      · rw [last origin' written]
        exact ordered.numbered origin (List.mem_append_left _ before)
      · exact cross origin before origin' waits same
  · rw [wireNow, waitingNow]
    intro origin either
    refine Nat.lt_succ_of_le ?_
    rcases List.mem_append.mp either with wired | waits
    · rcases List.mem_append.mp wired with before | written
      · exact Nat.le_of_lt (ordered.numbered origin (List.mem_append_left _ before))
      · rw [last origin written]
    · exact Nat.le_of_lt (ordered.numbered origin (List.mem_append_right _ waits))
  · intro pending waits
    rw [direct_pendingOutgoing] at waits
    have same : (client.direct index msg).objects = client.objects :=
      CClientSocket.objects_write client _
    rw [same]
    exact ordered.depends pending waits

/-- The flush treats the messages of one object alike. -/
theorem waiting_eq (ordered : Ordered client) {first second : Pending}
    (one : first ∈ client.pendingOutgoing) (two : second ∈ client.pendingOutgoing)
    (same : first.origin.object = second.origin.object) :
    client.objectForSeq first.msg.dependsOnSeq = client.objectForSeq second.msg.dependsOnSeq := by
  obtain ⟨object, has, depends⟩ := ordered.depends first one
  obtain ⟨object', has', depends'⟩ := ordered.depends second two
  rw [same] at has
  obtain rfl := Option.some.inj (has.symm.trans has')
  rw [depends, depends']

/-- A message that goes on waiting is not of an object whose messages are sent. -/
theorem keeps_apart (ordered : Ordered client) {first second : Pending}
    (one : first ∈ client.pendingOutgoing) (two : second ∈ client.pendingOutgoing)
    (sends : (client.resolved first).isSome = true) (keeps : client.keeps second = true) :
    first.origin.object ≠ second.origin.object := by
  intro same
  simp only [CClientSocket.resolved, CClientSocket.keeps, CClientSocket.waiting,
    ordered.waiting_eq one two same] at sends keeps
  cases found : client.objectForSeq second.msg.dependsOnSeq with
  | none => simp [found] at keeps
  | some object =>
      by_cases unknown : object.id = 0
      · simp [found, unknown] at sends
      · simp [found, unknown] at keeps

/-- What the flush writes is in the order it waited in, and what goes on waiting is of
other objects. -/
theorem flushPending (ordered : Ordered client) : Ordered client.flushPending := by
  obtain ⟨wire, waiting, cross⟩ := List.pairwise_append.mp ordered.order
  have part := client.flushed_sublist
  have others : (client.pendingOutgoing.filter client.keeps).Sublist client.pendingOutgoing :=
    List.filter_sublist
  refine ⟨?_, ?_, ?_⟩
  · rw [wireOrigins_flushPending, waitingOrigins_flushPending, List.append_assoc]
    refine List.pairwise_append.mpr ⟨wire, List.pairwise_append.mpr
      ⟨waiting.sublist (part.map _), waiting.sublist (others.map _), ?_⟩, ?_⟩
    · intro origin writes origin' keeps same
      obtain ⟨first, one, rfl⟩ := List.mem_map.mp writes
      obtain ⟨second, two, rfl⟩ := List.mem_map.mp keeps
      have apart := ordered.keeps_apart (part.subset one) (others.subset two)
        (CClientSocket.resolved_of_flushed one) (List.mem_filter.mp two).2
      exact absurd same apart
    · intro origin before origin' either
      refine cross origin before origin' ?_
      rcases List.mem_append.mp either with writes | keeps
      · exact (part.map _).subset writes
      · exact (others.map _).subset keeps
  · rw [wireOrigins_flushPending, waitingOrigins_flushPending, made_flushPending,
      List.append_assoc]
    intro origin either
    refine ordered.numbered origin ?_
    rcases List.mem_append.mp either with before | later
    · exact List.mem_append_left _ before
    · refine List.mem_append_right _ ?_
      rcases List.mem_append.mp later with writes | keeps
      · exact (part.map _).subset writes
      · exact (others.map _).subset keeps
  · rw [pendingOutgoing_flushPending, objects_flushPending]
    exact fun pending waits => ordered.depends pending (others.subset waits)

theorem call {impls : Impls} {next : CClientSocket} {index : Nat} {id result : UInt32}
    {args : List Arg} (ordered : Ordered client) (may : NoOvertaking client (.call index id args))
    (called : client.call impls index id args = .ok (result, next)) : Ordered next := by
  obtain ⟨object, spec, outcome, seq, has, -, made, after⟩ := CClientSocket.call_eq_ok.mp called
  have counted : Ordered { client with seq } := ordered.of_fields rfl rfl rfl rfl
  obtain rfl : next = _ := congrArg Prod.snd after
  cases outcome with
  | error message => exact counted
  | errd => exact counted.of_fields rfl rfl rfl rfl
  | defer msg kind =>
      obtain ⟨-, method, arguments, fds, -, -, -, -, rfl⟩ := call_eq_defer made
      exact (SameCalls.returned impls object _ kind).ordered (counted.defer has rfl)
  | send msg kind =>
      exact (SameCalls.returned impls object _ kind).ordered
        (counted.direct (may object has (call_eq_send made)))

/-- **An act that does not overtake keeps the order.** -/
theorem act {impls : Impls} {next : CClientSocket} {act : Act} (ordered : Ordered client)
    (may : NoOvertaking client act) (acts : client.act impls act = some (.ok next)) :
    Ordered next := by
  rcases act_sameCalls acts with ⟨index, id, args, rfl⟩ | rfl | same
  · obtain ⟨⟨result, _⟩, called, rfl⟩ := map_eq_ok.mp (Option.some.inj acts)
    exact ordered.call may called
  · cases acts
    exact ordered.flushPending
  · exact same.ordered ordered

end Ordered

/-! ## Runs -/

theorem ordered_opened : Ordered .opened where
  order := .nil
  numbered _ listed := absurd listed List.not_mem_nil
  depends _ waits := absurd waits List.not_mem_nil

/-- **In a run in which no call overtakes a message of its object that waits, the
messages of every object are on the wire in the order of the calls.** -/
theorem calls_in_order {impls : Impls} {client : CClientSocket}
    (run : Run impls NoOvertaking .opened client) (object : Nat) :
    (client.wireCalls object).Pairwise (· < ·) := by
  have ordered : Ordered client :=
    run.invariant (fun _ _ _ may acts ordered => ordered.act may acts) ordered_opened
  have wire := (List.pairwise_append.mp ordered.order).1
  rw [CClientSocket.wireCalls, List.pairwise_map]
  refine (wire.sublist List.filter_sublist).imp_of_mem ?_
  intro first second one two inOrder
  have of : first.object = object := of_decide_eq_true (List.mem_filter.mp one).2
  have of' : second.object = object := of_decide_eq_true (List.mem_filter.mp two).2
  exact inOrder (of.trans of'.symm)

/-! ## A child that is called early -/

/-- A kind of object with one method, which takes nothing. -/
def child : IProtocolObjectSpec where
  objectName := [2]
  c2s := [{ params := [] }]
  s2c := []

/-- A kind of object with a method that returns a child, and one for its listener. -/
def parent : IProtocolObjectSpec where
  objectName := [1]
  c2s := [{ params := [], returnsType := [2] }]
  s2c := [{ params := [] }]

def family : IProtocolSpec where
  specName := [0]
  specVer := 1
  objects := [parent, child]

/-- The listener of the parent calls the child. -/
def eager : Config Unit where
  impls := [⟨family⟩]
  heap := .ample
  listener _ := .ask (.call 1 0 []) fun _ => .done
  frames := 1

/-- The client after a call on a child without an identifier. -/
def expecting : CClientSocket where
  objects := [
    { listeners := [some 0], id := 1, version := 1, seq := 1, protocolName := [0],
      spec := some parent },
    { seq := 2, protocolName := [0], spec := some child }]
  pendingOutgoing := [⟨{ ofData (callData 0 0 none []) [] with dependsOnSeq := 2 }, ⟨1, 1⟩⟩]
  seq := 2
  sent := [⟨.hello, none⟩, ⟨.bindProtocol [0] 1 1, none⟩,
    ⟨.generic (callData 1 0 (some 2) []) [], some ⟨0, 0⟩⟩]
  made := 2

theorem run_expecting : Run eager.impls NoOvertaking .opened expecting := by
  have nothing : ∀ index id args (client : CClientSocket), client.pendingOutgoing = [] →
      NoOvertaking client (.call index id args) := by
    intro index id args client none object _ _ pending waits
    rw [none] at waits
    cases waits
  have opened : Run eager.impls NoOvertaking .opened .opened := .refl
  have bound := @Run.step _ _ _ _ _ (.bindProtocol family 1) opened trivial rfl
  have assigned := @Run.step _ _ _ _ _ (.receive (.newObject 1 1)) bound trivial rfl
  have listens := @Run.step _ _ _ _ _ (.listen 0 0 (some 0)) assigned trivial rfl
  have called := @Run.step _ _ _ _ _ (.call 0 0 []) listens (nothing _ _ _ _ rfl) rfl
  exact @Run.step _ _ _ _ _ (.call 1 0 []) called (nothing _ _ _ _ rfl) rfl

/-- After the identifier of the child and the flush its message is on the wire. -/
theorem calls_in_order_expecting :
    ((expecting.onSeq 2 2).flushPending.wireCalls 1).Pairwise (· < ·) := by
  have assigned := @Run.step _ _ _ _ _ (.receive (.newObject 2 2)) run_expecting trivial rfl
  exact calls_in_order (@Run.step _ _ _ _ _ .flushPending assigned trivial rfl) 1

/-- The batch that brings the identifier of the child, and then a call of the parent. -/
def eagerBatch : SSocketRawParsedMessage where
  data := ByteVec.strict ⟨CNewObjectMessage.encode 2 2 ++ callData 1 0 none [], by decide⟩
  fds := []

/-- The call of the listener is on the wire before the one that was made first. -/
theorem calls_overtaken :
    Run eager.impls anyAct .opened expecting ∧
      ∃ goesOn t handled, dispatchEvents eager 3 (.readable (some eagerBatch)) ⟨expecting, ()⟩ =
          some (.ok (goesOn, t, handled)) ∧
        t.client.wireCalls 1 = [2, 1] :=
  ⟨run_expecting.mono fun _ _ _ => trivial, _, _, _, rfl, rfl⟩

end Hyprwire.Client
