import Hyprwire.Client.Order

/-!
# The queue of deferred calls

A call on an object without an identifier is put into `m_pendingOutgoing`, from which only the
flush at the end of a dispatch takes messages. `Queued` joins a client with all the calls that
were deferred so far: they are numbered in the order of the queue, each is on the wire once at
most and does not wait any more then, those of one object are on the wire in order, and those
that are neither on the wire nor waiting were lost to a closed descriptor. Every act keeps it
(`Queued.act`); in particular the flush drops nothing.
-/

set_option autoImplicit false

namespace Hyprwire.Client

open Cpp Wire Object

/-! ## Descriptors stay closed -/

section Closed

variable {client next : CClientSocket}

theorem fdIsValid_write (client : CClientSocket) (messages : List Sent) :
    (client.write messages).fdIsValid = client.fdIsValid := by
  rw [CClientSocket.write]
  split <;> rfl

theorem fdIsValid_returned (impls : Impls) (object : IWireObject) (client : CClientSocket)
    (kind : Option (UInt32 × Str)) :
    (CClientSocket.returned impls object client kind).2.fdIsValid = client.fdIsValid := by
  cases kind with
  | none => rfl
  | some kind =>
      simp only [CClientSocket.returned, CClientSocket.makeObject]
      split <;> rfl

theorem fdIsValid_addServerSpecs (s : List Str) (closed : client.fdIsValid = false) :
    (CClientSocket.addServerSpecs s client).fdIsValid = false := by
  induction s generalizing client with
  | nil => exact closed
  | cons specName rest ih =>
      rw [CClientSocket.addServerSpecs]
      split
      · rfl
      · exact ih closed

/-- A descriptor that is closed stays closed. -/
theorem act_closed {impls : Impls} {act : Act} (acts : client.act impls act = some (.ok next))
    (closed : client.fdIsValid = false) : next.fdIsValid = false := by
  cases act with
  | call index id args =>
      obtain ⟨⟨result, _⟩, called, rfl⟩ := map_eq_ok.mp (Option.some.inj acts)
      obtain ⟨object, spec, outcome, seq, -, -, -, after⟩ := CClientSocket.call_eq_ok.mp called
      rw [congrArg Prod.snd after]
      cases outcome with
      | error message => exact closed
      | errd => exact closed
      | defer msg kind => exact (fdIsValid_returned _ _ _ _).trans closed
      | send msg kind =>
          refine (fdIsValid_returned _ _ _ _).trans ?_
          exact (fdIsValid_write { client with seq } _).trans closed
  | listen index id fn =>
      obtain ⟨object, -, rest⟩ := bind_eq_ok.mp (Option.some.inj acts)
      cases rest
      exact closed
  | bindProtocol spec version =>
      obtain ⟨⟨object, _⟩, bound, rfl⟩ := map_eq_ok.mp (Option.some.inj acts)
      simp only [CClientSocket.bindProtocol] at bound
      split at bound
      · cases bound
        rfl
      · split at bound
        · cases bound
        · cases bound
          exact (fdIsValid_write _ _).trans closed
  | roundtrip =>
      cases acts
      rw [CClientSocket.roundtrip]
      split
      · exact closed
      · exact (fdIsValid_write _ _).trans closed
  | receive message =>
      obtain ⟨received, run, rest⟩ := Option.map_eq_some_iff.mp acts
      obtain ⟨⟨_, invocation⟩, rfl, rfl⟩ := map_eq_ok.mp rest
      cases message with
      | handshakeBegin versions => cases run; exact (fdIsValid_write _ _).trans closed
      | handshakeProtocols protocols =>
          cases run
          exact fdIsValid_addServerSpecs protocols closed
      | newObject seq id =>
          cases run
          rw [CClientSocket.onSeq]
          split
          · exact closed
          · exact closed
      | generic msg =>
          rw [(CClientSocket.onGeneric_eq_ok run).1]
          exact closed
      | fatalError objectId errorId errorMsg => cases run; exact closed
      | roundtripDone seq => cases run; exact closed
      | hello => cases run; exact closed
      | handshakeAck version => cases run; exact closed
      | bindProtocol protocol seq version => cases run; exact closed
      | roundtripRequest seq => cases run; exact closed
  | refuse => cases acts; exact closed
  | flushPending =>
      cases acts
      rw [CClientSocket.flushPending_eq]
      exact (fdIsValid_write _ _).trans closed
  | disconnectOnError => cases acts; rfl

end Closed

/-! ## The calls that were deferred -/

/-- What has been put behind the calls that waited. -/
def queued (client next : CClientSocket) : List Pending :=
  next.pendingOutgoing.drop client.pendingOutgoing.length

theorem queued_of_same {client next : CClientSocket}
    (same : next.pendingOutgoing = client.pendingOutgoing) : queued client next = [] := by
  rw [queued, same, List.drop_length]

/-- The calls of a queue, by what they were made for. -/
def origins (queue : List Pending) : List Origin := queue.map Pending.origin

namespace CClientSocket

/-- The calls of a queue that are on the wire. -/
def wired (client : CClientSocket) (queue : List Pending) : List Origin :=
  client.wireOrigins.filter (· ∈ origins queue)

/-- The client with no other calls on the wire than those of a queue. -/
def onlyQueued (client : CClientSocket) (queue : List Pending) : CClientSocket :=
  { client with sent := client.sent.filter fun sent => sent.origin ∈ (origins queue).map some }

theorem wireOrigins_onlyQueued (client : CClientSocket) (queue : List Pending) :
    (client.onlyQueued queue).wireOrigins = client.wired queue := by
  rw [wired, wireOrigins, wireOrigins, onlyQueued]
  induction client.sent with
  | nil => rfl
  | cons sent rest ih =>
      cases made : sent.origin with
      | none =>
          rw [List.filter_cons_of_neg (by simp [made]), List.filterMap_cons_none made, ih]
      | some origin =>
          by_cases listed : origin ∈ origins queue
          · rw [List.filter_cons_of_pos (by simp [made, listed]), List.filterMap_cons_some made,
              List.filterMap_cons_some made, List.filter_cons_of_pos (by simp [listed]), ih]
          · rw [List.filter_cons_of_neg (by simp [made, listed]), List.filterMap_cons_some made,
              List.filter_cons_of_neg (by simp [listed]), ih]

end CClientSocket

/-- What holds of a client and the calls that were deferred so far. -/
structure Queued (queue : List Pending) (client : CClientSocket) : Prop where
  numbers : queue.Pairwise fun first second => first.origin.number < second.origin.number
  below : ∀ pending ∈ queue, pending.origin.number < client.made
  once : ((client.wireOrigins ++ client.waitingOrigins).map Origin.number).Nodup
  counted : ∀ origin ∈ client.wireOrigins ++ client.waitingOrigins, origin.number < client.made
  waits : ∀ pending ∈ client.pendingOutgoing, pending ∈ queue
  ordered : Ordered (client.onlyQueued queue)
  there : ∀ pending ∈ queue, pending ∈ client.pendingOutgoing ∨
    pending.origin ∈ client.wireOrigins ∨ client.fdIsValid = false

theorem queued_opened : Queued [] .opened where
  numbers := .nil
  below _ listed := absurd listed List.not_mem_nil
  once := .nil
  counted _ listed := absurd listed List.not_mem_nil
  waits _ listed := absurd listed List.not_mem_nil
  ordered := ⟨.nil, fun _ listed => absurd listed List.not_mem_nil,
    fun _ listed => absurd listed List.not_mem_nil⟩
  there _ listed := absurd listed List.not_mem_nil

/-- The calls of a queue on the wire are in order, when those of a client are that has the
same ones. -/
theorem ordered_onlyQueued {first second : CClientSocket} {queue : List Pending}
    (wire : second.wired queue = first.wireOrigins)
    (waiting : second.pendingOutgoing = first.pendingOutgoing) (made : second.made = first.made)
    (objects : second.objects = first.objects) (ordered : Ordered first) :
    Ordered (second.onlyQueued queue) := by
  have calls : SameCalls first (second.onlyQueued queue) := by
    refine ⟨?_, waiting, made, fun index object has => ⟨object, ?_, rfl⟩⟩
    · rw [CClientSocket.wireOrigins_onlyQueued, wire]
    · rw [← objects] at has
      exact has
  exact calls.ordered ordered

namespace Queued

variable {client next : CClientSocket} {queue : List Pending}

/-- What makes no call and flushes none keeps the queue. -/
theorem sameCalls (holds : Queued queue client) (same : SameCalls client next)
    (closed : client.fdIsValid = false → next.fdIsValid = false) : Queued queue next where
  numbers := holds.numbers
  below := same.made ▸ holds.below
  once := by
    rw [CClientSocket.waitingOrigins, same.wire, same.waiting]
    exact holds.once
  counted := by
    rw [CClientSocket.waitingOrigins, same.wire, same.waiting, same.made]
    exact holds.counted
  waits := same.waiting ▸ holds.waits
  ordered := by
    have calls : SameCalls (client.onlyQueued queue) (next.onlyQueued queue) := by
      refine ⟨?_, same.waiting, same.made, same.seqs⟩
      rw [CClientSocket.wireOrigins_onlyQueued, CClientSocket.wireOrigins_onlyQueued,
        CClientSocket.wired, same.wire, CClientSocket.wired]
    exact calls.ordered holds.ordered
  there := by
    intro pending listed
    rw [same.waiting, same.wire]
    exact (holds.there pending listed).imp_right (Or.imp_right closed)

/-- A call more, which is the last one made. -/
theorem nodup_succ (holds : Queued queue client) {all : List Origin} {origin : Origin}
    (more : all.Perm (client.wireOrigins ++ client.waitingOrigins ++ [origin]))
    (number : origin.number = client.made) : (all.map Origin.number).Nodup := by
  refine (more.map Origin.number).nodup_iff.mpr ?_
  rw [List.map_append]
  refine List.nodup_append.mpr ⟨holds.once, List.nodup_singleton _, ?_⟩
  intro first before second last same
  obtain ⟨origin', listed, rfl⟩ := List.mem_map.mp before
  rw [List.map_singleton, List.mem_singleton, number] at last
  exact Nat.ne_of_lt (holds.counted origin' listed) (same.trans last)

theorem counted_succ (holds : Queued queue client) {all : List Origin} {origin : Origin}
    (more : all.Perm (client.wireOrigins ++ client.waitingOrigins ++ [origin]))
    (number : origin.number = client.made) : ∀ origin ∈ all, origin.number < client.made + 1 := by
  intro origin' listed
  rcases List.mem_append.mp (more.mem_iff.mp listed) with before | last
  · exact Nat.lt_succ_of_lt (holds.counted origin' before)
  · rw [List.mem_singleton.mp last, number]
    exact Nat.lt_succ_self _

/-- A call that is deferred is the last one of the queue. -/
theorem defer (holds : Queued queue client) {index : Nat} {object : IWireObject}
    {msg : CGenericProtocolMessage} (has : client.objects[index]? = some object)
    (depends : msg.dependsOnSeq = object.seq) :
    Queued (queue ++ [⟨msg, ⟨index, client.made⟩⟩]) (client.defer index msg) := by
  have waiting : (client.defer index msg).waitingOrigins =
      client.waitingOrigins ++ [⟨index, client.made⟩] := List.map_append
  have wire : (client.defer index msg).wireOrigins = client.wireOrigins := rfl
  have more : ((client.defer index msg).wireOrigins ++ (client.defer index msg).waitingOrigins).Perm
      (client.wireOrigins ++ client.waitingOrigins ++ [⟨index, client.made⟩]) := by
    rw [wire, waiting, List.append_assoc]
  refine ⟨?_, ?_, holds.nodup_succ more rfl, holds.counted_succ more rfl, ?_, ?_, ?_⟩
  · refine List.pairwise_append.mpr ⟨holds.numbers, List.pairwise_singleton _ _, ?_⟩
    intro first before second last
    rw [List.mem_singleton.mp last]
    exact holds.below first before
  · refine List.forall_mem_append.mpr ⟨?_, ?_⟩
    · exact fun pending before => Nat.lt_succ_of_lt (holds.below pending before)
    · intro pending last
      rw [List.mem_singleton.mp last]
      exact Nat.lt_succ_self _
  · refine List.forall_mem_append.mpr ⟨?_, ?_⟩
    · exact fun pending before => List.mem_append_left _ (holds.waits pending before)
    · exact fun pending last => List.mem_append_right _ last
  · have deferred : Ordered ((client.onlyQueued queue).defer index msg) :=
      holds.ordered.defer has depends
    refine @ordered_onlyQueued ((client.onlyQueued queue).defer index msg) _ _ ?_ rfl rfl rfl
      deferred
    rw [show ((client.onlyQueued queue).defer index msg).wireOrigins =
      (client.onlyQueued queue).wireOrigins from rfl, CClientSocket.wireOrigins_onlyQueued]
    -- The call that was just made is not on the wire.
    refine List.filter_congr fun origin wired => decide_eq_decide.mpr ?_
    rw [origins, List.map_append, List.mem_append, origins]
    refine or_iff_left fun last => ?_
    have less := holds.counted origin (List.mem_append_left _ wired)
    rw [List.mem_singleton.mp last] at less
    exact Nat.lt_irrefl _ less
  · refine List.forall_mem_append.mpr ⟨?_, ?_⟩
    · intro pending before
      exact (holds.there pending before).imp_left (List.mem_append_left _)
    · exact fun pending last => .inl (List.mem_append_right _ last)

/-- A call that is written at once is none of the queue. -/
theorem direct (holds : Queued queue client) (index : Nat) (msg : CGenericProtocolMessage) :
    Queued queue (client.direct index msg) := by
  have waiting : (client.direct index msg).pendingOutgoing = client.pendingOutgoing :=
    direct_pendingOutgoing ..
  have objects : (client.direct index msg).objects = client.objects :=
    CClientSocket.objects_write client _
  have wire : (client.direct index msg).wireOrigins = client.wireOrigins ++
      if client.fdIsValid then [⟨index, client.made⟩] else [] :=
    wireOrigins_write client [⟨.generic msg.data msg.fds, some ⟨index, client.made⟩⟩]
  have once : (((client.direct index msg).wireOrigins ++
        (client.direct index msg).waitingOrigins).map Origin.number).Nodup ∧
      ∀ origin ∈ (client.direct index msg).wireOrigins ++
        (client.direct index msg).waitingOrigins, origin.number < client.made + 1 := by
    rw [CClientSocket.waitingOrigins, waiting, wire]
    split
    · have more : (client.wireOrigins ++ [(⟨index, client.made⟩ : Origin)] ++
          client.pendingOutgoing.map Pending.origin).Perm
          (client.wireOrigins ++ client.waitingOrigins ++ [⟨index, client.made⟩]) := by
        rw [List.append_assoc, List.append_assoc]
        exact List.perm_append_comm.append_left _
      exact ⟨holds.nodup_succ more rfl, holds.counted_succ more rfl⟩
    · rw [List.append_nil]
      exact ⟨holds.once, fun origin listed => Nat.lt_succ_of_lt (holds.counted origin listed)⟩
  refine ⟨holds.numbers, ?_, once.1, once.2, waiting ▸ holds.waits, ?_, ?_⟩
  · exact fun pending listed => Nat.lt_succ_of_lt (holds.below pending listed)
  · have counted : Ordered { client.onlyQueued queue with made := client.made + 1 } :=
      ⟨holds.ordered.order,
        fun origin listed => Nat.lt_succ_of_lt (holds.ordered.numbered origin listed),
        holds.ordered.depends⟩
    refine @ordered_onlyQueued { client.onlyQueued queue with made := client.made + 1 } _ _ ?_
      waiting rfl objects counted
    rw [show CClientSocket.wireOrigins { client.onlyQueued queue with made := client.made + 1 } =
      (client.onlyQueued queue).wireOrigins from rfl, CClientSocket.wireOrigins_onlyQueued,
      CClientSocket.wired, wire, List.filter_append, CClientSocket.wired]
    refine List.append_right_eq_self.mpr (List.filter_eq_nil_iff.mpr fun origin new => ?_)
    split at new
    · rw [List.mem_singleton.mp new, decide_eq_true_eq]
      intro listed
      obtain ⟨pending, before, same⟩ := List.mem_map.mp listed
      have less := holds.below pending before
      rw [same] at less
      exact Nat.lt_irrefl _ less
    · cases new
  · intro pending listed
    rw [waiting, wire]
    refine (holds.there pending listed).imp_right ?_
    rintro (wired | closed)
    · exact .inl (List.mem_append_left _ wired)
    · exact .inr ((fdIsValid_write client _).trans closed)

/-- What the flush writes does not go on waiting. -/
theorem keeps_of_resolved {pending : Pending} (sends : (client.resolved pending).isSome = true) :
    client.keeps pending = false := by
  rw [CClientSocket.resolved] at sends
  rw [CClientSocket.keeps]
  split at sends
  · next found => rw [found]
  · cases sends

/-- The flush moves calls to the wire. -/
theorem once_flushPending (holds : Queued queue client) :
    ((client.flushPending.wireOrigins ++ client.flushPending.waitingOrigins).map
      Origin.number).Nodup := by
  have once := holds.once
  rw [List.map_append, CClientSocket.waitingOrigins] at once
  obtain ⟨wire, waiting, apart⟩ := List.nodup_append.mp once
  have part := client.flushed_sublist
  have others : (client.pendingOutgoing.filter client.keeps).Sublist client.pendingOutgoing :=
    List.filter_sublist
  have numbers : ∀ {some : List Pending}, some.Sublist client.pendingOutgoing →
      ((some.map Pending.origin).map Origin.number).Sublist
        ((client.pendingOutgoing.map Pending.origin).map Origin.number) :=
    fun sublist => (sublist.map _).map _
  rw [wireOrigins_flushPending, waitingOrigins_flushPending, List.append_assoc, List.map_append,
    List.map_append]
  refine List.nodup_append.mpr ⟨wire, List.nodup_append.mpr
    ⟨waiting.sublist (numbers part), waiting.sublist (numbers others), ?_⟩, ?_⟩
  · intro first writes second keeps same
    rw [List.map_map] at writes keeps waiting
    obtain ⟨one, flushed, rfl⟩ := List.mem_map.mp writes
    obtain ⟨two, stays, rfl⟩ := List.mem_map.mp keeps
    obtain rfl := List.inj_on_of_nodup_map waiting (part.subset flushed) (others.subset stays) same
    have both := (List.mem_filter.mp stays).2
    rw [keeps_of_resolved (CClientSocket.resolved_of_flushed flushed)] at both
    cases both
  · intro first before second either
    refine apart first before second ?_
    rcases List.mem_append.mp either with writes | keeps
    · exact (numbers part).subset writes
    · exact (numbers others).subset keeps

theorem counted_flushPending (holds : Queued queue client) :
    ∀ origin ∈ client.flushPending.wireOrigins ++ client.flushPending.waitingOrigins,
      origin.number < client.made := by
  rw [wireOrigins_flushPending, waitingOrigins_flushPending, List.append_assoc]
  intro origin either
  refine holds.counted origin ?_
  rcases List.mem_append.mp either with before | later
  · exact List.mem_append_left _ before
  · refine List.mem_append_right _ ?_
    rcases List.mem_append.mp later with writes | keeps
    · exact (client.flushed_sublist.map _).subset writes
    · exact (List.filter_sublist.map _).subset keeps

/-- **The flush keeps the queue**: no message is dropped. -/
theorem flushPending (holds : Queued queue client) (kept : Kept client) :
    Queued queue client.flushPending := by
  refine ⟨holds.numbers, ?_, holds.once_flushPending, ?_, ?_, ?_, ?_⟩
  · rw [made_flushPending]
    exact holds.below
  · rw [made_flushPending]
    exact holds.counted_flushPending
  · rw [pendingOutgoing_flushPending]
    exact fun pending waits => holds.waits pending (List.mem_filter.mp waits).1
  · have flushed : Ordered (client.onlyQueued queue).flushPending := holds.ordered.flushPending
    refine @ordered_onlyQueued (client.onlyQueued queue).flushPending _ _ ?_ ?_ ?_ ?_ flushed
    · rw [wireOrigins_flushPending, CClientSocket.wireOrigins_onlyQueued, CClientSocket.wired,
        wireOrigins_flushPending, List.filter_append, CClientSocket.wired]
      refine congrArg _ (List.filter_eq_self.mpr fun origin writes => ?_)
      obtain ⟨pending, flushes, rfl⟩ := List.mem_map.mp writes
      have listed := holds.waits pending (client.flushed_sublist.subset flushes)
      exact decide_eq_true (List.mem_map_of_mem listed)
    · rw [pendingOutgoing_flushPending, pendingOutgoing_flushPending]
      rfl
    · rw [made_flushPending, made_flushPending]
      rfl
    · rw [objects_flushPending, objects_flushPending]
      rfl
  · intro pending listed
    rw [pendingOutgoing_flushPending, wireOrigins_flushPending]
    rcases holds.there pending listed with waits | wired | closed
    · obtain ⟨object, there, depends⟩ := kept.depends pending waits
      rcases CClientSocket.keeps_or_resolved there depends with keeps | sends
      · exact .inl (List.mem_filter.mpr ⟨waits, keeps⟩)
      · cases isOpen : client.fdIsValid with
        | true =>
            refine .inr (.inl (List.mem_append_right _ (List.mem_map_of_mem ?_)))
            rw [CClientSocket.flushed, if_pos isOpen]
            exact List.mem_filter.mpr ⟨waits, sends⟩
        | false =>
            refine .inr (.inr ?_)
            rw [CClientSocket.flushPending_eq]
            exact (fdIsValid_write client _).trans isOpen
    · exact .inr (.inl (List.mem_append_left _ wired))
    · refine .inr (.inr ?_)
      rw [CClientSocket.flushPending_eq]
      exact (fdIsValid_write client _).trans closed

/-- What has been put behind the calls that waited is queued. -/
theorem grows {new : List Pending} (holds : Queued (queue ++ new) next)
    (waiting : next.pendingOutgoing = client.pendingOutgoing ++ new) :
    Queued (queue ++ queued client next) next := by
  rw [queued, waiting, List.drop_left]
  exact holds

theorem stays (holds : Queued queue next)
    (waiting : next.pendingOutgoing = client.pendingOutgoing) :
    Queued (queue ++ queued client next) next := by
  rw [queued_of_same waiting, List.append_nil]
  exact holds

theorem call {impls : Impls} {index : Nat} {id result : UInt32} {args : List Arg}
    (holds : Queued queue client) (called : client.call impls index id args = .ok (result, next)) :
    Queued (queue ++ queued client next) next := by
  obtain ⟨object, spec, outcome, seq, has, -, made, after⟩ := CClientSocket.call_eq_ok.mp called
  have counted : Queued queue { client with seq } :=
    holds.sameCalls (.of_fields rfl rfl rfl rfl) fun closed => closed
  obtain rfl : next = _ := congrArg Prod.snd after
  have makes : ∀ {queue : List Pending} {called : CClientSocket} (kind), Queued queue called →
      Queued queue (CClientSocket.returned impls object called kind).2 := by
    intro queue called kind holds
    refine holds.sameCalls (.returned impls object called kind) fun closed => ?_
    exact (fdIsValid_returned impls object called kind).trans closed
  cases outcome with
  | error message => exact counted.stays rfl
  | errd =>
      have failed : Queued queue { client with seq, error := true } :=
        counted.sameCalls (.of_fields rfl rfl rfl rfl) fun closed => closed
      exact failed.stays rfl
  | defer msg kind =>
      obtain ⟨-, method, arguments, fds, -, -, -, -, rfl⟩ := call_eq_defer made
      exact (makes kind (counted.defer has rfl)).grows (returned_pendingOutgoing _ _ _ _)
  | send msg kind =>
      refine (makes kind (counted.direct index msg)).stays ?_
      exact (returned_pendingOutgoing _ _ _ _).trans (direct_pendingOutgoing _ _ _)

/-- **An act keeps the queue**, with the call that it defers. -/
theorem act {impls : Impls} {act : Act} (holds : Queued queue client) (kept : Kept client)
    (acts : client.act impls act = some (.ok next)) :
    Queued (queue ++ queued client next) next := by
  rcases act_sameCalls acts with ⟨index, id, args, rfl⟩ | rfl | same
  · obtain ⟨⟨result, _⟩, called, rfl⟩ := map_eq_ok.mp (Option.some.inj acts)
    exact holds.call called
  · cases acts
    have none : queued client client.flushPending = [] := by
      rw [queued, pendingOutgoing_flushPending]
      exact List.drop_eq_nil_of_le (List.length_filter_le _ _)
    rw [none, List.append_nil]
    exact holds.flushPending kept
  · exact (holds.sameCalls same (act_closed acts)).stays same.waiting

end Queued

end Hyprwire.Client
