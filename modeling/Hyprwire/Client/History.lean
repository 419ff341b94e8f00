import Hyprwire.Client.Handles
import Hyprwire.Client.Queue

/-!
# What becomes of deferred calls

A `History` is a run of the client whose listeners may dispatch, with the calls that were
deferred in it and the number of the sequences that were used. `deferred_calls` says what
becomes of them: each is on the wire once at most, those of one object in the order of the
queue. A call leaves the queue only when its object was announced (`Released`). Then it is
written, but `sendMessage` does nothing once an error has closed the descriptor, and such a call
is never sent (`deferred_call_lost`). When the outermost dispatch returns true, every call that
waits is of an object without an identifier.
-/

set_option autoImplicit false

namespace Hyprwire.Client

open Cpp Wire Object

/-! ## Objects without an identifier -/

/-- The object that a call was made for has no identifier. -/
def Unassigned (client : CClientSocket) (pending : Pending) : Prop :=
  ∃ object, client.objects[pending.origin.object]? = some object ∧ object.id = 0

/-- Only an announcement gives an object an identifier. -/
theorem Unassigned.allocates {client next : CClientSocket} {act : Act} {pending : Pending}
    (unassigned : Unassigned client pending) (allocates : Allocates client act next)
    (other : ∀ seq id, act ≠ .receive (.newObject seq id)) : Unassigned next pending := by
  obtain ⟨object, has, zero⟩ := unassigned
  have handle : client.handles[pending.origin.object]? = some (object.seq, object.id) := by
    rw [CClientSocket.handles, List.getElem?_map, has]
    rfl
  have later : next.handles[pending.origin.object]? = some (object.seq, object.id) := by
    cases allocates with
    | nothing handles => rw [handles, handle]
    | counted handles => rw [handles, handle]
    | made handles =>
        rw [handles, List.getElem?_append_left (List.getElem?_eq_some_iff.mp handle).1, handle]
    | assigned seq id index announced => exact absurd announced (other seq id)
  rw [CClientSocket.handles, List.getElem?_map] at later
  obtain ⟨object', has', same⟩ := Option.map_eq_some_iff.mp later
  exact ⟨object', has', (congrArg Prod.snd same).trans zero⟩

/-- An object is found by its sequence. -/
theorem Sequenced.objectForSeq {used : Nat} {client : CClientSocket} {object : IWireObject}
    (sequenced : Sequenced used client) (listed : object ∈ client.objects) :
    client.objectForSeq object.seq = some object := by
  have different : (client.objects.map IWireObject.seq).Nodup :=
    List.pairwise_map.mpr sequenced.pairwise_seq
  have found : (client.objectForSeq object.seq).isSome := by
    rw [CClientSocket.objectForSeq, List.find?_isSome]
    exact ⟨object, listed, decide_eq_true rfl⟩
  obtain ⟨first, found⟩ := Option.isSome_iff_exists.mp found
  rw [CClientSocket.objectForSeq] at found ⊢
  have same := List.find?_some found
  rw [decide_eq_true_eq] at same
  rw [found, List.inj_on_of_nodup_map different (List.mem_of_find?_eq_some found) listed same]

section Flush

variable {client : CClientSocket} {used : Nat} {queue : List Pending} {pending : Pending}

/-- The object of a call that waits. -/
theorem Queued.object (holds : Queued queue client) (sequenced : Sequenced used client)
    (waits : pending ∈ client.pendingOutgoing) :
    ∃ object, client.objects[pending.origin.object]? = some object ∧
      client.objectForSeq pending.msg.dependsOnSeq = some object := by
  obtain ⟨object, has, depends⟩ := holds.ordered.depends pending waits
  refine ⟨object, has, ?_⟩
  rw [depends]
  exact sequenced.objectForSeq (List.mem_of_getElem? has)

/-- What the flush keeps is of an object without an identifier. -/
theorem unassigned_of_keeps (holds : Queued queue client) (sequenced : Sequenced used client)
    (waits : pending ∈ client.pendingOutgoing) (keeps : client.keeps pending = true) :
    Unassigned client pending := by
  obtain ⟨object, has, found⟩ := holds.object sequenced waits
  refine ⟨object, has, ?_⟩
  by_contra identified
  simp [CClientSocket.keeps, CClientSocket.waiting, found, identified] at keeps

/-- What the flush does not keep is of an object with an identifier, and is written when the
descriptor is open. -/
theorem resolved_of_not_keeps (holds : Queued queue client) (sequenced : Sequenced used client)
    (waits : pending ∈ client.pendingOutgoing) (leaves : client.keeps pending = false) :
    ∃ object, client.objects[pending.origin.object]? = some object ∧ object.id ≠ 0 ∧
      client.resolved pending = some ⟨.generic (pending.msg.resolveSeq object.id).data
        (pending.msg.resolveSeq object.id).fds, some pending.origin⟩ := by
  obtain ⟨object, has, found⟩ := holds.object sequenced waits
  have identified : object.id ≠ 0 := by
    intro zero
    simp [CClientSocket.keeps, CClientSocket.waiting, found, zero] at leaves
  refine ⟨object, has, identified, ?_⟩
  simp [CClientSocket.resolved, CClientSocket.waiting, found, identified]

end Flush

/-- A call that waits goes on waiting, except in the flush. -/
theorem act_waits {impls : Impls} {client next : CClientSocket} {act : Act}
    (acts : client.act impls act = some (.ok next)) (other : act ≠ .flushPending) :
    ∀ pending ∈ client.pendingOutgoing, pending ∈ next.pendingOutgoing := by
  rcases act_sameCalls acts with ⟨index, id, args, rfl⟩ | rfl | same
  · obtain ⟨⟨result, _⟩, called, rfl⟩ := map_eq_ok.mp (Option.some.inj acts)
    obtain ⟨object, spec, outcome, seq, -, -, -, after⟩ := CClientSocket.call_eq_ok.mp called
    rw [congrArg Prod.snd after]
    intro pending waits
    cases outcome with
    | error message => exact waits
    | errd => exact waits
    | defer msg kind =>
        rw [CClientSocket.afterCall, returned_pendingOutgoing]
        exact List.mem_append_left _ waits
    | send msg kind =>
        rw [CClientSocket.afterCall, returned_pendingOutgoing, direct_pendingOutgoing]
        exact waits
  · exact absurd rfl other
  · rw [same.waiting]
    exact fun pending waits => waits

/-- A call that is deferred is of an object without an identifier. -/
theorem act_defers {impls : Impls} {client next : CClientSocket} {act : Act}
    (acts : client.act impls act = some (.ok next)) :
    ∀ pending ∈ next.pendingOutgoing,
      pending ∈ client.pendingOutgoing ∨ Unassigned client pending := by
  rcases act_sameCalls acts with ⟨index, id, args, rfl⟩ | rfl | same
  · obtain ⟨⟨result, _⟩, called, rfl⟩ := map_eq_ok.mp (Option.some.inj acts)
    obtain ⟨object, spec, outcome, seq, has, -, made, after⟩ := CClientSocket.call_eq_ok.mp called
    rw [congrArg Prod.snd after]
    intro pending waits
    cases outcome with
    | error message => exact .inl waits
    | errd => exact .inl waits
    | defer msg kind =>
        rw [CClientSocket.afterCall, returned_pendingOutgoing] at waits
        rcases List.mem_append.mp waits with before | last
        · exact .inl before
        · rw [List.mem_singleton.mp last]
          exact .inr ⟨object, has, (call_eq_defer made).1⟩
    | send msg kind =>
        rw [CClientSocket.afterCall, returned_pendingOutgoing, direct_pendingOutgoing] at waits
        exact .inl waits
  · cases acts
    rw [pendingOutgoing_flushPending]
    exact fun pending waits => .inl (List.mem_filter.mp waits).1
  · rw [same.waiting]
    exact fun pending waits => .inl waits

/-! ## Histories -/

/-- What holds of a client, the calls that were deferred, and the messages that were
handled. -/
structure Deferring (queue : List Pending) (used : Nat) (client : CClientSocket)
    (log : List (Nat × Received)) : Prop where
  kept : Kept client
  sequenced : Sequenced used client
  queued : Queued queue client
  announced : ∀ handle ∈ client.handles, handle.2 ≠ 0 →
    ∃ number id, (number, Received.newObject handle.1 id) ∈ log

namespace Deferring

variable {impls : Impls} {queue : List Pending} {used : Nat} {client next : CClientSocket}
  {log log' : List (Nat × Received)}

/-- **An act keeps what holds**, when an announcement comes to the log. -/
theorem act {act : Act} (holds : Deferring queue used client log)
    (acts : client.act impls act = some (.ok next))
    (few : used + sequencesUsed client next < 2 ^ 32) (more : log ⊆ log')
    (announces : ∀ seq id, act = .receive (.newObject seq id) →
      ∃ number, (number, Received.newObject seq id) ∈ log') :
    Deferring (queue ++ Client.queued client next) (used + sequencesUsed client next) next log' where
  kept := holds.kept.act acts
  sequenced := holds.sequenced.allocates (act_allocates acts) few
  queued := holds.queued.act holds.kept acts
  announced := by
    have before : ∀ handle ∈ client.handles, handle.2 ≠ 0 →
        ∃ number id, (number, Received.newObject handle.1 id) ∈ log' := by
      intro handle listed identified
      obtain ⟨number, id, handled⟩ := holds.announced handle listed identified
      exact ⟨number, id, more handled⟩
    intro handle listed identified
    cases act_allocates acts with
    | nothing handles => exact before handle (handles ▸ listed) identified
    | counted handles => exact before handle (handles ▸ listed) identified
    | made handles =>
        rw [handles] at listed
        rcases List.mem_append.mp listed with early | last
        · exact before handle early identified
        · rw [List.mem_singleton.mp last] at identified
          exact absurd rfl identified
    | assigned seq id index announced found handles =>
        rw [handles] at listed
        rcases List.mem_or_eq_of_mem_set listed with early | rfl
        · exact before handle early identified
        · obtain ⟨number, handled⟩ := announces seq id announced
          exact ⟨number, id, handled⟩

/-- An act that defers nothing and uses no sequence. -/
theorem act_quiet {act : Act} (holds : Deferring queue used client log)
    (acts : client.act impls act = some (.ok next)) (few : used < 2 ^ 32)
    (waiting : next.pendingOutgoing = client.pendingOutgoing) (counter : next.seq = client.seq)
    (more : log ⊆ log') (announces : ∀ seq id, act = .receive (.newObject seq id) →
      ∃ number, (number, Received.newObject seq id) ∈ log') :
    Deferring queue used next log' := by
  have none : sequencesUsed client next = 0 := if_pos counter
  have after := @Deferring.act impls _ _ _ _ _ log' _ holds acts (by rwa [none]) more announces
  rwa [none, queued_of_same waiting, List.append_nil] at after

end Deferring

end Hyprwire.Client

namespace Hyprwire.Client.Reentrant

open Cpp Wire Object CGenericProtocolMessage

/-- A run of the client, with the calls that were deferred in it, in their order, and the
number of the sequences that it has used. -/
inductive History (impls : Impls) (heap : Heap) : List Pending → Nat → Process → Prop
  | opened : History impls heap [] 0 ⟨.opened, [], [], []⟩
  | step {queue : List Pending} {used : Nat} {p next : Process} {event : Event}
      (history : History impls heap queue used p) (steps : Step impls heap p event next) :
      History impls heap (queue ++ queued p.client next.client)
        (used + sequencesUsed p.client next.client) next

/-- What the loop over a batch has come to when it is left: all is as it was, or the batch has
failed in an error or at a message. -/
theorem leave_cases {heap : Heap} {batch : Batch} {client : CClientSocket}
    {h : Handled (CClientSocket × Option Invocation)}
    (turn : parseTurn (receiver heap) batch.data (batch.state client) = some (.leave (.ok h))) :
    (h.conn.1 = client ∧ h.handled = batch.handled) ∨
      h.result ≠ .parsedOk ∧
        (h.conn.1 = { client with error := true } ∧ h.handled = batch.handled ∨
          ∃ received, client.receive received = some (.ok h.conn) ∧
            h.handled = batch.handled ++ [received]) := by
  simp only [parseTurn] at turn
  split at turn
  · split at turn
    · cases turn
    · cases turn
    · cases turn
      exact .inl ⟨rfl, rfl⟩
    · cases turn
      exact .inr ⟨EMessageParsingResult.noConfusion, .inl ⟨rfl, rfl⟩⟩
    · next received len left read =>
      split at turn
      · cases turn
      · cases turn
      · next acted =>
        split at turn
        · cases turn
          exact .inr ⟨EMessageParsingResult.noConfusion, .inr ⟨received, acted, rfl⟩⟩
        · cases turn
  · cases turn
    exact .inl ⟨rfl, rfl⟩

/-- What a dispatch that reads nothing has done to the connection. -/
theorem begin_returned {client next : CClientSocket} {polled : Polled} {goesOn : Bool}
    (begun : begin client polled = .returned goesOn next) :
    next = client ∨ next = client.disconnectOnError ∧ goesOn = false := by
  simp only [begin] at begun
  split at begun
  · cases begun; exact .inl rfl
  · split at begun
    · split at begun
      · cases begun; exact .inl rfl
      · cases begun; exact .inr ⟨rfl, rfl⟩
    · cases begun; exact .inl rfl
    · cases begun; exact .inl rfl
    · cases begun; exact .inr ⟨rfl, rfl⟩
    · split at begun
      · cases begun; exact .inl rfl
      · cases begun

/-- A received message defers nothing and uses no sequence. -/
theorem receive_quiet {impls : Impls} {client next : CClientSocket} {received : Received}
    (acts : client.act impls (.receive received) = some (.ok next)) :
    next.pendingOutgoing = client.pendingOutgoing ∧ next.seq = client.seq := by
  obtain ⟨result, run, rest⟩ := Option.map_eq_some_iff.mp acts
  obtain ⟨⟨_, invocation⟩, rfl, rfl⟩ := map_eq_ok.mp rest
  refine ⟨(SameCalls.receive run).waiting, ?_⟩
  cases received with
  | newObject seq id =>
      cases run
      rw [CClientSocket.onSeq]
      split <;> rfl
  | handshakeBegin versions => cases run; exact client.seq_sendMessage _ _
  | handshakeProtocols protocols =>
      cases run
      obtain ⟨specs, error, isOpen, same, -⟩ := client.addServerSpecs_eq protocols
      rw [CClientSocket.takeServerSpecs, same]
  | generic msg => rw [(CClientSocket.onGeneric_eq_ok run).1]
  | fatalError objectId errorId errorMsg => cases run; rfl
  | roundtripDone seq => cases run; rfl
  | hello => cases run; rfl
  | handshakeAck version => cases run; rfl
  | bindProtocol protocol seq version => cases run; rfl
  | roundtripRequest seq => cases run; rfl

/-- What a step does to the connection, to the log and to the reads in progress. -/
inductive Moves (impls : Impls) (p next : Process) : Prop
  | same (client : next.client = p.client) (log : next.log = p.log)
      (frames : inProgress next.frames = inProgress p.frames ∨ inProgress next.frames ≠ [])
  | acts (act : Act) (acts : p.client.act impls act = some (.ok next.client))
      (calm : ∀ received, act ≠ .receive received) (stays : act ≠ .flushPending)
      (log : next.log = p.log) (frames : inProgress next.frames = inProgress p.frames)
  | handles (number : Nat) (received : Received)
      (acts : p.client.act impls (.receive received) = some (.ok next.client))
      (log : next.log = p.log ++ [(number, received)]) (busy : inProgress next.frames ≠ [])
  | flushes (client : next.client = p.client.flushPending) (log : next.log = p.log)
  | fails (middle : CClientSocket)
      (acts : middle = p.client ∨ middle = { p.client with error := true } ∨
        ∃ number received, p.client.act impls (.receive received) = some (.ok middle) ∧
          (number, received) ∈ next.log)
      (client : next.client = middle.disconnectOnError) (log : p.log ⊆ next.log)

/-- A message that is received is an act. -/
theorem act_receive {impls : Impls} {client next : CClientSocket} {received : Received}
    {invocation : Option Invocation}
    (acted : client.receive received = some (.ok (next, invocation))) :
    client.act impls (.receive received) = some (.ok next) := by
  rw [CClientSocket.act, acted]
  rfl

theorem step_moves {impls : Impls} {heap : Heap} {p next : Process} {event : Event}
    (steps : Step impls heap p event next) : Moves impls p next := by
  cases steps with
  | @call index id result args client control called =>
      refine .acts (.call index id args) ?_ (fun _ same => by cases same) (fun same => by cases same)
        rfl rfl
      simp only [CClientSocket.act, called]
      rfl
  | @listen index id fn client control listens =>
      refine .acts (.listen index id fn) ?_ (fun _ same => by cases same)
        (fun same => by cases same) rfl rfl
      simp only [CClientSocket.act, listens]
  | roundtrip control clean =>
      exact .acts .roundtrip rfl (fun _ same => by cases same) (fun same => by cases same) rfl rfl
  | @bindProtocol spec version object client control bound =>
      refine .acts (.bindProtocol spec version) ?_ (fun _ same => by cases same)
        (fun same => by cases same) rfl rfl
      simp only [CClientSocket.act, bound]
      rfl
  | @bindRefused spec version client control refused =>
      refine .acts (.bindProtocol spec version) ?_ (fun _ same => by cases same)
        (fun same => by cases same) rfl rfl
      simp only [CClientSocket.act, refused]
      rfl
  | waitForHandshake control => exact .same rfl rfl (.inl rfl)
  | listened top => exact .same rfl rfl (.inl (by rw [top]; rfl))
  | waited top loop ends =>
      refine .same rfl rfl (.inl ?_)
      rw [top, inProgress, inProgress, List.filterMap_cons_none loop]
  | poll calls begun =>
      rcases begin_returned begun with rfl | ⟨rfl, -⟩
      · exact .same rfl rfl (.inl (inProgress_returned _ _))
      · exact .acts .disconnectOnError rfl (fun _ same => by cases same)
          (fun same => by cases same) rfl (inProgress_returned _ _)
  | read calls begun => exact .same rfl rfl (.inr (List.cons_ne_nil _ _))
  | message top is turn =>
      obtain ⟨-, len, -, acted, -⟩ := message_of_next turn
      exact .handles _ _ (act_receive acted) rfl (List.cons_ne_nil _ _)
  | @leave number rest batch h top is turn =>
      rcases leave_cases turn with ⟨client, handled⟩ | ⟨failed, client⟩
      · have log : p.log ++ (h.handled.drop batch.handled.length).map (Prod.mk number) = p.log := by
          rw [handled, List.drop_length, List.map_nil, List.append_nil]
        by_cases parsed : h.result = .parsedOk
        · refine .flushes ?_ log
          rw [finish, if_neg (not_not.mpr parsed), client]
        · refine .fails p.client (.inl rfl) ?_ (List.subset_append_left _ _)
          rw [finish, if_pos parsed, client]
      · have ends : (finish h.result h.conn.1).2 = h.conn.1.disconnectOnError := by
          rw [finish, if_pos failed]
        rcases client with ⟨client, -⟩ | ⟨received, acted, handled⟩
        · exact .fails _ (.inr (.inl client)) ends (List.subset_append_left _ _)
        · refine .fails _ (.inr (.inr ⟨number, received, act_receive acted, ?_⟩)) ends
            (List.subset_append_left _ _)
          rw [handled, List.drop_left]
          exact List.mem_append_right _ List.mem_cons_self

section Steps

variable {impls : Impls} {heap : Heap} {queue : List Pending} {used : Nat} {p next : Process}
  {event : Event}

/-- The end of a batch that has failed. -/
theorem deferring_disconnect {client middle : CClientSocket} {log : List (Nat × Received)}
    (holds : Deferring queue used middle log) (few : used < 2 ^ 32)
    (waiting : middle.pendingOutgoing = client.pendingOutgoing) (counter : middle.seq = client.seq) :
    Deferring (queue ++ queued client middle.disconnectOnError)
      (used + sequencesUsed client middle.disconnectOnError) middle.disconnectOnError log := by
  have after : Deferring queue used middle.disconnectOnError log :=
    @Deferring.act_quiet [] _ _ _ _ _ log .disconnectOnError holds rfl few rfl rfl
      (List.Subset.refl _) (fun _ _ same => by cases same)
  have none : sequencesUsed client middle.disconnectOnError = 0 := if_pos counter
  have same : queued client middle.disconnectOnError = [] := queued_of_same waiting
  rwa [none, same, List.append_nil]

/-- **A step keeps what holds** of the calls that were deferred. -/
theorem deferring_moves (holds : Deferring queue used p.client p.log)
    (moves : Moves impls p next) (few : used + sequencesUsed p.client next.client < 2 ^ 32) :
    Deferring (queue ++ queued p.client next.client)
      (used + sequencesUsed p.client next.client) next.client next.log := by
  have now : used < 2 ^ 32 := Nat.lt_of_le_of_lt (Nat.le_add_right _ _) few
  cases moves with
  | same client log =>
      rw [client, log, queued_of_same rfl, List.append_nil,
        show sequencesUsed p.client p.client = 0 from if_pos rfl]
      exact holds
  | acts act acts calm stays log =>
      exact holds.act acts few (log ▸ List.Subset.refl _)
        (fun seq id same => absurd same (calm _))
  | handles number received acts log =>
      refine holds.act acts few (log ▸ List.subset_append_left _ _) ?_
      intro seq id same
      refine ⟨number, ?_⟩
      rw [log, Act.receive.inj same]
      exact List.mem_append_right _ List.mem_cons_self
  | flushes client log =>
      have acts : p.client.act impls .flushPending = some (.ok next.client) := by
        rw [client]
        rfl
      exact holds.act acts few (log ▸ List.Subset.refl _) (fun _ _ same => by cases same)
  | fails middle acts client log =>
      have kept : Deferring queue used middle next.log ∧
          middle.pendingOutgoing = p.client.pendingOutgoing ∧ middle.seq = p.client.seq := by
        rcases acts with rfl | rfl | ⟨number, received, acts, handled⟩
        · exact ⟨⟨holds.kept, holds.sequenced, holds.queued, fun handle listed identified =>
            (holds.announced handle listed identified).imp fun _ => Exists.imp fun _ => @log _⟩,
            rfl, rfl⟩
        · have refused := @Deferring.act_quiet impls _ _ _ _ _ next.log .refuse holds rfl now rfl rfl
            log (fun _ _ same => by cases same)
          exact ⟨refused, rfl, rfl⟩
        · obtain ⟨waiting, counter⟩ := receive_quiet acts
          refine ⟨holds.act_quiet acts now waiting counter log ?_, waiting, counter⟩
          intro seq id same
          exact ⟨number, Act.receive.inj same ▸ handled⟩
      rw [client]
      exact deferring_disconnect kept.1 now kept.2.1 kept.2.2

/-- What waits between two dispatches is of objects without an identifier. -/
def Settled (p : Process) : Prop :=
  p.client.error = false → inProgress p.frames = [] →
    ∀ pending ∈ p.client.pendingOutgoing, Unassigned p.client pending

theorem settled_moves (settled : Settled p) (holds : Deferring queue used p.client p.log)
    (moves : Moves impls p next) : Settled next := by
  intro clean outside pending waits
  cases moves with
  | same client log frames =>
      rw [client] at clean waits ⊢
      refine settled clean ?_ pending waits
      rcases frames with frames | busy
      · rw [← frames]
        exact outside
      · exact absurd outside busy
  | acts act acts calm stays log frames =>
      have before : p.client.error = false := by
        cases errs : p.client.error with
        | false => rfl
        | true =>
            rw [(act_asks holds.kept.headed acts).errors errs] at clean
            cases clean
      have unassigned : Unassigned p.client pending := by
        rcases act_defers acts pending waits with early | new
        · exact settled before (frames.symm.trans outside) pending early
        · exact new
      exact unassigned.allocates (act_allocates acts) fun seq id => calm _
  | handles number received acts log busy => exact absurd outside busy
  | flushes client log =>
      rw [client, pendingOutgoing_flushPending] at waits
      obtain ⟨early, keeps⟩ := List.mem_filter.mp waits
      have unassigned := unassigned_of_keeps holds.queued holds.sequenced early keeps
      rw [client, Unassigned, objects_flushPending]
      exact unassigned
  | fails middle acts client log =>
      rw [client] at clean
      cases clean

/-- A call is taken from the queue: its object has an identifier, which was announced before,
and it is written unless the descriptor is closed. -/
def Released (p next : Process) (pending : Pending) : Prop :=
  ∃ object number id, p.client.objects[pending.origin.object]? = some object ∧ object.id ≠ 0 ∧
    (number, Received.newObject object.seq id) ∈ p.log ∧
    (⟨.generic (pending.msg.resolveSeq object.id).data (pending.msg.resolveSeq object.id).fds,
        some pending.origin⟩ ∈ next.client.sent ∨
      p.client.fdIsValid = false ∧ p.client.error = true)

theorem released_moves (holds : Deferring queue used p.client p.log) (moves : Moves impls p next)
    {pending : Pending} (waits : pending ∈ p.client.pendingOutgoing)
    (gone : pending ∉ next.client.pendingOutgoing) : Released p next pending := by
  cases moves with
  | same client log frames =>
      rw [client] at gone
      exact absurd waits gone
  | acts act acts calm stays log frames => exact absurd (act_waits acts stays pending waits) gone
  | handles number received acts log busy =>
      exact absurd (act_waits acts (fun same => by cases same) pending waits) gone
  | flushes client log =>
      rw [client, pendingOutgoing_flushPending] at gone
      have leaves : p.client.keeps pending = false := by
        cases keeps : p.client.keeps pending with
        | false => rfl
        | true => exact absurd (List.mem_filter.mpr ⟨waits, keeps⟩) gone
      obtain ⟨object, has, identified, resolved⟩ :=
        resolved_of_not_keeps holds.queued holds.sequenced waits leaves
      have listed : (object.seq, object.id) ∈ p.client.handles :=
        List.mem_map_of_mem (List.mem_of_getElem? has)
      obtain ⟨number, id, announced⟩ := holds.announced _ listed identified
      refine ⟨object, number, id, has, identified, announced, ?_⟩
      cases isOpen : p.client.fdIsValid with
      | false => exact .inr ⟨rfl, holds.kept.closed isOpen⟩
      | true =>
          left
          rw [client, CClientSocket.flushPending_eq, CClientSocket.write, if_pos isOpen]
          exact List.mem_append_right _ (List.mem_filterMap.mpr ⟨pending, waits, resolved⟩)
  | fails middle acts client log =>
      rw [client] at gone
      refine absurd ?_ gone
      show pending ∈ middle.pendingOutgoing
      rcases acts with rfl | rfl | ⟨number, received, acts, handled⟩
      · exact waits
      · exact waits
      · rw [(receive_quiet acts).1]
        exact waits

/-- **What holds in every run**, while there are sequences left. -/
theorem History.deferring (history : History impls heap queue used p) (few : used < 2 ^ 32) :
    Deferring queue used p.client p.log ∧ Settled p := by
  induction history with
  | opened =>
      refine ⟨⟨kept_opened, sequenced_opened, queued_opened, ?_⟩, ?_⟩
      · exact fun handle none => absurd none List.not_mem_nil
      · exact fun _ _ pending none => absurd none List.not_mem_nil
  | step history steps ih =>
      obtain ⟨holds, settled⟩ := ih (Nat.lt_of_le_of_lt (Nat.le_add_right _ _) few)
      have moves := step_moves steps
      exact ⟨deferring_moves holds moves few, settled_moves settled holds moves⟩

end Steps

/-! ## Deferred calls -/

/-- The outermost `dispatchEvents` returns true, with the connection that it leaves. -/
inductive ReturnsTrue (heap : Heap) (p : Process) (client : CClientSocket) : Prop
  | polled {polled : Polled} (outermost : inProgress p.frames = [])
      (begun : begin p.client polled = .returned true client)
  | left {number : Nat} {rest : List Frame} {batch : Batch}
      {h : Handled (CClientSocket × Option Invocation)}
      (top : p.frames = .dispatchEvents number false :: rest) (outermost : inProgress rest = [])
      (is : p.batches[number]? = some batch)
      (turn : parseTurn (receiver heap) batch.data (batch.state p.client) =
        some (.leave (.ok h)))
      (finished : finish h.result h.conn.1 = (true, client))

theorem unassigned_of_returnsTrue {heap : Heap} {queue : List Pending} {used : Nat} {p : Process}
    {client : CClientSocket} (holds : Deferring queue used p.client p.log) (settled : Settled p)
    (returns : ReturnsTrue heap p client) :
    ∀ pending ∈ client.pendingOutgoing, Unassigned client pending := by
  cases returns with
  | polled outermost begun =>
      have clean : p.client.error = false := by
        cases errs : p.client.error with
        | false => rfl
        | true =>
            simp only [begin, if_pos errs] at begun
            cases begun
      rcases begin_returned begun with rfl | ⟨-, failed⟩
      · exact settled clean outermost
      · cases failed
  | @left number rest batch h top outermost is turn finished =>
      have parsed : h.result = .parsedOk := by
        by_contra failed
        rw [finish, if_pos failed] at finished
        cases finished
      rcases leave_cases turn with ⟨same, -⟩ | ⟨failed, -⟩
      · rw [finish, if_neg (not_not.mpr parsed), same] at finished
        obtain rfl : p.client.flushPending = client := congrArg Prod.snd finished
        intro pending waits
        rw [pendingOutgoing_flushPending] at waits
        obtain ⟨early, keeps⟩ := List.mem_filter.mp waits
        rw [Unassigned, objects_flushPending]
        exact unassigned_of_keeps holds.queued holds.sequenced early keeps
      · exact absurd parsed failed

/-- What waits is not on the wire. -/
theorem not_wired {client : CClientSocket} {queue : List Pending} (holds : Queued queue client)
    {pending : Pending} (waits : pending ∈ client.pendingOutgoing) :
    pending.origin ∉ client.wireOrigins := by
  intro wired
  have once := holds.once
  rw [List.map_append] at once
  exact (List.nodup_append.mp once).2.2 _ (List.mem_map_of_mem wired) _
    (List.mem_map_of_mem (List.mem_map_of_mem waits)) rfl

/-- **Deferred calls are sent once, in order, and when their object is known.** In every run
with sequences left, and for the queue of all calls that were deferred in it: each is on the
wire once at most, and waits, was written, or was lost to a closed descriptor; those of one
object are on the wire in the order of the queue; a step takes a call from the queue, or puts it
on the wire, only when it is released; and when the outermost dispatch returns true, what waits
is of objects without an identifier. -/
theorem deferred_calls {impls : Impls} {heap : Heap} {queue : List Pending} {used : Nat}
    {p : Process} (history : History impls heap queue used p) (few : used < 2 ^ 32) :
    queue.Pairwise (fun first second => first.origin.number < second.origin.number) ∧
    p.client.wireOrigins.Nodup ∧
    (∀ pending ∈ queue,
      pending ∈ p.client.pendingOutgoing ∧ pending.origin ∉ p.client.wireOrigins ∨
        pending ∉ p.client.pendingOutgoing ∧ (pending.origin ∈ p.client.wireOrigins ∨
          p.client.fdIsValid = false ∧ p.client.error = true)) ∧
    (∀ object, (((p.client.wired queue).filter fun origin => origin.object = object).map
      Origin.number).Pairwise (· < ·)) ∧
    (∀ (event : Event) (next : Process), Step impls heap p event next →
      used + sequencesUsed p.client next.client < 2 ^ 32 →
      ∀ pending ∈ p.client.pendingOutgoing,
        pending ∉ next.client.pendingOutgoing ∨ pending.origin ∈ next.client.wireOrigins →
        Released p next pending) ∧
    ∀ client, ReturnsTrue heap p client →
      ∀ pending ∈ client.pendingOutgoing, Unassigned client pending := by
  obtain ⟨holds, settled⟩ := history.deferring few
  have once := holds.queued.once
  rw [List.map_append] at once
  refine ⟨holds.queued.numbers, .of_map _ (List.nodup_append.mp once).1, ?_, ?_, ?_, ?_⟩
  · intro pending listed
    by_cases waits : pending ∈ p.client.pendingOutgoing
    · exact .inl ⟨waits, not_wired holds.queued waits⟩
    · refine .inr ⟨waits, ?_⟩
      rcases holds.queued.there pending listed with again | wired | closed
      · exact absurd again waits
      · exact .inl wired
      · exact .inr ⟨closed, holds.kept.closed closed⟩
  · intro object
    have wire := (List.pairwise_append.mp holds.queued.ordered.order).1
    rw [CClientSocket.wireOrigins_onlyQueued] at wire
    rw [List.pairwise_map]
    refine (wire.sublist List.filter_sublist).imp_of_mem ?_
    intro first second one two inOrder
    have of : first.object = object := of_decide_eq_true (List.mem_filter.mp one).2
    have of' : second.object = object := of_decide_eq_true (List.mem_filter.mp two).2
    exact inOrder (of.trans of'.symm)
  · intro event next steps left pending waits moved
    have moves := step_moves steps
    have after := deferring_moves holds moves left
    refine released_moves holds moves waits fun stays => ?_
    rcases moved with gone | wired
    · exact gone stays
    · exact not_wired after.queued stays wired
  · exact fun client returns => unassigned_of_returnsTrue holds settled returns

/-! ## A call that is lost -/

/-- A history goes on with a run. -/
theorem History.run {impls : Impls} {heap : Heap} {queue : List Pending} {used : Nat}
    {p next : Process} (history : History impls heap queue used p)
    (run : Run impls heap anyEvent p next) :
    ∃ later used', History impls heap (queue ++ later) used' next := by
  induction run with
  | refl => exact ⟨[], used, by rwa [List.append_nil]⟩
  | step _ _ steps ih =>
      obtain ⟨later, used', history⟩ := ih
      have more := history.step steps
      rw [List.append_assoc] at more
      exact ⟨_, _, more⟩

/-- The client waits for the object it binds, and reads the identifier of it. -/
def binding : Process where
  client := {
    objects := [{ version := 1, seq := 1, protocolName := [0], spec := some parent }]
    seq := 1
    sent := [⟨.hello, none⟩, ⟨.bindProtocol [0] 1 1, none⟩] }
  frames := [.waitForObject 0]

/-- The announcement of the object. -/
def announcement : SSocketRawParsedMessage where
  data := ByteVec.strict ⟨CNewObjectMessage.encode 1 1, by decide⟩
  fds := []

theorem parse_announcement : parseClient .ample announcement.data [] 0 =
    some (.ok (.message (.newObject 1 1) 12, [])) := by rfl

/-- The object has its identifier. -/
def announced : Process where
  client := binding.client.onSeq 1 1
  frames := [.dispatchEvents 0 false, .waitForObject 0]
  batches := [{
    data := announcement.data
    queue := []
    needle := 12
    fds := []
    handled := [.newObject 1 1] }]
  log := [(0, .newObject 1 1)]

theorem history_announced :
    ∃ queue, History [⟨family⟩] .ample queue 1 announced := by
  have binds : Step [⟨family⟩] .ample ⟨.opened, [], [], []⟩ .calls binding :=
    @Step.bindProtocol _ _ _ family 1 0 _ rfl rfl
  have reads : Step [⟨family⟩] .ample binding (.reads announcement) (binding.reading announcement) :=
    @Step.read _ _ binding (.readable (some announcement)) _ rfl rfl
  have numbers : binding.client.receive (.newObject 1 1) = some (.ok (announced.client, none)) := rfl
  have handles : Step [⟨family⟩] .ample (binding.reading announcement) .handles announced :=
    @Step.message _ _ (binding.reading announcement) 0 _ (.ofRaw announcement) _ _ _ _ _ rfl rfl
      (@next_of_parse _ (.ofRaw announcement) _ _ _ _ _ _ (by decide) parse_announcement (by decide)
        numbers)
  exact ⟨_, ((History.opened.step binds).step reads).step handles⟩

/-- The application calls the child of the object. -/
def calling : Process where
  client := expecting
  batches := announced.batches
  log := announced.log

/-- The call that waits for the child. -/
def waitingCall : Pending where
  msg := { ofData (callData 0 0 none []) [] with dependsOnSeq := 2 }
  origin := ⟨1, 1⟩

/-- A batch with the identifier of the child, and a list of protocols that cannot be read. -/
def lastBatch : SSocketRawParsedMessage where
  data := ByteVec.strict
    ⟨CNewObjectMessage.encode 2 2 ++ CHandshakeProtocolsMessage.encode [[120]], by decide⟩
  fds := []

theorem history_calling :
    ∃ queue, History [⟨family⟩] .ample queue 2 calling ∧ waitingCall ∈ queue := by
  obtain ⟨queue, history⟩ := history_announced
  let back : Process := { announced with frames := [.waitForObject 0] }
  let control : Process := { announced with frames := [] }
  have leaves : Step [⟨family⟩] .ample announced .leaves back :=
    @Step.leave _ _ announced 0 _ _ ⟨.parsedOk, (announced.client, none), [.newObject 1 1]⟩ rfl rfl
      rfl
  have waited : Step [⟨family⟩] .ample back .returns control := .waited rfl rfl rfl
  have listens := ((history.step leaves).step waited).step
    (@Step.listen _ _ control 0 0 (some 0) _ rfl rfl)
  have asks := listens.step (@Step.call _ _ _ 0 0 2 [] _ rfl rfl)
  have calls := asks.step (@Step.call _ _ _ 1 0 0 [] _ rfl rfl)
  exact ⟨_, calls, List.mem_append_right _ List.mem_cons_self⟩

/-- The call of the child waits, and has not been sent. -/
theorem deferred_calls_waiting : ∃ queue, History [⟨family⟩] .ample queue 2 calling ∧
    waitingCall ∈ queue ∧ waitingCall.origin ∉ calling.client.wireOrigins ∧
    calling.client.wireOrigins.Nodup := by
  obtain ⟨queue, history, listed⟩ := history_calling
  obtain ⟨-, once, each, -⟩ := deferred_calls history (by decide)
  refine ⟨queue, history, listed, ?_, once⟩
  rcases each waitingCall listed with ⟨-, unsent⟩ | ⟨gone, -⟩
  · exact unsent
  · exact absurd List.mem_cons_self gone

/-- A call is lost: the flush takes it from the queue after the descriptor was closed. -/
theorem deferred_call_lost : ∃ queue used p, History [⟨family⟩] .ample queue used p ∧
    ∃ pending ∈ queue, pending ∉ p.client.pendingOutgoing ∧
      pending.origin ∉ p.client.wireOrigins := by
  obtain ⟨queue, history, waits⟩ := history_calling
  obtain ⟨t, handled, dispatched, none, wire⟩ : ∃ t handled,
      Client.dispatchEvents eager 3 (.readable (some lastBatch)) ⟨expecting, ()⟩ =
        some (.ok (false, t, handled)) ∧
      t.client.pendingOutgoing = [] ∧ t.client.wireOrigins = [⟨0, 0⟩] :=
    ⟨_, _, rfl, rfl, rfl⟩
  obtain ⟨next, run, client, -, -⟩ :=
    @dispatchEvents_steps _ eager _ _ _ _ _ _ dispatched calling rfl rfl
  obtain ⟨later, used', history⟩ := history.run run
  refine ⟨_, _, next, history, waitingCall, List.mem_append_left _ waits, ?_, ?_⟩
  · rw [client, none]
    exact List.not_mem_nil
  · rw [client, wire]
    decide

end Hyprwire.Client.Reentrant
