import Hyprwire.Client.Reentrant

/-!
# Messages that find nothing to do

The loop of the client over a read does not look at `m_error`: the messages that are still
ahead (`Ahead`) are acted on when one of them has put the connection into error. `Idle` has
the messages that find nothing to do then, and `receive_eq_iff` says that these are the ones
that change nothing and call nobody. `untouched_iff` is the same for all that is ahead.
-/

set_option autoImplicit false

namespace Hyprwire.Client

open Cpp Wire Object CClientSocket

/-! ## One message -/

/-- The object that a generic message is for, the first with its identifier, and its kind. -/
structure Targets (client : CClientSocket) (msg : CGenericProtocolMessage) (index : Nat)
    (object : IWireObject) (spec : IProtocolObjectSpec) : Prop where
  first : client.objects.findIdx? (fun o => o.id = msg.object) = some index
  place : client.objects[index]? = some object
  kind : object.spec = some spec

/-- A method that does not come to its listener: there is none with the number, or nothing
listens to it, or it is too new for the object, or the walks over the elements refuse them. -/
inductive Stopped (object : IWireObject) (methods : List SMethod) (id : UInt32) (data : View)
    (fds : List Fd) : Prop
  | unknown (none : methods[id.toNat]? = none)
  | silent (none : (object.listeners[id.toNat]?).join = none)
  | tooNew {method : SMethod} (is : methods[id.toNat]? = some method)
      (new : object.version < method.since)
  | refused {method : SMethod} {fn : Callback} {message : String}
      (is : methods[id.toNat]? = some method)
      (listens : (object.listeners[id.toNat]?).join = some fn)
      (walks : callListener method fn id data fds = some (.ok (.error message)))

/-- A generic message that nobody hears. -/
def Unheard (client : CClientSocket) (msg : CGenericProtocolMessage) : Prop :=
  client.objects.findIdx? (fun o => o.id = msg.object) = none ∨
    ∃ index object spec, Targets client msg index object spec ∧
      Stopped object spec.s2c msg.method msg.dataSpan msg.fds

/-- A message that finds nothing to do: an offer of versions that cannot be answered any
more, protocols of which none is added, an identifier for an object that has it or is not
there, a call that nobody hears, a roundtrip that was answered. -/
def Idle (client : CClientSocket) : Received → Prop
  | .handshakeBegin _ => client.fdIsValid = false
  | .handshakeProtocols protocols => client.handshakeDone = true ∧
      (protocols = [] ∨ client.fdIsValid = false ∧ (protocols.head?.bind serverSpec) = none)
  | .newObject seq id => ∀ object, client.objectForSeq seq = some object → object.id = id
  | .generic msg => Unheard client msg
  | .roundtripDone seq => client.lastAckdRoundtripSeq = seq
  | _ => True

section Called

variable {object : IWireObject} {methods : List SMethod} {id : UInt32} {data : View}
  {fds : List Fd}

/-- `ffi_prep_cif` succeeds when it returns. -/
theorem ffiPrepCif_ne_none (types : List (Option FfiType)) : ffiPrepCif types ≠ .ok none := by
  intro same
  rw [ffiPrepCif] at same
  split at same
  · cases same
  · cases same

/-- The walks end with an error or at the listener. -/
theorem callListener_cases {method : SMethod} {fn : Callback} {outcome : Outcome}
    (called : callListener method fn id data fds = some (.ok outcome)) :
    (∃ message, outcome = .error message) ∨ ∃ types values, outcome = .invoke fn types values := by
  rw [callListener] at called
  split at called
  · cases called
  · next message _ =>
    cases called
    exact .inl ⟨message, rfl⟩
  · next types _ =>
    split at called
    · cases called
    · next none => exact absurd none (ffiPrepCif_ne_none types)
    · next types _ =>
      obtain ⟨result, -, rest⟩ := Option.map_eq_some_iff.mp called
      obtain ⟨walked, -, same⟩ := map_eq_ok.mp rest
      cases walked with
      | error message => exact .inl ⟨message, same.symm⟩
      | ok values => exact .inr ⟨types, values, same.symm⟩

/-- What a call that does not come to its listener leads to. -/
theorem Stopped.called (stopped : Stopped object methods id data fds) :
    object.called methods id data fds = some (.ok .ignored) ∨
      ∃ message, object.called methods id data fds = some (.ok (.error message)) := by
  rw [IWireObject.called]
  cases is : methods[id.toNat]? with
  | none => exact .inr ⟨_, rfl⟩
  | some method =>
      cases listens : (object.listeners[id.toNat]?).join with
      | none => exact .inl rfl
      | some fn =>
          dsimp only
          cases stopped with
          | unknown none => rw [is] at none; cases none
          | silent none => rw [listens] at none; cases none
          | tooNew is' new =>
              rw [is] at is'
              cases is'
              rw [if_pos new]
              exact .inr ⟨_, rfl⟩
          | refused is' listens' walks =>
              rw [is] at is'
              rw [listens] at listens'
              cases is'
              cases listens'
              split
              · exact .inr ⟨_, rfl⟩
              · exact .inr ⟨_, walks⟩

/-- A call that comes to no listener is stopped. -/
theorem stopped_of_called {outcome : Outcome}
    (called : object.called methods id data fds = some (.ok outcome))
    (quiet : ∀ fn types values, outcome ≠ .invoke fn types values) :
    Stopped object methods id data fds := by
  rw [IWireObject.called] at called
  split at called
  · next none => exact .unknown none
  · next method is =>
    split at called
    · next none => exact .silent none
    · next fn listens =>
      split at called
      · next new => exact .tooNew is new
      · rcases callListener_cases called with ⟨message, rfl⟩ | ⟨types, values, rfl⟩
        · exact .refused is listens called
        · exact absurd rfl (quiet fn types values)

end Called

section One

variable {client : CClientSocket}

/-- The specs that are added are there behind the others. -/
theorem length_addServerSpecs (protocols : List Str) (client : CClientSocket) :
    client.serverSpecs.length ≤ (addServerSpecs protocols client).serverSpecs.length := by
  induction protocols generalizing client with
  | nil => exact Nat.le_refl _
  | cons name rest ih =>
      rw [addServerSpecs]
      split
      · exact Nat.le_refl _
      · refine Nat.le_trans ?_ (ih _)
        exact Nat.le_trans (Nat.le_add_right _ _) (Nat.le_of_eq List.length_append.symm)

theorem takeServerSpecs_eq_iff (error : client.error = true) {protocols : List Str} :
    client.takeServerSpecs protocols = client ↔ Idle client (.handshakeProtocols protocols) := by
  rw [Idle, takeServerSpecs]
  cases protocols with
  | nil =>
      rw [addServerSpecs]
      constructor
      · intro same
        exact ⟨(congrArg CClientSocket.handshakeDone same).symm, .inl rfl⟩
      · rintro ⟨done, -⟩
        rw [← done]
  | cons name rest =>
      rw [addServerSpecs]
      cases read : serverSpec name with
      | none =>
          constructor
          · intro same
            exact ⟨(congrArg CClientSocket.handshakeDone same).symm,
              .inr ⟨(congrArg CClientSocket.fdIsValid same).symm, read⟩⟩
          · rintro ⟨done, none | ⟨closed, -⟩⟩
            · cases none
            · cases client
              cases done
              cases closed
              cases error
              rfl
      | some spec =>
          constructor
          · intro same
            have longer := length_addServerSpecs rest
              { client with serverSpecs := client.serverSpecs ++ [spec] }
            have length := congrArg (fun c => c.serverSpecs.length) same
            dsimp only at longer length
            rw [length, List.length_append] at longer
            exact absurd longer (Nat.not_succ_le_self _)
          · rintro ⟨-, none | ⟨-, unread⟩⟩
            · cases none
            · rw [List.head?_cons, Option.bind_some, read] at unread
              cases unread

theorem onSeq_eq_iff {seq id : UInt32} :
    client.onSeq seq id = client ↔ Idle client (.newObject seq id) := by
  rw [Idle, onSeq, objectForSeq]
  split
  · next none =>
    refine iff_of_true rfl fun object found => ?_
    have differs := List.findIdx?_eq_none_iff.mp none object (List.mem_of_find?_eq_some found)
    rw [List.find?_some found] at differs
    cases differs
  · next index found =>
    obtain ⟨inside, is, before⟩ := List.findIdx?_eq_some_iff_getElem.mp found
    have first : client.objects.find? (fun o => o.seq = seq) = some client.objects[index] :=
      List.find?_eq_some_iff_getElem.mpr ⟨is, index, inside, rfl, fun j earlier => by
        rw [Bool.not_eq_true', ← Bool.not_eq_true]
        exact before j earlier⟩
    have place := List.getElem?_eq_getElem inside
    rw [first]
    constructor
    · rintro same object ⟨⟩
      have at_ := congrArg (fun c => c.objects[index]?) same
      dsimp only at at_
      rw [List.getElem?_modify_eq, place] at at_
      exact (congrArg IWireObject.id (Option.some.inj at_)).symm
    · intro same
      have id' := same _ rfl
      have modified : client.objects.modify index (fun o => { o with id }) = client.objects := by
        apply List.ext_getElem?
        intro i
        rw [List.getElem?_modify]
        by_cases here : index = i
        · subst here
          rw [place, ← id']
          exact congrArg some (if_pos rfl)
        · simp only [here, if_false]
          exact id_map _
      rw [modified]

theorem onGeneric_eq_iff {msg : CGenericProtocolMessage} :
    client.onGeneric msg = some (.ok (client, none)) ↔ Unheard client msg := by
  rw [Unheard, onGeneric]
  cases first : client.objects.findIdx? fun o => o.id = msg.object with
  | none => exact iff_of_true rfl (.inl rfl)
  | some index =>
      dsimp only
      constructor
      · intro quiet
        split at quiet
        · cases quiet
        · next object found =>
          split at quiet
          · cases quiet
          · next spec kind =>
            obtain ⟨result, called, rest⟩ := Option.map_eq_some_iff.mp quiet
            obtain ⟨outcome, rfl, same⟩ := map_eq_ok.mp rest
            refine .inr ⟨index, object, spec,
              ⟨first, objectAt_eq_ok.mp found, specOf_eq_ok.mp kind⟩, ?_⟩
            refine stopped_of_called called ?_
            rintro fn types values rfl
            cases same
      · rintro (none | ⟨index', object, spec, targets, stopped⟩)
        · cases none
        · have is := targets.first
          rw [first] at is
          cases is
          rw [objectAt_eq_ok.mpr targets.place]
          dsimp only
          rw [specOf_eq_ok.mpr targets.kind]
          dsimp only
          rcases stopped.called with called | ⟨message, called⟩
          · rw [called]
            rfl
          · rw [called]
            rfl

/-- **A message has no effect on a connection in error exactly when it is idle.** -/
theorem receive_eq_iff (error : client.error = true) {received : Received} :
    client.receive received = some (.ok (client, none)) ↔ Idle client received := by
  cases received with
  | handshakeBegin versions =>
      rw [receive, sendMessage, Idle]
      cases open_ : client.fdIsValid with
      | false => exact iff_of_true rfl rfl
      | true =>
          refine iff_of_false (fun same => ?_) Bool.noConfusion
          have sent := congrArg (fun c => c.1.sent.length) (Except.ok.inj (Option.some.inj same))
          rw [if_pos rfl, List.length_append] at sent
          exact absurd sent (Nat.succ_ne_self _)
  | handshakeProtocols protocols =>
      rw [← takeServerSpecs_eq_iff error]
      exact ⟨fun same => (Prod.mk.inj (Except.ok.inj (Option.some.inj same))).1,
        fun same => by rw [receive, same]⟩
  | newObject seq id =>
      rw [← onSeq_eq_iff]
      exact ⟨fun same => (Prod.mk.inj (Except.ok.inj (Option.some.inj same))).1,
        fun same => by rw [receive, same]⟩
  | generic msg => exact onGeneric_eq_iff
  | fatalError objectId errorId errorMsg =>
      refine iff_of_true ?_ trivial
      rw [receive, ← error]
  | roundtripDone seq =>
      constructor
      · intro same
        have acknowledged := (Prod.mk.inj (Except.ok.inj (Option.some.inj same))).1
        exact (congrArg CClientSocket.lastAckdRoundtripSeq acknowledged).symm
      · rintro rfl
        rfl
  | _ => exact iff_of_true rfl trivial

end One

/-! ## All that is ahead -/

/-- The messages that are in the data of a read from a needle on, up to the first place where
there is none. It does not depend on the connection which these are. -/
inductive Ahead (heap : Heap) (data : View) : List Fd → Nat → Received → Prop
  | here {fds left : List Fd} {needle len : Nat} {received : Received} (inside : needle < data.size)
      (read : parseClient heap data fds needle = some (.ok (.message received len, left))) :
      Ahead heap data fds needle received
  | later {fds left : List Fd} {needle len : Nat} {received next : Received}
      (inside : needle < data.size)
      (read : parseClient heap data fds needle = some (.ok (.message next len, left)))
      (length : len ≠ 0) (more : Ahead heap data left (wrap (needle + len)) received) :
      Ahead heap data fds needle received

/-- The loop over a batch goes on without any effect: each message that it comes to leaves the
connection as it is, and calls nobody. -/
def Untouched (heap : Heap) (batch : Reentrant.Batch) (client : CClientSocket) : Prop :=
  ∀ q, Reaches (parseTurn (Reentrant.receiver heap) batch.data) (batch.state client) q →
    ∀ received len left, q.needle < batch.data.size →
      parseClient heap batch.data q.fds q.needle = some (.ok (.message received len, left)) →
      q.conn.1.receive received = some (.ok (q.conn.1, none))

section Batch

variable {heap : Heap} {batch : Reentrant.Batch} {client : CClientSocket}

/-- The loop goes on behind a message that is read. -/
theorem next_of_read {data : View} {q : ParseState (CClientSocket × Option Invocation)}
    {received : Received} {len : Nat} {left : List Fd} (inside : q.needle < data.size)
    (read : parseClient heap data q.fds q.needle = some (.ok (.message received len, left)))
    (length : len ≠ 0) {result : CClientSocket × Option Invocation}
    (acted : q.conn.1.receive received = some (.ok result)) :
    Next (parseTurn (Reentrant.receiver heap) data) q
      ⟨wrap (q.needle + len), left, result, q.handled ++ [received]⟩ :=
  parseTurn_next_iff.mpr ⟨⟨inside, rfl⟩, received, len, left, result, read, acted, length, rfl⟩

/-- What is ahead of a loop without effects is idle. The induction is on the messages up to
the one in question, each of which leaves the connection as it was. -/
theorem Untouched.idle (untouched : Untouched heap batch client) (error : client.error = true)
    {fds : List Fd} {needle : Nat} {received : Received}
    (ahead : Ahead heap batch.data fds needle received) :
    ∀ q, Reaches (parseTurn (Reentrant.receiver heap) batch.data) (batch.state client) q →
      q.fds = fds → q.needle = needle → q.conn.1 = client → Idle client received := by
  induction ahead with
  | here inside read =>
      rintro q reaches rfl rfl rfl
      exact (receive_eq_iff error).mp (untouched q reaches _ _ _ inside read)
  | later inside read length _ ih =>
      rintro q reaches rfl rfl rfl
      have quiet := untouched q reaches _ _ _ inside read
      exact ih _ (reaches.tail (next_of_read inside read length quiet)) rfl rfl rfl

/-- A loop that has nothing but idle messages ahead stays where it is: the connection does not
change, and the rest of what is ahead is so as well. -/
theorem reaches_idle (error : client.error = true)
    (idle : ∀ received, Ahead heap batch.data batch.fds batch.needle received →
      Idle client received) {q : ParseState (CClientSocket × Option Invocation)}
    (reaches : Reaches (parseTurn (Reentrant.receiver heap) batch.data) (batch.state client) q) :
    q.conn = (client, none) ∧ ∀ received, Ahead heap batch.data q.fds q.needle received →
      Idle client received := by
  induction reaches with
  | refl => exact ⟨rfl, idle⟩
  | tail _ next ih =>
      obtain ⟨same, ahead⟩ := ih
      obtain ⟨⟨inside, -⟩, received, len, left, conn, read, acted, length, rfl⟩ :=
        parseTurn_next_iff.mp next
      have quiet := (receive_eq_iff error).mpr (ahead received (.here inside read))
      have acts : CClientSocket.receive _ received = some (.ok conn) := acted
      rw [same, quiet] at acts
      cases acts
      exact ⟨rfl, fun received more => ahead received (.later inside read length more)⟩

/-- **The rest of a batch has no effect on a connection in error exactly when all of its
messages are idle.** -/
theorem untouched_iff (error : client.error = true) :
    Untouched heap batch client ↔
      ∀ received, Ahead heap batch.data batch.fds batch.needle received → Idle client received := by
  constructor
  · intro untouched received ahead
    exact untouched.idle error ahead _ .refl rfl rfl rfl
  · intro idle q reaches received len left inside read
    obtain ⟨same, ahead⟩ := reaches_idle error idle reaches
    rw [same]
    exact (receive_eq_iff error).mpr (ahead received (.here inside read))

/-- A step that handles a message of such a batch leaves the client as it is, and calls no
listener. -/
theorem Untouched.handles {impls : Impls} {p next : Reentrant.Process} {number : Nat}
    {rest : List Reentrant.Frame} (untouched : Untouched heap batch p.client)
    (top : p.frames = .dispatchEvents number false :: rest) (is : p.batches[number]? = some batch)
    (steps : Reentrant.Step impls heap p .handles next) :
    next.client = p.client ∧ next.frames = p.frames := by
  cases steps with
  | message top' is' turn =>
      rw [top] at top'
      cases top'
      rw [is] at is'
      cases is'
      obtain ⟨⟨inside, -⟩, received, len, left, conn, read, acted, -, same⟩ :=
        parseTurn_next_iff.mp turn
      have quiet : p.client.receive received = some (.ok (p.client, none)) :=
        untouched _ .refl received len left inside read
      have acts : p.client.receive received = some (.ok conn) := acted
      rw [quiet] at acts
      cases acts
      obtain ⟨-, -, result, -⟩ := ParseState.mk.inj same
      cases result
      exact ⟨rfl, top.symm⟩

end Batch

end Hyprwire.Client
