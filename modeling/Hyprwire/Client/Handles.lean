import Hyprwire.Client.Deferred

/-!
# The handles of a client

The client numbers the objects it asks for, in `bindProtocol` and in the calls whose
method returns an object, and gives an object its identifier when the server announces
it. `act_allocates` says what an act does to the sequences and the identifiers, and
`Sequenced` what holds of the sequences in every run: they are different as long as the
counter does not wrap.
-/

set_option autoImplicit false

namespace Hyprwire.Client

open Cpp Wire Object

namespace CClientSocket

/-- The sequences and the identifiers of the objects. -/
def handles (client : CClientSocket) : List (UInt32 × UInt32) :=
  client.objects.map fun object => (object.seq, object.id)

theorem handles_write (client : CClientSocket) (messages : List Sent) :
    (client.write messages).handles = client.handles := by
  rw [handles, objects_write, handles]

theorem handles_sendMessage (client : CClientSocket) (message : Message) (origin : Option Origin) :
    (client.sendMessage message origin).handles = client.handles :=
  client.handles_write _

theorem seq_sendMessage (client : CClientSocket) (message : Message) (origin : Option Origin) :
    (client.sendMessage message origin).seq = client.seq := by
  rw [sendMessage]
  split <;> rfl

/-- An identifier that has been announced is given to the first object with the
sequence. -/
theorem handles_onSeq (client : CClientSocket) (seq id : UInt32) :
    (client.onSeq seq id).seq = client.seq ∧
      ((client.onSeq seq id).handles = client.handles ∨
        ∃ index : Nat, client.handles[index]?.map Prod.fst = some seq ∧
          (client.onSeq seq id).handles = client.handles.set index (seq, id)) := by
  rw [onSeq]
  split
  · exact ⟨rfl, .inl rfl⟩
  · next index found =>
    obtain ⟨inside, is, -⟩ := List.findIdx?_eq_some_iff_getElem.mp found
    have has : client.objects[index]? = some client.objects[index] :=
      List.getElem?_eq_getElem inside
    have seq_eq : client.objects[index].seq = seq := of_decide_eq_true is
    refine ⟨rfl, .inr ⟨index, ?_, ?_⟩⟩
    · rw [handles, List.getElem?_map, has]
      exact congrArg some seq_eq
    · have modified : client.objects.modify index (fun o => { o with id }) =
          client.objects.set index { client.objects[index] with id } := by
        rw [List.modify_eq_set_getElem?, has]
        rfl
      rw [handles, modified, List.map_set]
      exact congrArg (List.set _ index) (congrArg (·, id) seq_eq)

end CClientSocket

/-! ## Acts -/

/-- What an act does to the handles. -/
inductive Allocates (client : CClientSocket) (act : Act) (next : CClientSocket) : Prop
  | nothing (handles : next.handles = client.handles) (counter : next.seq = client.seq)
  | counted (handles : next.handles = client.handles) (counter : next.seq = client.seq + 1)
  | made (handles : next.handles = client.handles ++ [(client.seq + 1, 0)])
      (counter : next.seq = client.seq + 1)
  | assigned (seq id : UInt32) (index : Nat) (announced : act = .receive (.newObject seq id))
      (found : client.handles[index]?.map Prod.fst = some seq)
      (handles : next.handles = client.handles.set index (seq, id))
      (counter : next.seq = client.seq)

namespace Allocates

variable {client next : CClientSocket}

theorem of_fields {act : Act} (objects : next.objects = client.objects)
    (counter : next.seq = client.seq) : Allocates client act next :=
  .nothing (by rw [CClientSocket.handles, objects, CClientSocket.handles]) counter

/-- What a call does that has counted to a sequence, and makes what it returns. -/
theorem returned {act : Act} (impls : Impls) (object : IWireObject) (method : SMethod)
    {counted : CClientSocket} (handles : counted.handles = client.handles)
    (counter : counted.seq = seqAfter method client.seq) :
    Allocates client act (CClientSocket.returned impls object counted
      (returnedObject method (seqAfter method client.seq))).2 := by
  by_cases returns : method.returnsType = []
  · have none : returnedObject method (seqAfter method client.seq) = none := by
      rw [returnedObject, if_neg fun both => both.1 returns]
    rw [none]
    exact .nothing handles (by rw [CClientSocket.returned, counter, seqAfter, if_neg (· returns)])
  · have counter' : counted.seq = client.seq + 1 := by rw [counter, seqAfter, if_pos returns]
    have after : seqAfter method client.seq = client.seq + 1 := by rw [seqAfter, if_pos returns]
    rw [after, returnedObject]
    split
    · rw [CClientSocket.returned, CClientSocket.makeObject]
      split
      · exact .counted handles counter'
      · refine .made ?_ counter'
        rw [CClientSocket.handles, List.map_append, ← handles]
        rfl
    · exact .counted handles counter'

theorem call {impls : Impls} {index : Nat} {id result : UInt32} {args : List Arg}
    (called : client.call impls index id args = .ok (result, next)) :
    Allocates client (.call index id args) next := by
  obtain ⟨object, spec, outcome, seq, -, -, made, after⟩ := CClientSocket.call_eq_ok.mp called
  obtain rfl : next = _ := congrArg Prod.snd after
  cases call_ends made with
  | error message => exact of_fields rfl rfl
  | errd method =>
      by_cases returns : method.returnsType = []
      · exact .nothing rfl (by
          rw [CClientSocket.afterCall, seqAfter, if_neg (· returns)])
      · exact .counted rfl (by rw [CClientSocket.afterCall, seqAfter, if_pos returns])
  | defer method msg head => exact returned impls object method rfl rfl
  | send method msg head =>
      exact returned impls object method (CClientSocket.handles_write _ _)
        (CClientSocket.seq_sendMessage _ _ _)

theorem bindProtocol {spec : IProtocolSpec} {version : UInt32} {object : Option Nat}
    (run : client.bindProtocol spec version = .ok (object, next)) :
    Allocates client (.bindProtocol spec version) next := by
  simp only [CClientSocket.bindProtocol] at run
  split at run
  · cases run
    exact of_fields rfl rfl
  · split at run
    · cases run
    · cases run
      refine .made ?_ (CClientSocket.seq_sendMessage _ _ _)
      rw [CClientSocket.handles_sendMessage, CClientSocket.handles, List.map_append]
      rfl

theorem listen {index : Nat} {id : UInt32} {fn : Option Callback}
    (run : client.listen index id fn = .ok next) :
    Allocates client (.listen index id fn) next := by
  obtain ⟨object, at_, rest⟩ := bind_eq_ok.mp run
  cases rest
  have has := CClientSocket.objectAt_eq_ok.mp at_
  exact .nothing (map_set_same has rfl) rfl

theorem receive {message : Received} {invocation : Option Invocation}
    (run : client.receive message = some (.ok (next, invocation))) :
    Allocates client (.receive message) next := by
  cases message with
  | handshakeBegin versions =>
      cases run
      exact .nothing (client.handles_sendMessage _ _) (client.seq_sendMessage _ _)
  | handshakeProtocols protocols =>
      cases run
      obtain ⟨specs, error, isOpen, same, -⟩ := client.addServerSpecs_eq protocols
      rw [CClientSocket.takeServerSpecs, same]
      exact of_fields rfl rfl
  | newObject seq id =>
      cases run
      obtain ⟨counter, same | ⟨index, found, set⟩⟩ := client.handles_onSeq seq id
      · exact .nothing same counter
      · exact .assigned seq id index rfl found set counter
  | generic msg =>
      rw [(CClientSocket.onGeneric_eq_ok run).1]
      exact of_fields rfl rfl
  | fatalError objectId errorId errorMsg => cases run; exact of_fields rfl rfl
  | roundtripDone seq => cases run; exact of_fields rfl rfl
  | hello => cases run; exact of_fields rfl rfl
  | handshakeAck version => cases run; exact of_fields rfl rfl
  | bindProtocol protocol seq version => cases run; exact of_fields rfl rfl
  | roundtripRequest seq => cases run; exact of_fields rfl rfl

end Allocates

/-- **What an act does to the handles.** -/
theorem act_allocates {impls : Impls} {client next : CClientSocket} {act : Act}
    (acts : client.act impls act = some (.ok next)) : Allocates client act next := by
  cases act with
  | call index id args =>
      obtain ⟨⟨result, _⟩, called, rfl⟩ := map_eq_ok.mp (Option.some.inj acts)
      exact .call called
  | listen index id fn => exact .listen (Option.some.inj acts)
  | bindProtocol spec version =>
      obtain ⟨⟨object, _⟩, bound, rfl⟩ := map_eq_ok.mp (Option.some.inj acts)
      exact .bindProtocol bound
  | roundtrip =>
      cases acts
      rw [CClientSocket.roundtrip]
      split
      · exact .of_fields rfl rfl
      · exact .nothing (CClientSocket.handles_sendMessage _ _ _)
          (CClientSocket.seq_sendMessage _ _ _)
  | receive message =>
      obtain ⟨received, run, rest⟩ := Option.map_eq_some_iff.mp acts
      obtain ⟨⟨_, invocation⟩, rfl, rfl⟩ := map_eq_ok.mp rest
      exact .receive run
  | refuse => cases acts; exact .of_fields rfl rfl
  | flushPending =>
      cases acts
      rw [CClientSocket.flushPending_eq]
      refine .nothing (CClientSocket.handles_write _ _) ?_
      rw [CClientSocket.write]
      split <;> rfl
  | disconnectOnError => cases acts; exact .of_fields rfl rfl

/-! ## Sequences -/

/-- The counter has been counted up a number of times, and the objects have different
sequences that it has been through. -/
structure Sequenced (used : Nat) (client : CClientSocket) : Prop where
  counter : client.seq = UInt32.ofNat used
  order : (client.handles.map Prod.fst).Pairwise fun first second => first.toNat < second.toNat
  used : ∀ seq ∈ client.handles.map Prod.fst, seq.toNat ≤ used

theorem sequenced_opened : Sequenced 0 .opened where
  counter := rfl
  order := .nil
  used _ listed := absurd listed List.not_mem_nil

/-- The number of sequences that an act uses. -/
def sequencesUsed (client next : CClientSocket) : Nat := if next.seq = client.seq then 0 else 1

namespace Sequenced

variable {client next : CClientSocket} {used : Nat}

theorem of_handles (sequenced : Sequenced used client)
    (seqs : next.handles.map Prod.fst = client.handles.map Prod.fst)
    (counter : next.seq = client.seq) : Sequenced used next where
  counter := counter.trans sequenced.counter
  order := seqs ▸ sequenced.order
  used := seqs ▸ sequenced.used

/-- The sequence after the last one. -/
theorem seq_succ (sequenced : Sequenced used client) :
    client.seq + 1 = UInt32.ofNat (used + 1) := by
  rw [sequenced.counter, UInt32.ofNat_add]
  rfl

/-- **An act keeps the sequences different**, while there are any left. -/
theorem allocates {act : Act} (sequenced : Sequenced used client)
    (allocates : Allocates client act next)
    (few : used + sequencesUsed client next < 2 ^ 32) :
    Sequenced (used + sequencesUsed client next) next := by
  have counts : next.seq = client.seq + 1 → sequencesUsed client next = 1 := by
    intro counter
    rw [sequencesUsed, if_neg]
    rw [counter]
    intro same
    simp at same
  have stays : next.seq = client.seq → sequencesUsed client next = 0 := fun same => if_pos same
  cases allocates with
  | nothing handles counter =>
      rw [stays counter]
      exact sequenced.of_handles (congrArg _ handles) counter
  | counted handles counter =>
      rw [counts counter]
      refine ⟨counter.trans sequenced.seq_succ, handles ▸ sequenced.order, ?_⟩
      rw [handles]
      exact fun seq listed => Nat.le_succ_of_le (sequenced.used seq listed)
  | made handles counter =>
      rw [counts counter] at few ⊢
      have value : (client.seq + 1).toNat = used + 1 := by
        rw [sequenced.seq_succ, UInt32.toNat_ofNat']
        exact Nat.mod_eq_of_lt (by omega)
      refine ⟨counter.trans sequenced.seq_succ, ?_, ?_⟩
      · rw [handles, List.map_append]
        refine List.pairwise_append.mpr ⟨sequenced.order, List.pairwise_singleton _ _, ?_⟩
        intro seq before last is
        rw [List.mem_singleton.mp is]
        exact value ▸ Nat.lt_succ_of_le (sequenced.used seq before)
      · rw [handles, List.map_append]
        intro seq either
        rcases List.mem_append.mp either with before | last
        · exact Nat.le_succ_of_le (sequenced.used seq before)
        · rw [List.mem_singleton.mp last]
          exact Nat.le_of_eq value
  | assigned seq id index announced found handles counter =>
      rw [stays counter]
      refine sequenced.of_handles ?_ counter
      obtain ⟨handle, has, rfl⟩ := Option.map_eq_some_iff.mp found
      obtain ⟨inside, is⟩ := List.getElem?_eq_some_iff.mp has
      rw [handles, List.map_set]
      refine List.ext_getElem? fun place => ?_
      rw [List.getElem?_set, List.getElem?_map]
      split
      · next same =>
        subst same
        rw [has, List.length_map, if_pos inside]
        rfl
      · rfl

/-- No two objects share a sequence. -/
theorem pairwise_seq (sequenced : Sequenced used client) :
    client.objects.Pairwise fun first second => first.seq ≠ second.seq := by
  have order := sequenced.order
  rw [CClientSocket.handles, List.map_map, List.pairwise_map] at order
  refine order.imp fun less same => ?_
  rw [Function.comp, Function.comp, same] at less
  exact Nat.lt_irrefl _ less

end Sequenced

end Hyprwire.Client
