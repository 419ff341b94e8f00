import Hyprwire.Client.Dispatch
import Hyprwire.Cpp.Guarded
import Hyprwire.Object.RoundTrip

/-!
# Deferred calls

A call on an object without an identifier is encoded with the identifier zero and
waits. When its object has got an identifier, `resolveSeq` writes it into the encoded
bytes, but only its lowest byte (`resolveSeq_callData`). So what is sent is the
message of a direct call exactly when the identifier fits in a byte
(`deferred_call_agrees_iff`), and otherwise names another object.

`flush_eq` is the flush in closed form: what it drops, keeps and sends of each waiting
message depends on the objects only, which it leaves alone.
-/

set_option autoImplicit false

namespace Hyprwire.Client

open Cpp Wire Object CGenericProtocolMessage

/-! ## The flush -/

namespace CClientSocket

/-- What the flush writes for a waiting message. -/
def resolved (client : CClientSocket) (pending : Pending) : Option Sent :=
  match client.waiting pending.msg with
  | .send message => some ⟨message, some pending.origin⟩
  | _ => none

/-- The flush leaves a message waiting. -/
def keeps (client : CClientSocket) (pending : Pending) : Bool :=
  match client.waiting pending.msg with
  | .keep => true
  | _ => false

/-- What is written when the socket is open. -/
def write (client : CClientSocket) (messages : List Sent) : CClientSocket :=
  if client.fdIsValid then { client with sent := client.sent ++ messages } else client

theorem sendMessage_eq_write (client : CClientSocket) (message : Message)
    (origin : Option Origin) : client.sendMessage message origin = client.write [⟨message, origin⟩] :=
  rfl

@[simp] theorem write_nil (client : CClientSocket) : client.write [] = client := by
  rw [write, List.append_nil]
  split <;> rfl

theorem write_write (client : CClientSocket) (first second : List Sent) :
    (client.write first).write second = client.write (first ++ second) := by
  by_cases isOpen : client.fdIsValid = true
  · simp [write, isOpen]
  · simp [write, isOpen]

@[simp] theorem objects_write (client : CClientSocket) (messages : List Sent) :
    (client.write messages).objects = client.objects := by
  rw [write]
  split <;> rfl

@[simp] theorem waiting_write (client : CClientSocket) (messages : List Sent)
    (msg : CGenericProtocolMessage) : (client.write messages).waiting msg = client.waiting msg := by
  simp only [waiting, objectForSeq, objects_write]

/-- **The flush in closed form.** -/
theorem flush_eq (waiting : List Pending) (client : CClientSocket) :
    flush waiting client =
      (waiting.filter client.keeps, client.write (waiting.filterMap client.resolved)) := by
  induction waiting generalizing client with
  | nil => simp [flush]
  | cons pending rest ih =>
      have same : ∀ messages, (client.write messages).keeps = client.keeps ∧
          (client.write messages).resolved = client.resolved := by
        intro messages
        constructor <;> funext p
        · simp only [keeps, waiting_write]
        · simp only [resolved, waiting_write]
      rw [flush, List.filter_cons, List.filterMap_cons, keeps, resolved]
      cases client.waiting pending.msg with
      | drop => exact ih client
      | keep => simp only [ih client, if_true]
      | send message =>
          simp only [sendMessage_eq_write, ih, write_write, (same _).1, (same _).2,
            List.singleton_append]
          rfl

theorem flushPending_eq (client : CClientSocket) :
    client.flushPending =
      { client.write (client.pendingOutgoing.filterMap client.resolved) with
        pendingOutgoing := client.pendingOutgoing.filter client.keeps } := by
  simp only [flushPending, flush_eq]

/-- What the flush writes are calls. -/
theorem resolved_generic {client : CClientSocket} {pending : Pending} {sent : Sent}
    (resolved : client.resolved pending = some sent) :
    ∃ data fds, sent.message = .generic data fds := by
  simp only [CClientSocket.resolved, waiting] at resolved
  split at resolved
  · next message found =>
    cases resolved
    split at found
    · cases found
    · split at found
      · cases found
      · cases found
        exact ⟨_, _, rfl⟩
  · cases resolved

end CClientSocket

/-! ## The bytes of a resolved message -/

/-- The identifier a resolved message carries: the lowest byte of the one it is
given. -/
def lowByte (id : UInt32) : UInt32 := UInt32.ofNat (id.toNat % 256)

theorem toNat_lowByte (id : UInt32) : (lowByte id).toNat = id.toNat % 256 := by
  rw [lowByte, UInt32.toNat_ofNat']
  exact Nat.mod_eq_of_lt (by omega)

theorem lowByte_eq_iff (id : UInt32) : lowByte id = id ↔ id.toNat < 256 := by
  rw [← UInt32.toNat_inj, toNat_lowByte]
  omega

theorem u32Bytes_lowByte (id : UInt32) : u32Bytes (lowByte id) = [id.toUInt8, 0, 0, 0] := by
  have low : UInt8.ofNat (id.toNat % 256) = id.toUInt8 := by
    apply UInt8.toNat_inj.mp
    rw [UInt8.toNat_ofNat', UInt32.toNat_toUInt8]
    omega
  have small : id.toNat % 256 < 256 := Nat.mod_lt _ (by decide)
  rw [u32Bytes, toNat_lowByte, low, Nat.div_eq_of_lt small, Nat.div_eq_of_lt (by omega),
    Nat.div_eq_of_lt (by omega)]
  rfl

/-- **A resolved message is a message for the lowest byte of the identifier.** -/
theorem resolveSeq_callData (x id : UInt32) (seq : Option UInt32) (arguments : List UInt8)
    (fds : List Fd) (dependsOnSeq : UInt32) :
    (resolveSeq { ofData (callData 0 id seq arguments) fds with dependsOnSeq } x).data =
      callData (lowByte x) id seq arguments := by
  simp only [resolveSeq, ofData, callData, callHeader, u32Bytes_lowByte]
  rfl

/-- The identifier can be read from the bytes of a message. -/
theorem callData_inj {x y id : UInt32} {seq : Option UInt32} {arguments : List UInt8} :
    callData x id seq arguments = callData y id seq arguments ↔ x = y := by
  refine ⟨fun same => ?_, fun same => same ▸ rfl⟩
  have word : u32Bytes x = u32Bytes y := by
    simp only [callData, callHeader, List.append_cancel_right_eq, List.append_cancel_left_eq]
      at same
    exact same
  have value := congrArg leadingU32 word
  rw [leadingU32_u32Bytes, leadingU32_u32Bytes] at value
  exact Except.ok.inj value

/-- The header of a message is read wherever its bytes lie. -/
theorem decodeHeader_callData {data : ByteVec} {before after : List UInt8} {x id : UInt32}
    {seq : Option UInt32} {arguments : List UInt8}
    (split : data.data = before ++ callData x id seq arguments ++ after) :
    decodeHeader data.strict before.length = .ok (some (x, id)) := by
  have holds := ByteVec.holds_strict split
  rw [callData, View.holds_append] at holds
  refine decodeHeader_of_holds holds.1 ?_ data.length_lt
  rw [ByteVec.size_strict, split, List.length_append, List.length_append, callData,
    List.length_append, length_callHeader]
  omega

/-! ## Deferred and direct -/

/-- What a deferred call has checked and marshalled. -/
theorem call_eq_defer {object : IWireObject} {methods : List SMethod} {seq seq' id : UInt32}
    {args : List Arg} {msg : CGenericProtocolMessage} {kind : Option (UInt32 × Str)}
    (deferred : object.call false methods seq id args = .ok (.defer msg kind, seq')) :
    object.id = 0 ∧ ∃ method arguments fds, checkCall object false methods id = .ok method ∧
      marshal method.params args = .ok (some (arguments, fds)) ∧
      seq' = seqAfter method seq ∧ kind = returnedObject method seq' ∧
      msg = { ofData (callData 0 id (if method.returnsType ≠ [] then some seq' else none) arguments)
        fds with dependsOnSeq := object.seq } := by
  simp only [IWireObject.call] at deferred
  cases checked : checkCall object false methods id with
  | error message => rw [checked] at deferred; cases deferred
  | ok method =>
      simp only [checked, callMessage] at deferred
      obtain ⟨message, run, rest⟩ := bind_eq_ok.mp deferred
      obtain ⟨marshalled, written, made⟩ := bind_eq_ok.mp run
      cases marshalled with
      | none => cases made; cases rest
      | some written' =>
          cases made
          simp only [Bool.false_eq_true, not_false_eq_true, and_true] at rest
          split at rest
          · next unassigned =>
            cases rest
            rw [unassigned]
            exact ⟨rfl, method, _, _, rfl, written, rfl, rfl, rfl⟩
          · cases rest

/-- The call that an object with an identifier would have sent. -/
theorem call_of_defer {object : IWireObject} {methods : List SMethod} {seq id x : UInt32}
    {args : List Arg} {method : SMethod} {arguments : List UInt8} {fds : List Fd}
    (checked : checkCall object false methods id = .ok method)
    (written : marshal method.params args = .ok (some (arguments, fds))) (nonzero : x ≠ 0) :
    IWireObject.call { object with id := x } false methods seq id args =
      .ok (.send (ofData (callData x id
          (if method.returnsType ≠ [] then some (seqAfter method seq) else none) arguments) fds)
        (returnedObject method (seqAfter method seq)), seqAfter method seq) := by
  have same : checkCall { object with id := x } false methods id = .ok method := by
    simp only [checkCall] at checked ⊢
    split at checked
    · cases checked
    · split at checked
      · cases checked
      · split at checked
        · cases checked
        · rename_i since server
          rw [if_neg since, if_neg server]
          exact checked
  refine call_sends same nonzero ?_
  simp only [callMessage, written]
  rfl

/-- An object is made without a change to what waits. -/
@[simp] theorem returned_pendingOutgoing (impls : Impls) (object : IWireObject)
    (client : CClientSocket) (kind : Option (UInt32 × Str)) :
    (CClientSocket.returned impls object client kind).2.pendingOutgoing =
      client.pendingOutgoing := by
  cases kind with
  | none => rfl
  | some kind =>
      simp only [CClientSocket.returned, CClientSocket.makeObject]
      split <;> rfl

@[simp] theorem direct_pendingOutgoing (client : CClientSocket) (index : Nat)
    (msg : CGenericProtocolMessage) :
    (client.direct index msg).pendingOutgoing = client.pendingOutgoing := by
  simp only [CClientSocket.direct, CClientSocket.sendMessage]
  split <;> rfl

/-- A call that adds to what waits has been deferred. -/
theorem call_deferred {impls : Impls} {client called : CClientSocket} {index : Nat}
    {object : IWireObject} {spec : IProtocolObjectSpec} {id result : UInt32}
    {args : List Arg} {pending : Pending} (has : client.objects[index]? = some object)
    (kind : object.spec = some spec)
    (call : client.call impls index id args = .ok (result, called))
    (deferred : called.pendingOutgoing = client.pendingOutgoing ++ [pending]) :
    ∃ returned seq, object.call false spec.c2s client.seq id args =
      .ok (.defer pending.msg returned, seq) := by
  obtain ⟨object', spec', outcome, seq, has', kind', made, rest⟩ :=
    CClientSocket.call_eq_ok.mp call
  obtain rfl : object = object' := Option.some.inj (has.symm.trans has')
  obtain rfl : spec = spec' := Option.some.inj (kind.symm.trans kind')
  have after := congrArg (fun r => r.2.pendingOutgoing) rest
  rw [deferred] at after
  have grows : client.pendingOutgoing ++ [pending] ≠ client.pendingOutgoing := by simp
  cases outcome with
  | error message => exact absurd after grows
  | errd => exact absurd after grows
  | send msg returned => exact absurd (after.trans (by simp [CClientSocket.afterCall])) grows
  | defer msg returned =>
      rw [show (CClientSocket.afterCall impls index object { client with seq }
        (.defer msg returned)).2.pendingOutgoing = client.pendingOutgoing ++
          [⟨msg, ⟨index, client.made⟩⟩] from returned_pendingOutgoing _ _ _ _] at after
      obtain rfl : pending = _ := List.singleton_inj.mp (List.append_cancel_left after)
      exact ⟨returned, seq, made⟩

/-- **The deferred call agrees with the direct one exactly when the identifier fits in a
byte.** A call made before the object had an identifier is sent by the flush; the bytes
are those of the call that would have been sent directly, and the receiver reads the
object's identifier from them, if and only if the identifier is below 256. -/
theorem deferred_call_agrees_iff {impls : Impls} {client called later : CClientSocket} {index : Nat}
    {object assigned : IWireObject} {spec : IProtocolObjectSpec} {id result : UInt32}
    {args : List Arg} {pending : Pending} (has : client.objects[index]? = some object)
    (kind : object.spec = some spec)
    (call : client.call impls index id args = .ok (result, called))
    (deferred : called.pendingOutgoing = client.pendingOutgoing ++ [pending])
    (found : later.objectForSeq object.seq = some assigned) (nonzero : assigned.id ≠ 0) :
    ∃ direct returned seq flushed,
      IWireObject.call { object with id := assigned.id } false spec.c2s client.seq id args =
        .ok (.send direct returned, seq) ∧
      later.resolved pending = some ⟨.generic flushed direct.fds, some pending.origin⟩ ∧
      ((flushed = direct.data ∧
          ∀ (data : ByteVec) (before after : List UInt8), data.data = before ++ flushed ++ after →
            decodeHeader data.strict before.length = .ok (some (assigned.id, id))) ↔
        assigned.id.toNat < 256) := by
  obtain ⟨returned, seq, made⟩ := call_deferred has kind call deferred
  obtain ⟨-, method, arguments, fds, checked, written, rfl, -, message⟩ := call_eq_defer made
  have direct := @call_of_defer object spec.c2s client.seq _ _ _ _ _ _ checked written nonzero
  generalize (if method.returnsType ≠ [] then some (seqAfter method client.seq) else none) = sent
    at direct message
  refine ⟨_, _, _, callData (lowByte assigned.id) id sent arguments, direct, ?_, ?_⟩
  · simp only [CClientSocket.resolved, CClientSocket.waiting, message, found, if_neg nonzero,
      resolveSeq_callData]
    rfl
  · constructor
    · rintro ⟨same, -⟩
      exact (lowByte_eq_iff _).mp (callData_inj.mp same)
    · intro small
      rw [(lowByte_eq_iff _).mpr small]
      exact ⟨rfl, fun _ _ _ split => decodeHeader_callData split⟩

/-! ## An identifier of two bytes -/

/-- A kind of object with one method, which takes nothing. -/
def plain : IProtocolObjectSpec where
  objectName := []
  c2s := [{ params := [] }]
  s2c := []

/-- A client with an object without an identifier. -/
def unassigned : CClientSocket where
  objects := [{ seq := 1, spec := some plain }]
  seq := 1

/-- The client after a call on the object. -/
def waitingClient : CClientSocket := (unassigned.defer 0
  { ofData (callData 0 0 none []) [] with dependsOnSeq := 1 })

theorem waitingClient_called : unassigned.call [] 0 0 [] = .ok (0, waitingClient) := by
  rfl

/-- With the identifier 5 the deferred call is the direct one. -/
theorem deferred_call_agrees_five :
    ∃ direct returned seq flushed,
      IWireObject.call { seq := 1, spec := some plain, id := 5 } false plain.c2s 1 0 [] =
        .ok (.send direct returned, seq) ∧
      (waitingClient.onSeq 1 5).resolved ⟨{ ofData (callData 0 0 none []) [] with
          dependsOnSeq := 1 }, ⟨0, 0⟩⟩ = some ⟨.generic flushed direct.fds, some ⟨0, 0⟩⟩ ∧
      flushed = direct.data := by
  obtain ⟨direct, returned, seq, flushed, called, resolved, agrees⟩ :=
    @deferred_call_agrees_iff [] unassigned waitingClient (waitingClient.onSeq 1 5) 0 _
      { seq := 1, spec := some plain, id := 5 } plain 0 0 [] _ rfl rfl waitingClient_called rfl rfl
      (by decide)
  exact ⟨direct, returned, seq, flushed, called, resolved, (agrees.mpr (by decide)).1⟩

/-- With the identifier 256 the deferred call is sent to the object 0. -/
theorem deferred_call_differs_256 :
    ∃ direct returned seq flushed,
      IWireObject.call { seq := 1, spec := some plain, id := 256 } false plain.c2s 1 0 [] =
        .ok (.send direct returned, seq) ∧
      (waitingClient.onSeq 1 256).resolved ⟨{ ofData (callData 0 0 none []) [] with
          dependsOnSeq := 1 }, ⟨0, 0⟩⟩ = some ⟨.generic flushed direct.fds, some ⟨0, 0⟩⟩ ∧
      flushed ≠ direct.data ∧
      decodeHeader (ByteVec.strict ⟨callData 0 0 none [], by decide⟩) 0 = .ok (some (0, 0)) ∧
      flushed = callData 0 0 none [] := by
  refine ⟨ofData (callData 256 0 none []) [], none, 1, callData 0 0 none [], rfl, rfl, ?_, rfl, rfl⟩
  exact fun same => absurd (callData_inj.mp same) (by decide)

end Hyprwire.Client
