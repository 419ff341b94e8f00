import Hyprwire.Object.Batch
import Hyprwire.Object.Below
import Hyprwire.Object.Reads
import Hyprwire.Wire.Cut

/-!
# A batch in several reads

The bytes of a batch can come in several reads. Nothing is kept of a read but the state of the
connection, so that a message has to come whole: one that is cut off is not read
(`Outgoing.not_read_cut`), and the read is a failure. An `Endpoint` is what the two ends have
in common as far as they read; when it is lawful, reads that end where messages end (`Aligned`)
do what one read does (`Lawful.feed_of_aligned`), and other reads end in an error
(`Lawful.aligned_of_feed`).
-/

set_option autoImplicit false

namespace Hyprwire.Object

open Cpp Wire CGenericProtocolMessage

namespace Outgoing

variable {side : Side}

/-! ## Messages that are cut off -/

/-- A control message that is accepted of the front of a message is as long as the message. -/
theorem length_of_decoded (outgoing : Outgoing side) {u v : View} {off : Nat} (front : u.Front v)
    (small : v.size < 2 ^ 63) (holds : v.Holds off outgoing.message.data)
    (inside : off + outgoing.message.data.length ≤ v.size) {queue left : List Fd} {len : Nat}
    {received : Received} (decoded : Decoded .ample u queue off received len left)
    (accepted : len ≠ 0) (same : received.type = outgoing.message.type)
    (control : received.type ≠ .genericProtocolMessage) :
    len = outgoing.message.data.length ∧ len ≤ u.size - off := by
  have short : u.size < 2 ^ 63 := Nat.lt_of_le_of_lt front.size small
  cases outgoing with
  | hello =>
      cases decoded with
      | hello decoded =>
          have whole := CHelloMessage.decode_front front _ decoded accepted
          rw [CHelloMessage.decode_of_holds holds inside small] at whole
          obtain rfl := Except.ok.inj whole
          refine ⟨rfl, CHelloMessage.accepts (fun held => ?_) _ decoded accepted⟩
          have room : off + 7 ≤ v.size := inside
          have ends : off + 7 ≤ u.size :=
            front.inside held (List.cons_ne_nil _ _) (show off + 7 < 2 ^ 64 by omega)
          omega
      | _ => cases same
  | handshakeAck version =>
      cases decoded with
      | handshakeAck decoded =>
          exact ⟨(CHandshakeAckMessage.spells short _ decoded accepted).2,
            CHandshakeAckMessage.accepts _ decoded accepted⟩
      | _ => cases same
  | bindProtocol protocol seq version nonzero =>
      cases decoded with
      | bindProtocol decoded =>
          have whole := CBindProtocolMessage.decode_front front small _ decoded accepted
          rw [CBindProtocolMessage.decode_of_holds holds inside small protocol.property nonzero]
            at whole
          obtain rfl := Except.ok.inj whole
          exact ⟨rfl, CBindProtocolMessage.accepts short _ decoded accepted⟩
      | _ => cases same
  | roundtripRequest seq =>
      cases decoded with
      | roundtripRequest decoded =>
          exact ⟨(SeqMessage.spells short _ decoded accepted).2,
            SeqMessage.accepts _ decoded accepted⟩
      | _ => cases same
  | handshakeBegin versions few offers =>
      cases decoded with
      | handshakeBegin decoded =>
          have whole := CHandshakeBeginMessage.decode_front front small _ decoded accepted
          rw [CHandshakeBeginMessage.decode_of_holds holds inside small few] at whole
          obtain rfl := Except.ok.inj whole
          exact ⟨rfl, CHandshakeBeginMessage.accepts short _ decoded accepted⟩
      | _ => cases same
  | handshakeProtocols protocols few =>
      cases decoded with
      | handshakeProtocols decoded =>
          have whole := CHandshakeProtocolsMessage.decode_front front small _ decoded accepted
          rw [CHandshakeProtocolsMessage.decode_of_holds holds inside small
            (by rwa [List.length_map]) (fun protocol member => by
              obtain ⟨short, -, rfl⟩ := List.mem_map.mp member
              exact short.property)] at whole
          obtain rfl := Except.ok.inj whole
          exact ⟨rfl, CHandshakeProtocolsMessage.accepts short _ decoded accepted⟩
      | _ => cases same
  | newObject seq id =>
      cases decoded with
      | newObject decoded =>
          exact ⟨(CNewObjectMessage.spells short _ decoded accepted).2,
            CNewObjectMessage.accepts _ decoded accepted⟩
      | _ => cases same
  | roundtripDone seq =>
      cases decoded with
      | roundtripDone decoded =>
          exact ⟨(SeqMessage.spells short _ decoded accepted).2,
            SeqMessage.accepts _ decoded accepted⟩
      | _ => cases same
  | generic call => exact absurd same control

/-- **A message that is cut off is not read.** -/
theorem not_read_cut (outgoing : Outgoing side) {u v : View} {off : Nat} (front : u.Front v)
    (small : v.size < 2 ^ 63) (holds : v.Holds off outgoing.message.data)
    (inside : off + outgoing.message.data.length ≤ v.size)
    (cut : u.size < off + outgoing.message.data.length) {queue left : List Fd} {len : Nat}
    {received : Received} (accepted : len ≠ 0) :
    side.parse .ample u queue off ≠ some (.ok (.message received len, left)) := by
  intro read
  obtain ⟨tag, -, decoded⟩ := Side.parse_message read
  obtain ⟨wholeTag, -, -⟩ := Side.parse_message (outgoing.parse_eq [] holds inside small)
  have codes := Except.ok.inj ((front.checkedAt tag).symm.trans wholeTag)
  have same : received.type = outgoing.message.type := by
    rw [EMessageType.code_injective codes]
    cases outgoing <;> rfl
  by_cases generic : received.type = .genericProtocolMessage
  · cases decoded with
    | generic decoded =>
        cases outgoing with
        | generic call =>
            obtain ⟨tokens, bytes, -⟩ := call_tokens call.short call.made
            have length : call.msg.data.length = 12 + (tokens.flatMap Token.bytes).length := by
              rw [bytes, List.length_append, length_callHeader, List.length_append,
                List.length_singleton]
              omega
            have room : off + call.msg.data.length ≤ v.size := inside
            have short : u.size < off + call.msg.data.length := cut
            have held : v.Holds off call.msg.data := holds
            rw [bytes] at held
            obtain ⟨-, elements⟩ := View.holds_append.mp held
            exact accepted (not_decode_cut front small elements (by omega) (by omega) decoded)
        | _ => cases same
    | _ => cases generic
  · obtain ⟨length, ends⟩ := outgoing.length_of_decoded front small holds inside decoded accepted
      same generic
    omega

end Outgoing

/-! ## Messages with nothing around them -/

/-- A message as its receiver is to see it: there is nothing around the data of a call. -/
def alone : Received → Received
  | .generic msg => .generic { msg with dataSpan := msg.dataSpan.guarded }
  | received => received

/-- A call is made of tokens. -/
def OfElements : Received → Prop
  | .generic msg => ∃ tokens, MadeOf msg tokens
  | _ => True

namespace Outgoing

variable {side : Side}

/-- What arrives of a message that comes with its own bytes and nothing else. -/
def arrival (outgoing : Outgoing side) : Received :=
  alone (outgoing.received
    ⟨outgoing.message.data.length, fun i => outgoing.message.data[i]?⟩ 0)

/-- What arrives of a message does not depend on what is around it. -/
theorem alone_received (outgoing : Outgoing side) {data : View} {off : Nat}
    (holds : data.Holds off outgoing.message.data)
    (inside : off + outgoing.message.data.length ≤ data.size) (small : data.size < 2 ^ 63) :
    alone (outgoing.received data off) = outgoing.arrival := by
  cases outgoing with
  | generic call =>
      have room : off + call.msg.data.length ≤ data.size := inside
      have held : data.Holds off call.msg.data := holds
      simp only [arrival, alone, received]
      have reads : (data.span (off + 11) (call.msg.data.length - 11)).guarded =
          (View.span ⟨call.msg.data.length, fun i => call.msg.data[i]?⟩ (0 + 11)
            (call.msg.data.length - 11)).guarded := by
        simp only [View.guarded, View.span]
        congr 1
        funext i
        refine ite_congr rfl (fun within => ?_) fun _ => rfl
        have there := held (11 + i) (by omega)
        have place : wrap (0 + 11 + i) = 11 + i := by
          rw [wrap_of_lt (by omega), Nat.zero_add]
        rw [place, List.getElem?_eq_getElem (by omega), ← there, Nat.add_assoc]
      rw [reads]
      rfl
  | _ => rfl

/-- A message that arrives is made of elements. -/
theorem ofElements_received (outgoing : Outgoing side) {data : View} {off : Nat}
    (holds : data.Holds off outgoing.message.data)
    (inside : off + outgoing.message.data.length ≤ data.size) (small : data.size < 2 ^ 63) :
    OfElements (outgoing.received data off) := by
  cases outgoing with
  | generic call =>
      obtain ⟨tokens, bytes, descriptors⟩ := call_tokens call.short call.made
      have room : off + call.msg.data.length ≤ data.size := inside
      have held : data.Holds off call.msg.data := holds
      have size : call.msg.data.length = 12 + (tokens.flatMap Token.bytes).length := by
        rw [bytes, List.length_append, length_callHeader, List.length_append, List.length_singleton]
        omega
      rw [bytes] at held
      refine ⟨tokens, View.holds_span.mpr (View.holds_append.mp held).2, ?_, ?_, descriptors⟩
      · show call.msg.data.length - 11 = _
        omega
      · show call.msg.data.length - 11 < 2 ^ 63
        omega
  | _ => trivial

end Outgoing

/-! ## Reading in several reads -/

/-- Reads that are dispatched one after the other, with the messages that are handled. -/
inductive Feed {σ : Type} (dispatch : ByteVec → σ → σ → List Received → Prop) :
    List ByteVec → σ → σ → List Received → Prop
  | done {s : σ} : Feed dispatch [] s s []
  | read {chunk : ByteVec} {chunks : List ByteVec} {s t u : σ} {handled more : List Received}
      (first : dispatch chunk s t handled) (rest : Feed dispatch chunks t u more) :
      Feed dispatch (chunk :: chunks) s u (handled ++ more)

/-- The chunks end where messages of the batch end. -/
inductive Aligned {side : Side} : List ByteVec → List (Outgoing side) → Prop
  | nil : Aligned [] []
  | cons {chunk : ByteVec} {chunks : List ByteVec} {group rest : List (Outgoing side)}
      (bytes : chunk.data = batchData group) (more : Aligned chunks rest) :
      Aligned (chunk :: chunks) (group ++ rest)

/-- A batch without descriptors, its bytes in one read, and the same bytes in several reads
none of which is empty. -/
structure Segmentation (side : Side) where
  batch : List (Outgoing side)
  noFds : batchFds batch = []
  whole : ByteVec
  bytes : whole.data = batchData batch
  chunks : List ByteVec
  cut : chunks.flatMap ByteVec.data = whole.data
  nonempty : ∀ chunk ∈ chunks, chunk.data ≠ []

/-- The reads handle the same messages as the one read, in the same order, and end in the same
state. -/
def Segmentation.Agrees {side : Side} {σ : Type} (segmentation : Segmentation side)
    (dispatch : ByteVec → σ → σ → List Received → Prop) (same : σ → σ → Prop) (s : σ) : Prop :=
  ∃ t u handled handled', Feed dispatch segmentation.chunks s t handled ∧
    Feed dispatch [segmentation.whole] s u handled' ∧
    handled.map alone = handled'.map alone ∧ same t u

theorem Segmentation.aligned_whole {side : Side} (segmentation : Segmentation side) :
    Aligned [segmentation.whole] segmentation.batch := by
  have one := Aligned.cons segmentation.bytes .nil
  rwa [List.append_nil] at one

/-- Reads of an empty batch. -/
theorem Segmentation.chunks_eq_nil {side : Side} (segmentation : Segmentation side)
    (empty : segmentation.whole.data = []) : segmentation.chunks = [] := by
  cases chunks : segmentation.chunks with
  | nil => rfl
  | cons chunk rest =>
      have cut := segmentation.cut
      rw [chunks, empty] at cut
      have none := (List.append_eq_nil_iff.mp cut).1
      exact absurd none (segmentation.nonempty chunk (chunks ▸ List.mem_cons_self))

/-- The bytes in front of a batch are those of a group of its messages, and part of the next
message. -/
theorem exists_group {side : Side} {batch : List (Outgoing side)} {bytes rest : List UInt8}
    (split : bytes ++ rest = batchData batch) :
    ∃ group others, batch = group ++ others ∧
      (bytes = batchData group ∧ rest = batchData others ∨
        ∃ outgoing more, others = outgoing :: more ∧ (batchData group).length < bytes.length ∧
          bytes.length < (batchData group).length + outgoing.message.data.length) := by
  induction batch generalizing bytes with
  | nil =>
      obtain ⟨none, nothing⟩ := List.append_eq_nil_iff.mp split
      exact ⟨[], [], rfl, .inl ⟨none, nothing⟩⟩
  | cons outgoing batch ih =>
      have total : bytes ++ rest = outgoing.message.data ++ batchData batch := split
      rcases Nat.lt_or_ge bytes.length outgoing.message.data.length with inside | beyond
      · refine ⟨[], outgoing :: batch, rfl, ?_⟩
        cases bytes with
        | nil => exact .inl ⟨rfl, split⟩
        | cons byte bytes =>
            refine .inr ⟨outgoing, batch, rfl, Nat.zero_lt_succ _, ?_⟩
            rw [batchData, List.flatMap_nil, List.length_nil, Nat.zero_add]
            exact inside
      · have starts : outgoing.message.data <+: bytes ++ rest := ⟨_, total.symm⟩
        obtain ⟨part, rfl⟩ := List.prefix_of_prefix_length_le starts ⟨_, rfl⟩ beyond
        rw [List.append_assoc] at total
        obtain ⟨group, others, rfl, ends⟩ := ih (List.append_cancel_left total)
        refine ⟨outgoing :: group, others, rfl, ?_⟩
        have length : (batchData (outgoing :: group)).length =
            outgoing.message.data.length + (batchData group).length := List.length_append
        rcases ends with ⟨rfl, same⟩ | ⟨next, more, rfl, low, high⟩
        · exact .inl ⟨rfl, same⟩
        · refine .inr ⟨next, more, rfl, ?_, ?_⟩
          · rw [length, List.length_append]
            omega
          · rw [length, List.length_append]
            omega

theorem Feed.mono {σ : Type} {first second : ByteVec → σ → σ → List Received → Prop}
    (imp : ∀ chunk s t handled, first chunk s t handled → second chunk s t handled)
    {chunks : List ByteVec} {s t : σ} {handled : List Received}
    (feed : Feed first chunks s t handled) : Feed second chunks s t handled := by
  induction feed with
  | done => exact .done
  | read dispatch _ ih => exact .read (imp _ _ _ _ dispatch) ih

/-- An end of a connection, as far as it reads: its receiver, what follows a read, whether it
does not read any more, and whether it is in error. -/
structure Endpoint (σ : Type) where
  receiver : Receiver σ
  after : EMessageParsingResult → σ → σ
  closed : σ → Bool
  error : σ → Bool

variable {σ : Type} {side : Side}

/-- One read is dispatched. -/
inductive Endpoint.Dispatch (e : Endpoint σ) (chunk : ByteVec) (s : σ) :
    σ → List Received → Prop
  | skipped (idle : e.closed s = true ∨ chunk.data = []) : Dispatch e chunk s s []
  | read {turns : Nat} {h : Handled σ} (going : e.closed s = false) (some_ : chunk.data ≠ [])
      (run : handleMessage e.receiver turns ⟨chunk.strict, []⟩ s = some (.ok h)) :
      Dispatch e chunk s (e.after h.result h.conn) h.handled

/-- What an end of a connection has to do with reads and errors: a call is acted on by its own
bytes, what is acted on does not depend on what states have not in common, an error stays, and
a read is a failure exactly when an error follows. -/
structure Endpoint.Lawful (e : Endpoint σ) (side : Side) (Same : σ → σ → Prop) : Prop where
  parse : e.receiver.parse = side.parse .ample
  refl : ∀ s, Same s s
  trans : ∀ {s t u}, Same s t → Same t u → Same s u
  alone : ∀ received s, OfElements received →
    e.receiver.handle received s = e.receiver.handle (alone received) s
  same : ∀ {received s s' t}, Same s s' → e.receiver.handle received s = some (.ok t) →
    ∃ t', e.receiver.handle received s' = some (.ok t') ∧ Same t t'
  error_same : ∀ {s s'}, Same s s' → e.error s = e.error s'
  stops : ∀ s, e.receiver.stops s = true → e.error s = true
  closed : ∀ s, e.closed s = true → e.error s = true
  handles : ∀ {received s t}, e.receiver.handle received s = some (.ok t) →
    e.error s = true → e.error t = true
  sets : ∀ s, e.error s = true → e.error (e.receiver.setError s) = true
  parsed : ∀ s, Same s (e.after .parsedOk s)
  failed : ∀ result s, result ≠ .parsedOk → e.error (e.after result s) = true
  after : ∀ result s, e.error s = true → e.error (e.after result s) = true

namespace Endpoint

variable {e : Endpoint σ} {chunk : ByteVec} {s t : σ} {handled : List Received}

/-- A read is dispatched in one way. -/
theorem Dispatch.unique {t' : σ} {handled' : List Received} (first : e.Dispatch chunk s t handled)
    (second : e.Dispatch chunk s t' handled') : t = t' ∧ handled = handled' := by
  cases first with
  | skipped idle =>
      cases second with
      | skipped _ => exact ⟨rfl, rfl⟩
      | read going some_ run =>
          rcases idle with closed | empty
          · exact absurd (going.symm.trans closed) Bool.false_ne_true
          · exact absurd empty some_
  | read going some_ run =>
      cases second with
      | skipped idle =>
          rcases idle with closed | empty
          · exact absurd (going.symm.trans closed) Bool.false_ne_true
          · exact absurd empty some_
      | read _ _ run' =>
          cases Exits.unique ⟨_, run⟩ ⟨_, run'⟩
          exact ⟨rfl, rfl⟩

/-- What an end does with a read is to dispatch it, if it skips what is skipped and handles the
messages of everything else. -/
theorem dispatch_iff {read : Nat → Option (Except Fault (σ × List Received))}
    (skips : e.closed s = true ∨ chunk.data = [] → ∀ turns, read turns = some (.ok (s, [])))
    (reads : e.closed s = false → chunk.data ≠ [] → ∀ turns,
      read turns = (handleMessage e.receiver turns ⟨chunk.strict, []⟩ s).map fun result =>
        result.map fun h => (e.after h.result h.conn, h.handled)) :
    (∃ turns, read turns = some (.ok (t, handled))) ↔ e.Dispatch chunk s t handled := by
  constructor
  · rintro ⟨turns, run⟩
    by_cases idle : e.closed s = true ∨ chunk.data = []
    · rw [skips idle] at run
      cases run
      exact .skipped idle
    · obtain ⟨going, some_⟩ := not_or.mp idle
      have going' : e.closed s = false := Bool.not_eq_true _ ▸ going
      rw [reads going' some_] at run
      obtain ⟨result, parsed, rest⟩ := Option.map_eq_some_iff.mp run
      cases result with
      | error fault => cases rest
      | ok h =>
          cases rest
          exact .read going' some_ parsed
  · intro dispatch
    cases dispatch with
    | skipped idle => exact ⟨0, skips idle 0⟩
    | @read turns h going some_ run =>
        refine ⟨turns, ?_⟩
        rw [reads going some_, run]
        rfl

theorem feed_unique {chunks : List ByteVec} {t' : σ} {handled' : List Received}
    (first : Feed e.Dispatch chunks s t handled) (second : Feed e.Dispatch chunks s t' handled') :
    t = t' := by
  induction first generalizing handled' with
  | done =>
      cases second
      rfl
  | read dispatch _ ih =>
      cases second with
      | read dispatch' rest =>
          obtain ⟨rfl, rfl⟩ := dispatch.unique dispatch'
          exact ih rest

namespace Lawful

variable {Same : σ → σ → Prop} (lawful : e.Lawful side Same)
include lawful

/-- An error stays when a read is dispatched. -/
theorem dispatch_error (dispatch : e.Dispatch chunk s t handled) (error : e.error s = true) :
    e.error t = true := by
  cases dispatch with
  | skipped _ => exact error
  | @read turns h going some_ run =>
      refine lawful.after _ _ ?_
      exact handleMessage_keeps (R := fun s t => e.error s = true → e.error t = true)
        (fun _ => id) (fun _ _ _ first second => second ∘ first)
        (fun _ _ _ acted => lawful.handles acted) lawful.sets run error

theorem feed_error {chunks : List ByteVec} (feed : Feed e.Dispatch chunks s t handled)
    (error : e.error s = true) : e.error t = true := by
  induction feed with
  | done => exact error
  | read first _ ih => exact ih (lawful.dispatch_error first error)

/-- An error stays while messages are taken. -/
theorem takes_error {received : List Received} (takes : Takes e.receiver s received t)
    (error : e.error s = true) : e.error t = true := by
  induction takes with
  | nil => exact error
  | cons _ acted _ ih => exact ih (lawful.handles acted error)

theorem not_error {received : List Received} (takes : Takes e.receiver s received t)
    (fine : e.error t = false) : e.error s = false := by
  cases before : e.error s with
  | false => rfl
  | true => rw [lawful.takes_error takes before] at fine; cases fine

/-- What is taken does not depend on what states have not in common. -/
theorem takes_same {received : List Received} {s' : σ} (takes : Takes e.receiver s received t)
    (fine : e.error t = false) (same : Same s s') :
    ∃ t', Takes e.receiver s' received t' ∧ Same t t' := by
  induction takes generalizing s' with
  | nil => exact ⟨s', .nil, same⟩
  | @cons conn next last received rest going acted more ih =>
      obtain ⟨next', acted', same'⟩ := lawful.same same acted
      obtain ⟨t', takes', final⟩ := ih fine same'
      refine ⟨t', .cons ?_ acted' takes', final⟩
      have before := lawful.not_error (.cons going acted more) fine
      rw [lawful.error_same same] at before
      cases stops : e.receiver.stops s' with
      | false => rfl
      | true => rw [lawful.stops s' stops] at before; cases before

/-- Messages that are taken by their own bytes are taken where they lie. -/
theorem takes_arrivals {data : View} {off : Nat} {group : List (Outgoing side)}
    (holds : data.Holds off (batchData group))
    (inside : off + (batchData group).length ≤ data.size) (small : data.size < 2 ^ 63)
    (takes : Takes e.receiver s (group.map Outgoing.arrival) t) :
    Takes e.receiver s (arrivals data off group) t ∧
      (arrivals data off group).map Object.alone = group.map Outgoing.arrival := by
  induction group generalizing off s with
  | nil => exact ⟨takes, rfl⟩
  | cons outgoing rest ih =>
      obtain ⟨head, behind⟩ := View.holds_append.mp holds
      have tail : data.Holds (off + outgoing.message.data.length) (batchData rest) := behind
      have total : (batchData (outgoing :: rest)).length =
          outgoing.message.data.length + (batchData rest).length := List.length_append
      have arrives := outgoing.alone_received head (by omega) small
      cases takes with
      | @cons _ next _ _ _ going acted more =>
          rw [← arrives, ← lawful.alone _ _ (outgoing.ofElements_received head (by omega) small)]
            at acted
          obtain ⟨others, same⟩ := ih tail (by omega) more
          refine ⟨.cons going acted others, ?_⟩
          rw [arrivals, List.map_cons, List.map_cons, arrives, same]

/-- The loop goes past the messages that are taken, whatever follows them. -/
theorem reaches_group {data : View} {off : Nat} {group : List (Outgoing side)}
    (noFds : batchFds group = []) (holds : data.Holds off (batchData group))
    (inside : off + (batchData group).length ≤ data.size) (small : data.size < 2 ^ 63)
    (takes : Takes e.receiver s (arrivals data off group) t) (handled : List Received) :
    Reaches (parseTurn e.receiver data) ⟨off, [], s, handled⟩
      ⟨off + (batchData group).length, [], t, handled ++ arrivals data off group⟩ := by
  induction group generalizing off s handled with
  | nil =>
      cases takes
      rw [arrivals, List.append_nil]
      exact .refl
  | cons outgoing rest ih =>
      obtain ⟨head, behind⟩ := View.holds_append.mp holds
      have tail : data.Holds (off + outgoing.message.data.length) (batchData rest) := behind
      have total : (batchData (outgoing :: rest)).length =
          outgoing.message.data.length + (batchData rest).length := List.length_append
      have length := List.length_pos_of_ne_nil outgoing.data_ne_nil
      obtain ⟨own, others⟩ := List.append_eq_nil_iff.mp
        (show outgoing.message.fds ++ batchFds rest = [] from noFds)
      have read := outgoing.parse_eq [] head (by omega) small
      rw [own, List.nil_append, ← lawful.parse] at read
      cases takes with
      | @cons _ next _ _ _ going acted more =>
          have turn : Next (parseTurn e.receiver data) ⟨off, [], s, handled⟩
              ⟨wrap (off + outgoing.message.data.length), [], next,
                handled ++ [outgoing.received data off]⟩ :=
            parseTurn_next_iff.mpr ⟨⟨show off < data.size by omega, going⟩, _, _, _, next, read,
              acted, Nat.ne_of_gt length, rfl⟩
          rw [wrap_of_lt (by omega)] at turn
          have onward := ih others tail (by omega) more (handled ++ [outgoing.received data off])
          rw [List.append_assoc, List.singleton_append, Nat.add_assoc, ← total] at onward
          exact .head turn onward

/-- **A read that ends where a message ends** is dispatched, and its messages are handled. -/
theorem dispatch_group {group : List (Outgoing side)} (bytes : chunk.data = batchData group)
    (noFds : batchFds group = []) (takes : Takes e.receiver s (group.map Outgoing.arrival) t)
    (fine : e.error t = false) :
    ∃ u handled, e.Dispatch chunk s u handled ∧ Same t u ∧
      handled.map Object.alone = group.map Outgoing.arrival := by
  have going : e.closed s = false := by
    have before := lawful.not_error takes fine
    cases closed : e.closed s with
    | false => rfl
    | true => rw [lawful.closed s closed] at before; cases before
  by_cases empty : chunk.data = []
  · cases group with
    | nil =>
        cases takes
        exact ⟨s, [], .skipped (.inr empty), lawful.refl s, rfl⟩
    | cons outgoing rest =>
        rw [empty] at bytes
        exact absurd (List.append_eq_nil_iff.mp bytes.symm).1 outgoing.data_ne_nil
  · have holds : chunk.strict.Holds 0 (batchData group) := by
      rw [← bytes, ← chunk.viewIn_none]
      exact holds_viewIn chunk _
    have ends : 0 + (batchData group).length = chunk.strict.size := by
      rw [← bytes, Nat.zero_add, ByteVec.size_strict]
    obtain ⟨taken, same⟩ := lawful.takes_arrivals holds (Nat.le_of_eq ends) chunk.length_lt takes
    have reaches := lawful.reaches_group noFds holds (Nat.le_of_eq ends) chunk.length_lt taken []
    rw [ends, List.nil_append] at reaches
    have leaves : parseTurn e.receiver chunk.strict
        ⟨chunk.strict.size, [], t, arrivals chunk.strict 0 group⟩ =
          some (.leave (.ok ⟨.parsedOk, t, arrivals chunk.strict 0 group⟩)) :=
      parseTurn_eq_parsedOk.mpr ⟨.inl le_rfl, rfl, rfl, rfl⟩
    obtain ⟨turns, run⟩ := Exits.of_reaches reaches (.leave leaves)
    exact ⟨_, _, .read going empty run, lawful.parsed t, same⟩

/-- **A read that ends inside a message** is a failure. -/
theorem dispatch_cut {group rest : List (Outgoing side)} {outgoing : Outgoing side} {v : ByteVec}
    (bytes : v.data = batchData (group ++ outgoing :: rest)) (starts : chunk.data <+: v.data)
    (some_ : (batchData group).length < chunk.data.length)
    (cut : chunk.data.length < (batchData group).length + outgoing.message.data.length)
    (noFds : batchFds group = []) (takes : Takes e.receiver s (group.map Outgoing.arrival) t)
    (fine : e.error t = false) {u : σ} (dispatch : e.Dispatch chunk s u handled) :
    e.error u = true := by
  have before := lawful.not_error takes fine
  cases dispatch with
  | skipped idle =>
      rcases idle with closed | empty
      · exact lawful.closed s closed
      · rw [empty] at some_
        exact absurd some_ (Nat.not_lt_zero _)
  | @read turns h going _ run =>
      have front := ByteVec.front starts
      have split : v.data =
          batchData group ++ (outgoing.message.data ++ batchData rest) :=
        bytes.trans List.flatMap_append
      have first : batchData group <+: chunk.data :=
        List.prefix_of_prefix_length_le ⟨_, split.symm⟩ starts (Nat.le_of_lt some_)
      have holds : chunk.strict.Holds 0 (batchData group) := by
        obtain ⟨part, all⟩ := first
        exact @ByteVec.holds_strict chunk [] _ part (by rw [← all]; rfl)
      have inside : 0 + (batchData group).length ≤ chunk.strict.size := by
        rw [Nat.zero_add, ByteVec.size_strict]
        exact Nat.le_of_lt some_
      obtain ⟨taken, -⟩ := lawful.takes_arrivals holds inside chunk.length_lt takes
      have reaches := lawful.reaches_group noFds holds inside chunk.length_lt taken []
      rw [Nat.zero_add] at reaches
      obtain ⟨q, onward, leaves⟩ := exits_iff.mp (Exits.after reaches ⟨turns, run⟩)
      have whole : v.strict.Holds (batchData group).length outgoing.message.data :=
        ByteVec.holds_strict (split.trans (List.append_assoc _ _ _).symm)
      have room : (batchData group).length + outgoing.message.data.length ≤ v.strict.size := by
        rw [ByteVec.size_strict, split, List.length_append, List.length_append]
        omega
      have stuck : ∀ q', ¬ Next (parseTurn e.receiver chunk.strict)
          ⟨(batchData group).length, [], t, [] ++ arrivals chunk.strict 0 group⟩ q' := by
        intro q' next
        obtain ⟨-, received, len, left, conn, read, -, length, -⟩ := parseTurn_next_iff.mp next
        rw [lawful.parse] at read
        exact outgoing.not_read_cut front v.length_lt whole room cut length read
      rcases Relation.ReflTransGen.cases_head onward with rfl | ⟨q', next, -⟩
      · refine lawful.failed _ _ fun parsed => ?_
        obtain ⟨result, conn, handled⟩ := h
        obtain rfl : result = .parsedOk := parsed
        obtain ⟨ended, -⟩ := parseTurn_eq_parsedOk.mp leaves
        rcases ended with past | stops
        · exact absurd past (Nat.not_le_of_lt some_)
        · rw [lawful.stops t stops] at fine
          cases fine
      · exact absurd next (stuck q')

omit lawful in
/-- What is taken up to the end of a group, and from there on. -/
theorem takes_split {first second : List Received}
    (takes : Takes e.receiver s (first ++ second) t) :
    ∃ mid, Takes e.receiver s first mid ∧ Takes e.receiver mid second t := by
  induction first generalizing s with
  | nil => exact ⟨s, .nil, takes⟩
  | cons received rest ih =>
      cases takes with
      | cons going acted more =>
          obtain ⟨mid, others, behind⟩ := ih more
          exact ⟨mid, .cons going acted others, behind⟩

/-- **Reads that end where messages end** do what one read does. -/
theorem feed_of_aligned {chunks : List ByteVec} {batch : List (Outgoing side)}
    (aligned : Aligned chunks batch) (noFds : batchFds batch = [])
    (takes : Takes e.receiver s (batch.map Outgoing.arrival) t) (fine : e.error t = false)
    {s' : σ} (same : Same s s') :
    ∃ u handled, Feed e.Dispatch chunks s' u handled ∧ Same t u ∧
      handled.map Object.alone = batch.map Outgoing.arrival := by
  induction aligned generalizing s s' with
  | nil =>
      cases takes
      exact ⟨s', [], .done, same, rfl⟩
  | @cons chunk chunks group rest bytes more ih =>
      rw [batchFds, List.map_append, List.flatMap_append] at noFds
      obtain ⟨own, others⟩ := List.append_eq_nil_iff.mp noFds
      rw [List.map_append] at takes
      obtain ⟨mid, first, second⟩ := takes_split takes
      have before := lawful.not_error second fine
      obtain ⟨mid', first', same'⟩ := lawful.takes_same first before same
      obtain ⟨next, handled, dispatch, after, here⟩ := lawful.dispatch_group bytes own first'
        ((lawful.error_same same').symm.trans before)
      obtain ⟨u, handled', feed, final, there⟩ := ih others second (lawful.trans same' after)
      refine ⟨u, handled ++ handled', .read dispatch feed, final, ?_⟩
      rw [List.map_append, List.map_append, here, there]

/-- **Reads that end without an error** have ended where messages end. -/
theorem aligned_of_feed {chunks : List ByteVec} {batch : List (Outgoing side)}
    (cut : chunks.flatMap ByteVec.data = batchData batch)
    (small : (batchData batch).length < 2 ^ 63) (noFds : batchFds batch = [])
    (takes : Takes e.receiver s (batch.map Outgoing.arrival) t) (fine : e.error t = false)
    {s' u : σ} {handled : List Received} (same : Same s s')
    (feed : Feed e.Dispatch chunks s' u handled) (ended : e.error u = false) :
    Aligned chunks batch := by
  induction chunks generalizing s s' batch handled with
  | nil =>
      cases batch with
      | nil => exact .nil
      | cons outgoing rest =>
          exact absurd (List.append_eq_nil_iff.mp cut.symm).1 outgoing.data_ne_nil
  | cons chunk chunks ih =>
      have split : chunk.data ++ chunks.flatMap ByteVec.data = batchData batch := cut
      obtain ⟨group, others, rfl, ends⟩ := exists_group split
      have fds := noFds
      rw [batchFds, List.map_append, List.flatMap_append] at fds
      obtain ⟨own, behindFds⟩ := List.append_eq_nil_iff.mp fds
      rw [List.map_append] at takes
      obtain ⟨mid, first, second⟩ := takes_split takes
      have before := lawful.not_error second fine
      obtain ⟨mid', first', same'⟩ := lawful.takes_same first before same
      have before' := (lawful.error_same same').symm.trans before
      cases feed with
      | @read _ _ _ next _ here more dispatch feed =>
          rcases ends with ⟨bytes, behind⟩ | ⟨outgoing, more, rfl, low, high⟩
          · obtain ⟨next', here', dispatch', after, -⟩ :=
              lawful.dispatch_group bytes own first' before'
            obtain ⟨rfl, rfl⟩ := dispatch.unique dispatch'
            have length : (batchData (group ++ others)).length =
                (batchData group).length + (batchData others).length := by
              rw [batchData, List.flatMap_append, List.length_append]
              rfl
            exact .cons bytes (ih behind (by omega) behindFds second
              (lawful.trans same' after) feed)
          · have failed := lawful.dispatch_cut (v := ⟨_, small⟩) rfl ⟨_, split⟩ low high own first'
              before' dispatch
            rw [lawful.feed_error feed failed] at ended
            cases ended

end Lawful

end Endpoint

end Hyprwire.Object
