import Hyprwire.Wire.Progress
import Hyprwire.Wire.Token

/-!
# Messages one after the other

The bytes of a message that was written by its sending constructor are read back at any
place of a buffer (`decode_of_holds`, one for each message). A batch of such messages is
gone through message by message: `Readable` says that each message is read at its place as
what arrives of it, and `reaches_batch` that the loop of `handleMessage` then comes to the
end of the buffer, having passed exactly these messages on.
-/

set_option autoImplicit false

namespace Hyprwire.Wire

open Cpp

/-! ## The handshake -/

/-- **An encoded message is read back, wherever it lies.** -/
theorem CHelloMessage.decode_of_holds {data : View} {offset : Nat}
    (holds : data.Holds offset encode) (inside : offset + 7 ≤ data.size)
    (small : data.size < 2 ^ 63) : decode data offset = .ok { len := 7 } :=
  decode_hello (by omega) small holds

/-- **An encoded message is read back, wherever it lies.** -/
theorem CHandshakeAckMessage.decode_of_holds {data : View} {offset : Nat} {version : UInt32}
    (holds : data.Holds offset (encode version)) (inside : offset + 7 ≤ data.size)
    (small : data.size < 2 ^ 63) : decode data offset = .ok { version, len := 7 } := by
  simp only [encode, View.holds_append, List.length_append, List.length_cons, List.length_nil,
    length_u32Bytes] at holds
  obtain ⟨⟨tags, versionHeld⟩, ends⟩ := holds
  have first := View.checkedAt_inside tags (by omega) small
  have second := View.checkedAt_inside (View.holds_cons.mp tags).2 (by omega) small
  have third := View.checkedAt_inside ends (by omega) small
  have fourth := View.u32At_inside versionHeld (by omega) small
  have room : ¬ wrapSub (wrapSub data.size offset) 2 < 4 := by
    have left : wrapSub data.size offset = data.size - offset := wrapSub_of_le (by omega) (by omega)
    rw [left, wrapSub_of_le (by omega) (by omega)]
    omega
  simp only [decode, first, second, third, fourth, ok_bind, ne_eq, not_true_eq_false, if_false,
    if_neg room, pure_eq_ok, catchOutOfRange_ok]

/-- A length that was encoded is read back from inside the buffer. -/
theorem parseVarIntAt_encodeVarInt {data : View} {i n : Nat} (small : n < 2 ^ 28)
    (holds : data.Holds i (encodeVarInt n)) (inside : i + (encodeVarInt n).length ≤ data.size)
    (size : data.size < 2 ^ 63) :
    parseVarIntAt data i = .ok (n, (encodeVarInt n).length) := by
  have room : wrapSub data.size i = data.size - i := wrapSub_of_le (by omega) (by omega)
  rw [parseVarIntAt]
  exact parseVarInt_encodeVarInt small holds (by omega)

/-- Storage is to be had for as many elements as a length can stand for. -/
theorem resize_ample {count width : Nat} (few : count < 2 ^ 28) (narrow : 0 < width)
    (limit : width ≤ 32) : resize .ample count width = .ok () := by
  have most : 2 ^ 28 ≤ (2 ^ 63 - 1) / width :=
    (Nat.le_div_iff_mul_le narrow).mpr (by omega)
  have fits : ¬ (2 ^ 63 - 1) / width < count := by omega
  rw [resize, if_neg fits]
  rfl

theorem CHandshakeBeginMessage.readVersions_of_holds {data : View} {index : Nat}
    {versions : List UInt32} (holds : data.Holds index (versions.flatMap u32Bytes))
    (inside : index + 4 * versions.length ≤ data.size) (small : data.size < 2 ^ 63) :
    readVersions data versions.length index = .ok versions := by
  induction versions generalizing index with
  | nil => rfl
  | cons version rest ih =>
      rw [List.length_cons] at inside
      obtain ⟨head, tail⟩ := View.holds_append.mp holds
      have place : wrap index = index := wrap_of_lt (by omega)
      have first := View.u32At_inside head (by omega) small
      have others := ih tail (by rw [length_u32Bytes]; omega)
      rw [length_u32Bytes] at others
      simp only [List.length_cons, readVersions, place, first, others, ok_bind, pure_eq_ok]

/-- **An encoded message is read back, wherever it lies.** -/
theorem CHandshakeBeginMessage.decode_of_holds {data : View} {offset : Nat}
    {versions : List UInt32} (holds : data.Holds offset (encode versions))
    (inside : offset + (encode versions).length ≤ data.size) (small : data.size < 2 ^ 63)
    (few : versions.length < 2 ^ 28) :
    decode .ample data offset =
      .ok { versionsSupported := versions, len := (encode versions).length } := by
  simp only [encode, View.holds_append, List.length_append, List.length_cons, List.length_nil,
    length_flatMap_u32Bytes] at holds inside ⊢
  generalize lengthBytes : (encodeVarInt versions.length).length = k at *
  obtain ⟨⟨⟨tags, countHeld⟩, versionsHeld⟩, ends⟩ := holds
  have first := View.checkedAt_inside tags (by omega) small
  have second := View.checkedAt_inside (View.holds_cons.mp tags).2 (by omega) small
  have third := View.checkedAt_inside (View.holds_cons.mp (View.holds_cons.mp tags).2).2
    (by omega) small
  have count := parseVarIntAt_encodeVarInt few countHeld (by omega) small
  rw [lengthBytes] at count
  have sized := @resize_ample versions.length 4 few (by decide) (by decide)
  have read := readVersions_of_holds versionsHeld (by omega) small
  have last := View.checkedAt_inside ends (by omega) small
  have needle : wrap (3 + k + versions.length * 4) = 3 + k + 4 * versions.length := by
    rw [wrap_of_lt (by omega), Nat.mul_comm]
  have place : wrap (offset + (3 + k + 4 * versions.length)) =
      offset + (3 + k + 4 * versions.length) := wrap_of_lt (by omega)
  have length : wrap (3 + k + 4 * versions.length + 1) = 3 + k + 4 * versions.length + 1 :=
    wrap_of_lt (by omega)
  simp only [Nat.reduceAdd, Nat.add_assoc] at first second third count read last needle place length ⊢
  simp only [decode, Nat.add_assoc, first, second, third, count, ok_bind, ne_eq,
    not_true_eq_false, if_false, sized, read, needle, place, last, length, pure_eq_ok,
    catchOutOfRange_ok]

/-- A string is looked at before it is copied: its first byte, or the one behind it. -/
theorem checkedAt_ahead {data : View} {i : Nat} {bytes : List UInt8} {last : UInt8}
    (holds : data.Holds i (bytes ++ [last])) (inside : i < data.size) (small : data.size < 2 ^ 63) :
    ∃ byte, data.checkedAt i = .ok byte := by
  cases bytes with
  | nil => exact ⟨last, View.checkedAt_inside holds inside small⟩
  | cons byte rest => exact ⟨byte, View.checkedAt_inside holds inside small⟩

/-- The strings of an encoded list are read one after the other. -/
theorem CHandshakeProtocolsMessage.readProtocols_of_holds {data : View} {offset needle : Nat}
    {protocols : List Str} {last : UInt8}
    (holds : data.Holds (offset + needle)
      (protocols.flatMap (fun protocol => encodeVarInt protocol.length ++ protocol) ++ [last]))
    (inside : offset + needle + (protocols.flatMap fun protocol =>
      encodeVarInt protocol.length ++ protocol).length < data.size)
    (small : data.size < 2 ^ 63) (short : ∀ protocol ∈ protocols, protocol.length < 2 ^ 28) :
    readProtocols .ample data offset protocols.length needle =
      .ok (protocols, needle + (protocols.flatMap fun protocol =>
        encodeVarInt protocol.length ++ protocol).length) := by
  induction protocols generalizing needle with
  | nil => rfl
  | cons protocol rest ih =>
      have protocolShort := short protocol List.mem_cons_self
      rw [List.flatMap_cons, List.append_assoc, List.append_assoc, View.holds_append] at holds
      simp only [List.flatMap_cons, List.length_append] at inside ⊢
      generalize lengthBytes : (encodeVarInt protocol.length).length = k at *
      obtain ⟨lengthHeld, afterLength⟩ := holds
      obtain ⟨protocolHeld, restHeld⟩ := View.holds_append.mp afterLength
      have start : wrap (offset + needle) = offset + needle := wrap_of_lt (by omega)
      have length := parseVarIntAt_encodeVarInt protocolShort lengthHeld (by omega) small
      rw [lengthBytes] at length
      have place : wrap (offset + needle + k) = offset + needle + k := wrap_of_lt (by omega)
      rw [← List.append_assoc] at afterLength
      obtain ⟨byte, read⟩ := checkedAt_ahead afterLength (by omega) small
      have copied := View.copyString_of_holds protocolHeld (by omega)
      have next : wrap (needle + protocol.length + k) = needle + (k + protocol.length) := by
        rw [wrap_of_lt (by omega)]
        omega
      have others := @ih (needle + (k + protocol.length))
        (by rwa [Nat.add_assoc, Nat.add_assoc] at restHeld) (by omega)
        fun protocol member => short protocol (List.mem_cons_of_mem _ member)
      simp only [List.length_cons, readProtocols, start, length, ok_bind, place, read, copied, next,
        others, pure_eq_ok]
      rw [Nat.add_assoc needle]

/-- **An encoded message is read back, wherever it lies.** -/
theorem CHandshakeProtocolsMessage.decode_of_holds {data : View} {offset : Nat}
    {protocols : List Str} (holds : data.Holds offset (encode protocols))
    (inside : offset + (encode protocols).length ≤ data.size) (small : data.size < 2 ^ 63)
    (few : protocols.length < 2 ^ 28) (short : ∀ protocol ∈ protocols, protocol.length < 2 ^ 28) :
    decode .ample data offset = .ok { protocols, len := (encode protocols).length } := by
  simp only [encode, View.holds_append, List.length_append, List.length_cons, List.length_nil]
    at holds inside ⊢
  generalize lengthBytes : (encodeVarInt protocols.length).length = k at *
  generalize total : (protocols.flatMap fun protocol =>
    encodeVarInt protocol.length ++ protocol).length = n at *
  obtain ⟨⟨⟨tags, countHeld⟩, protocolsHeld⟩, ends⟩ := holds
  have first := View.checkedAt_inside tags (by omega) small
  have second := View.checkedAt_inside (View.holds_cons.mp tags).2 (by omega) small
  have third := View.checkedAt_inside (View.holds_cons.mp (View.holds_cons.mp tags).2).2
    (by omega) small
  have count := parseVarIntAt_encodeVarInt few countHeld (by omega) small
  rw [lengthBytes] at count
  have sized := @resize_ample protocols.length 32 few (by decide) (by decide)
  have strings := @readProtocols_of_holds data offset (3 + k) protocols _
    (View.holds_append.mpr ⟨protocolsHeld, by rw [total, Nat.add_assoc]; exact ends⟩)
    (by rw [total]; omega) small short
  rw [total] at strings
  have last := View.checkedAt_inside ends (by omega) small
  have place : wrap (offset + (3 + k + n)) = offset + (3 + k + n) := wrap_of_lt (by omega)
  have length : wrap (3 + k + n + 1) = 3 + k + n + 1 := wrap_of_lt (by omega)
  simp only [Nat.reduceAdd, Nat.add_assoc] at first second third count strings last place length ⊢
  simp only [decode, Nat.add_assoc, first, second, third, count, ok_bind, ne_eq,
    not_true_eq_false, if_false, sized, strings, place, last, length, pure_eq_ok,
    catchOutOfRange_ok]

/-! ## Batches -/

/-- Each of some messages is read at its place of a buffer that ends behind the last one,
as what is said to arrive of it, and takes its own descriptors from the queue. -/
inductive Readable (parse : View → List Fd → Nat → Option (Except Fault (Parsed × List Fd)))
    (data : View) : Nat → List Message → List Received → Prop
  | nil : Readable parse data data.size [] []
  | cons {off : Nat} {message : Message} {messages : List Message} {received : Received}
      {rest : List Received} (inside : off < data.size) (some_ : message.data ≠ [])
      (read : ∀ queue, parse data (message.fds ++ queue) off =
        some (.ok (.message received message.data.length, queue)))
      (more : Readable parse data (off + message.data.length) messages rest) :
      Readable parse data off (message :: messages) (received :: rest)

variable {σ : Type}

/-- A receiver takes messages one after the other: it is not stopped before any, and acts
on each without a fault. -/
inductive Takes (receiver : Receiver σ) : σ → List Received → σ → Prop
  | nil {conn : σ} : Takes receiver conn [] conn
  | cons {conn next last : σ} {received : Received} {rest : List Received}
      (going : receiver.stops conn = false)
      (acted : receiver.handle received conn = some (.ok next))
      (more : Takes receiver next rest last) : Takes receiver conn (received :: rest) last

/-- How a receiver parses does not matter to what it takes. -/
theorem Takes.receiver {receiver : Receiver σ} {conn last : σ} {received : List Received}
    (takes : Takes receiver conn received last) (side : Side) (heap : Heap) :
    Takes (side.receiver heap receiver) conn received last := by
  induction takes with
  | nil => exact .nil
  | cons going acted _ ih => exact .cons going acted ih

theorem Readable.le {parse : View → List Fd → Nat → Option (Except Fault (Parsed × List Fd))}
    {data : View} {off : Nat} {messages : List Message} {received : List Received}
    (readable : Readable parse data off messages received) : off ≤ data.size := by
  cases readable with
  | nil => exact le_rfl
  | cons inside => exact Nat.le_of_lt inside

/-- **After one turn for each message the loop is at the end of the buffer**, with an empty
queue, and has passed the messages on. -/
theorem stateAfter_batch {receiver : Receiver σ} {data : View} (small : data.size < 2 ^ 63)
    {off : Nat} {messages : List Message} {received : List Received} {conn last : σ}
    (readable : Readable receiver.parse data off messages received)
    (takes : Takes receiver conn received last) (handled : List Received) :
    stateAfter (parseTurn receiver data) messages.length
        ⟨off, messages.flatMap Message.fds, conn, handled⟩ =
      some ⟨data.size, [], last, handled ++ received⟩ := by
  induction readable generalizing conn handled with
  | nil =>
      cases takes
      rw [List.append_nil]
      rfl
  | @cons off message messages received rest inside some_ read more ih =>
      cases takes with
      | @cons _ conn' _ _ _ going acted takes =>
          have length : message.data.length ≠ 0 := List.length_eq_zero_iff.not.mpr some_
          have needle : wrap (off + message.data.length) = off + message.data.length :=
            wrap_of_lt (by have := more.le; omega)
          have next : Next (parseTurn receiver data)
              ⟨off, message.fds ++ messages.flatMap Message.fds, conn, handled⟩
              ⟨wrap (off + message.data.length), messages.flatMap Message.fds, conn',
                handled ++ [received]⟩ :=
            parseTurn_next_iff.mpr
              ⟨⟨inside, going⟩, received, _, _, conn', read _, acted, length, rfl⟩
          rw [needle] at next
          simp only [List.flatMap_cons, List.length_cons, stateAfter,
            show parseTurn receiver data _ = some (.again _) from next]
          rw [ih takes (handled ++ [received]), List.append_assoc, List.singleton_append]

/-- **The loop over a batch passes on the messages from the first one on.** -/
theorem Readable.reached {receiver : Receiver σ} {data : View} (small : data.size < 2 ^ 63)
    {messages : List Message} {received : List Received} {s p : ParseState σ}
    (readable : Readable receiver.parse data s.needle messages received)
    (queue : s.fds = messages.flatMap Message.fds)
    (reaches : Reaches (parseTurn receiver data) s p) :
    ∃ taken left, received = taken ++ left ∧ p.handled = s.handled ++ taken ∧
      Takes receiver s.conn taken p.conn := by
  induction reaches using Relation.ReflTransGen.head_induction_on generalizing messages received with
  | refl => exact ⟨[], received, rfl, (List.append_nil _).symm, .nil⟩
  | @head s s' next _ ih =>
      obtain ⟨going, received', len, left, conn, read, acted, -, rfl⟩ := parseTurn_next_iff.mp next
      generalize start : s.needle = off at readable
      cases readable with
      | nil => exact absurd (start ▸ going.1) (Nat.lt_irrefl _)
      | @cons off message messages received rest inside some_ whole more =>
          rw [queue, List.flatMap_cons, start, whole] at read
          cases read
          have needle : wrap (off + message.data.length) = off + message.data.length :=
            wrap_of_lt (by have := more.le; omega)
          obtain ⟨taken, left, all, handled, takes⟩ :=
            ih (by rw [start, needle]; exact more) rfl
          refine ⟨received' :: taken, left, congrArg (List.cons received') all, ?_,
            .cons going.2 acted takes⟩
          rw [handled, List.append_assoc, List.singleton_append]

/-- **A batch is handled whole**, in order and each message once. -/
theorem handleMessage_batch {receiver : Receiver σ} {data : View} (small : data.size < 2 ^ 63)
    {messages : List Message} {received : List Received} {conn last : σ}
    (readable : Readable receiver.parse data 0 messages received)
    (takes : Takes receiver conn received last) :
    handleMessage receiver (messages.length + 1) ⟨data, messages.flatMap Message.fds⟩ conn =
      some (.ok ⟨.parsedOk, last, received⟩) := by
  have there := stateAfter_batch small readable takes []
  have leaves : parseTurn receiver data ⟨data.size, [], last, received⟩ =
      some (.leave (.ok ⟨.parsedOk, last, received⟩)) :=
    parseTurn_eq_parsedOk.mpr ⟨.inl le_rfl, rfl, rfl, rfl⟩
  rw [handleMessage, firstMessage, loop_add there]
  exact loop_leave leaves 0

end Hyprwire.Wire
