import Hyprwire.Object.Segments

/-!
# Messages that frame themselves

`Framed` are the messages that are written from values with lengths that fit their prefixes:
control messages of any direction, and calls made of tokens. The receiving side reads such a
message by its own bytes only (`Framed.arrives`): wherever it lies, and whatever descriptors are
queued behind its own, it is taken whole as one and the same message, or it is refused.
-/

set_option autoImplicit false

namespace Hyprwire.Wire

open Cpp

/-- **An encoded message is read back, wherever it lies.** -/
theorem CFatalErrorMessage.decode_of_holds {data : View} {offset : Nat} {object : Option UInt32}
    {errorId : UInt32} {msg : Str} (holds : data.Holds offset (encode object errorId msg))
    (inside : offset + (encode object errorId msg).length ≤ data.size) (small : data.size < 2 ^ 63)
    (short : msg.length < 2 ^ 28) :
    decode .ample data offset =
      .ok ⟨object.getD 0, errorId, msg, (encode object errorId msg).length⟩ := by
  simp only [encode, View.holds_append, List.length_append, List.length_cons, List.length_nil,
    length_u32Bytes] at holds inside ⊢
  generalize lengthBytes : (encodeVarInt msg.length).length = k at *
  obtain ⟨⟨⟨⟨⟨⟨⟨tags, objectHeld⟩, tag⟩, errorHeld⟩, tag'⟩, lengthHeld⟩, msgHeld⟩, ends⟩ := holds
  have first := View.checkedAt_inside tags (by omega) small
  have second := View.checkedAt_inside (View.holds_cons.mp tags).2 (by omega) small
  have third := View.u32At_inside objectHeld (by omega) small
  have fourth := View.checkedAt_inside tag (by omega) small
  have fifth := View.u32At_inside errorHeld (by omega) small
  have sixth := View.checkedAt_inside tag' (by omega) small
  have length := parseVarIntAt_encodeVarInt short lengthHeld (by omega) small
  rw [lengthBytes] at length
  have copied := View.copyString_of_holds msgHeld (by omega)
  have last := View.checkedAt_inside ends (by omega) small
  have start : wrap (offset + (12 + k)) = offset + (12 + k) := wrap_of_lt (by omega)
  have needle : wrap (12 + (k + msg.length)) = 12 + (k + msg.length) := wrap_of_lt (by omega)
  have place : wrap (offset + (12 + (k + msg.length))) = offset + (12 + (k + msg.length)) :=
    wrap_of_lt (by omega)
  have len : wrap (12 + (k + (msg.length + 1))) = 12 + (k + (msg.length + 1)) :=
    wrap_of_lt (by omega)
  simp only [Nat.reduceAdd] at first second third fourth fifth sixth length copied
  simp only [Nat.reduceAdd, Nat.add_assoc] at last len ⊢
  simp only [decode, Nat.add_assoc, first, second, third, fourth, fifth, sixth, length, ok_bind,
    ne_eq, not_true_eq_false, if_false, start, copied, needle, place, last, len, pure_eq_ok,
    catchOutOfRange_ok]

/-- A message that binds version zero is refused. -/
theorem CBindProtocolMessage.decode_zero {data : View} {offset : Nat} {protocol : Str}
    {seq : UInt32} (holds : data.Holds offset (encode protocol seq 0))
    (inside : offset + (encode protocol seq 0).length ≤ data.size) (small : data.size < 2 ^ 63)
    (short : protocol.length < 2 ^ 28) : decode .ample data offset = .ok { protocol, seq } := by
  simp only [encode, View.holds_append, List.length_append, List.length_cons, List.length_nil,
    length_u32Bytes] at holds inside
  generalize lengthBytes : (encodeVarInt protocol.length).length = k at *
  obtain ⟨⟨⟨⟨⟨⟨⟨tags, seqHeld⟩, strTag⟩, lengthHeld⟩, strHeld⟩, tag⟩, versionHeld⟩, -⟩ := holds
  have first := View.checkedAt_inside tags (by omega) small
  have second := View.checkedAt_inside (View.holds_cons.mp tags).2 (by omega) small
  have third := View.u32At_inside seqHeld (by omega) small
  have fourth := View.checkedAt_inside strTag (by omega) small
  have length := parseVarIntAt_encodeVarInt short lengthHeld (by omega) small
  rw [lengthBytes] at length
  obtain ⟨byte, ahead⟩ :=
    checkedAt_ahead (View.holds_append.mpr ⟨strHeld, by rwa [Nat.add_assoc]⟩) (by omega) small
  have copied := View.copyString_of_holds strHeld (by omega)
  have fifth := View.checkedAt_inside tag (by omega) small
  have version := View.u32At_inside versionHeld (by omega) small
  have start : wrap (offset + (7 + k)) = offset + (7 + k) := wrap_of_lt (by omega)
  have needle : wrap (7 + (k + protocol.length)) = 7 + (k + protocol.length) :=
    wrap_of_lt (by omega)
  have place : wrap (offset + (7 + (k + protocol.length))) = offset + (7 + (k + protocol.length)) :=
    wrap_of_lt (by omega)
  have behind : wrap (offset + (7 + (k + (protocol.length + 1)))) =
      offset + (7 + (k + (protocol.length + 1))) := wrap_of_lt (by omega)
  simp only [Nat.reduceAdd] at first second third fourth length
  simp only [Nat.reduceAdd, Nat.add_assoc] at ahead copied fifth version
  simp only [decode, Nat.add_assoc, first, second, third, fourth, length, ok_bind, ne_eq,
    not_true_eq_false, if_false, start, ahead, copied, needle, place, fifth, behind, version,
    if_true, pure_eq_ok, catchOutOfRange_ok]

end Hyprwire.Wire

namespace Hyprwire.Object

open Cpp Wire CGenericProtocolMessage

/-! ## Framed messages -/

/-- The bytes of a call behind its header. -/
def callBody (tokens : List Token) : List UInt8 :=
  tokens.flatMap Token.bytes ++ [EMessageMagic.endMark.code]

/-- A message that is written from values with lengths that fit. -/
inductive Framed : Message → Prop
  | hello : Framed .hello
  | handshakeBegin {versions : List UInt32} (few : versions.length < 2 ^ 28) :
      Framed (.handshakeBegin versions)
  | handshakeAck {version : UInt32} : Framed (.handshakeAck version)
  | handshakeProtocols {protocols : List Str} (few : protocols.length < 2 ^ 28)
      (short : ∀ protocol ∈ protocols, protocol.length < 2 ^ 28) :
      Framed (.handshakeProtocols protocols)
  | bindProtocol {protocol : Str} {seq version : UInt32} (short : protocol.length < 2 ^ 28) :
      Framed (.bindProtocol protocol seq version)
  | newObject {seq id : UInt32} : Framed (.newObject seq id)
  | fatalError {object : Option UInt32} {errorId : UInt32} {msg : Str}
      (short : msg.length < 2 ^ 28) : Framed (.fatalError object errorId msg)
  | roundtripRequest {seq : UInt32} : Framed (.roundtripRequest seq)
  | roundtripDone {seq : UInt32} : Framed (.roundtripDone seq)
  | call {object id : UInt32} (tokens : List Token) :
      Framed (.generic (callHeader object id ++ callBody tokens) (tokens.flatMap Token.descriptors))

/-- The bytes of a message lie at an offset of a buffer. -/
structure Lies (message : Message) (data : View) (off : Nat) : Prop where
  holds : data.Holds off message.data
  inside : off + message.data.length ≤ data.size
  small : data.size < 2 ^ 63

/-- Wherever a message lies, and whatever is queued behind its descriptors, a side reads it as one
and the same message, with its own descriptors. -/
def ReadsAs (side : Side) (message : Message) (own : Received) : Prop :=
  ∀ data off queue, Lies message data off → ∃ received,
    side.parse .ample data (message.fds ++ queue) off =
        some (.ok (.message received message.data.length, queue)) ∧
      OfElements received ∧ alone received = own

/-- How a message arrives at a side, wherever it lies: it is refused, or it is read. -/
inductive Arrives (side : Side) (message : Message) : Prop
  | refused (refuses : ∀ data off queue, Lies message data off →
      ∃ parsed left, side.parse .ample data (message.fds ++ queue) off = some (.ok (parsed, left)) ∧
        (parsed = .malformed ∨ parsed = .invalid))
  | read (own : Received) (reads : ReadsAs side message own)

theorem Outgoing.readsAs {side : Side} (outgoing : Outgoing side) :
    ReadsAs side outgoing.message outgoing.arrival :=
  fun _ _ queue lies =>
    ⟨_, outgoing.parse_eq queue lies.holds lies.inside lies.small,
      outgoing.ofElements_received lies.holds lies.inside lies.small,
      outgoing.alone_received lies.holds lies.inside lies.small⟩

theorem Outgoing.arrives {side : Side} (outgoing : Outgoing side) : Arrives side outgoing.message :=
  .read _ outgoing.readsAs

/-! ## Messages that are refused -/

/-- A message of a type that the side does not read is refused. -/
theorem arrives_of_not_reads {side : Side} {message : Message} (tagged : Tagged message)
    (other : side.reads message.type = false) : Arrives side message := by
  refine .refused fun data off queue lies => ?_
  have bytes : ∃ rest, message.data = message.type.code :: rest := by
    have head := tagged.head
    cases written : message.data with
    | nil => rw [written] at head; cases head
    | cons byte rest => rw [written] at head; cases head; exact ⟨rest, rfl⟩
  obtain ⟨rest, written⟩ := bytes
  have tag : data.checkedAt off = .ok message.type.code := by
    have held := lies.holds
    have inside := lies.inside
    rw [written] at held inside
    rw [List.length_cons] at inside
    exact View.checkedAt_inside held (by omega) lies.small
  cases side with
  | server =>
      refine ⟨.invalid, message.fds ++ queue, ?_, .inr rfl⟩
      cases kind : message.type with
      | sup | handshakeAck | bindProtocol | roundtripRequest | genericProtocolMessage =>
          rw [kind] at other
          cases other
      | _ =>
          rw [kind] at tag
          simp only [Side.parse, parseServer, tag, EMessageType.ofByte_code]
          rfl
  | client =>
      cases kind : message.type with
      | sup | handshakeAck | bindProtocol | roundtripRequest =>
          refine ⟨.invalid, message.fds ++ queue, ?_, .inr rfl⟩
          rw [kind] at tag
          simp only [Side.parse, parseClient, tag, EMessageType.ofByte_code]
          rfl
      | invalid =>
          refine ⟨.malformed, message.fds ++ queue, ?_, .inl rfl⟩
          rw [kind] at tag
          simp only [Side.parse, parseClient, tag, EMessageType.ofByte_code]
          rfl
      | _ =>
          rw [kind] at other
          cases other

/-- A control message that is decoded without a length is refused. -/
theorem readControl_malformed {μ : Type} {result : Except Fault μ} {msg : μ} {len : μ → Nat}
    {make : μ → Received} {fds : List Fd} (decoded : result = .ok msg) (length : len msg = 0) :
    readControl fds (result >>= fun msg => pure (.ofLen (len msg) (make msg))) =
      some (.ok (.malformed, fds)) := by
  rw [decoded, ok_bind, pure_eq_ok, Parsed.ofLen, if_pos length]
  rfl

/-- The first byte of a message. -/
theorem Lies.tag {message : Message} {data : View} {off : Nat} (lies : Lies message data off)
    {type : EMessageType} {rest : List UInt8} (begins : message.data = type.code :: rest) :
    data.checkedAt off = .ok type.code := by
  have held := lies.holds
  have inside := lies.inside
  rw [begins] at held inside
  rw [List.length_cons] at inside
  exact View.checkedAt_inside held (by omega) lies.small

/-! ## Calls -/

theorem length_callBody (tokens : List Token) :
    (callBody tokens).length = (tokens.flatMap Token.bytes).length + 1 := by
  rw [callBody, List.length_append, List.length_singleton]

/-- A call made of tokens, with nothing around it. -/
def callArrival (object id : UInt32) (tokens : List Token) : CGenericProtocolMessage where
  object := object
  method := id
  len := 11 + (callBody tokens).length
  fds := tokens.flatMap Token.descriptors
  dataSpan := ⟨(callBody tokens).length, fun i => (callBody tokens)[i]?⟩

/-- **A call made of tokens** is read at any place by its own bytes. -/
theorem readsAs_call {side : Side} {object id : UInt32} (tokens : List Token) :
    ReadsAs side (.generic (callHeader object id ++ callBody tokens)
      (tokens.flatMap Token.descriptors)) (.generic (callArrival object id tokens)) := by
  intro data off queue lies
  have length : (Message.generic (callHeader object id ++ callBody tokens)
      (tokens.flatMap Token.descriptors)).data.length = 11 + (callBody tokens).length := by
    rw [Message.data, List.length_append, length_callHeader]
  have inside := lies.inside
  have small := lies.small
  have body := length_callBody tokens
  rw [length] at inside
  obtain ⟨header, elements⟩ := View.holds_append.mp lies.holds
  rw [length_callHeader] at elements
  have named := decodeHeader_of_holds header (by omega) small
  have decoded := @decode_tokens data off object id tokens queue named elements (by omega) small
  have read : side.parse .ample data (tokens.flatMap Token.descriptors ++ queue) off =
      some (.ok (.message (.generic { callArrival object id tokens with
        dataSpan := data.span (off + 11) (callBody tokens).length })
        (11 + (callBody tokens).length), queue)) := by
    rw [Side.parse_generic (tag_of_decodeHeader named), readGeneric, decoded]
    have len : 12 + (tokens.flatMap Token.bytes).length = 11 + (callBody tokens).length := by omega
    rw [len, ← body]
    simp only [Option.map_some, Except.map, Parsed.ofLen, Nat.add_eq_zero_iff, OfNat.ofNat_ne_zero,
      false_and, if_false]
    rfl
  rw [length]
  refine ⟨_, read, ⟨tokens, View.holds_span.mpr elements, body, ?_, rfl⟩, ?_⟩
  · show (callBody tokens).length < 2 ^ 63
    omega
  · have bytes : (data.span (off + 11) (callBody tokens).length).guarded =
        ⟨(callBody tokens).length, fun i => (callBody tokens)[i]?⟩ := by
      simp only [View.guarded, View.span]
      congr 1
      funext i
      by_cases within : i < (callBody tokens).length
      · refine (if_pos within).trans ?_
        exact (elements i within).trans (List.getElem?_eq_getElem within).symm
      · refine (if_neg within).trans ?_
        exact (List.getElem?_eq_none (Nat.le_of_not_lt within)).symm
    simp only [alone, bytes]
    rfl

/-- An error is read at any place by its own bytes. -/
theorem readsAs_fatalError {object : Option UInt32} {errorId : UInt32} {msg : Str}
    (short : msg.length < 2 ^ 28) :
    ReadsAs .client (.fatalError object errorId msg)
      (.fatalError (object.getD 0) errorId msg) := by
  intro data off queue lies
  have decoded := CFatalErrorMessage.decode_of_holds lies.holds lies.inside lies.small short
  refine ⟨.fatalError (object.getD 0) errorId msg, ?_, trivial, rfl⟩
  simp only [Side.parse, parseClient, @Lies.tag _ _ _ lies .fatalProtocolError _ rfl,
    EMessageType.ofByte_code, decoded, ok_bind]
  rfl

/-- The strings that a server offers are read at any place by their own bytes. -/
theorem readsAs_handshakeProtocols {protocols : List Str} (few : protocols.length < 2 ^ 28)
    (short : ∀ protocol ∈ protocols, protocol.length < 2 ^ 28) :
    ∃ own, ReadsAs .client (.handshakeProtocols protocols) own := by
  have same : (protocols.attachWith _ short).map Subtype.val = protocols :=
    List.attachWith_map_subtype_val _
  have reads := (Outgoing.handshakeProtocols (protocols.attachWith _ short)
    (by rwa [List.length_attachWith])).readsAs
  rw [Outgoing.message, same] at reads
  exact ⟨_, reads⟩

/-! ## Every framed message -/

/-- **A framed message is read by its own bytes only.** -/
theorem Framed.arrives {message : Message} (framed : Framed message) (side : Side) :
    Arrives side message := by
  have other : ∀ {message : Message} {side : Side}, Tagged message →
      side.reads message.type = false → Arrives side message := arrives_of_not_reads
  cases framed with
  | hello =>
      cases side with
      | server => exact Outgoing.hello.arrives
      | client => exact other trivial rfl
  | @handshakeAck value =>
      cases side with
      | server => exact (Outgoing.handshakeAck value).arrives
      | client => exact other trivial rfl
  | @roundtripRequest value =>
      cases side with
      | server => exact (Outgoing.roundtripRequest value).arrives
      | client => exact other trivial rfl
  | @bindProtocol protocol seq version short =>
      cases side with
      | client => exact other trivial rfl
      | server =>
          by_cases zero : version = 0
          · subst zero
            refine .refused fun data off queue lies => ⟨.malformed, queue, ?_, .inl rfl⟩
            have decoded := CBindProtocolMessage.decode_zero lies.holds lies.inside lies.small short
            simp only [Side.parse, parseServer, @Lies.tag _ _ _ lies .bindProtocol _ rfl,
              EMessageType.ofByte_code]
            exact readControl_malformed decoded rfl
          · exact (Outgoing.bindProtocol ⟨protocol, short⟩ seq version zero).arrives
  | @handshakeBegin versions few =>
      cases side with
      | server => exact other trivial rfl
      | client =>
          by_cases offers : protocolVer ∈ versions
          · exact (Outgoing.handshakeBegin versions few offers).arrives
          · refine .refused fun data off queue lies => ⟨.malformed, queue, ?_, .inl rfl⟩
            have decoded := CHandshakeBeginMessage.decode_of_holds lies.holds lies.inside lies.small
              few
            have length : (CHandshakeBeginMessage.encode versions).length ≠ 0 := by
              rw [CHandshakeBeginMessage.encode]
              simp
            simp only [Side.parse, parseClient, @Lies.tag _ _ _ lies .handshakeBegin _ rfl,
              EMessageType.ofByte_code, decoded, ok_bind]
            rw [if_pos ⟨length, offers⟩]
            rfl
  | @handshakeProtocols protocols few short =>
      cases side with
      | server => exact other trivial rfl
      | client =>
          obtain ⟨own, reads⟩ := readsAs_handshakeProtocols few short
          exact .read own reads
  | @newObject seq id =>
      cases side with
      | server => exact other trivial rfl
      | client => exact (Outgoing.newObject seq id).arrives
  | @roundtripDone value =>
      cases side with
      | server => exact other trivial rfl
      | client => exact (Outgoing.roundtripDone value).arrives
  | @fatalError object errorId msg short =>
      cases side with
      | server => exact other trivial rfl
      | client =>
          exact .read _ (readsAs_fatalError short)
  | call tokens => exact .read _ (readsAs_call tokens)

/-! ## Reading framed messages -/

/-- What was received is the message: wherever the message lies, it is read as this, up to what
is around it. -/
structure Delivered (side : Side) (message : Message) (received : Received) : Prop where
  elements : OfElements received
  reads : ReadsAs side message (alone received)

theorem Framed.data_ne_nil {message : Message} (framed : Framed message) : message.data ≠ [] := by
  cases framed <;> exact List.cons_ne_nil _ _

/-- The bytes of some messages. -/
def messageData (messages : List Message) : List UInt8 := messages.flatMap Message.data

/-- The descriptors of some messages. -/
def messageFds (messages : List Message) : List Fd := messages.flatMap Message.fds

variable {σ : Type} {side : Side} {receiver : Receiver σ} {data : View}

/-- The loop over a read stands before the last ones of its messages, and the others have been
acted on. -/
structure Standing (side : Side) (receiver : Receiver σ) (data : View) (messages : List Message)
    (conn : σ) (p : ParseState σ) (taken left : List Message) : Prop where
  all : messages = taken ++ left
  holds : data.Holds p.needle (messageData left)
  ends : p.needle + (messageData left).length = data.size
  queue : p.fds = messageFds left
  delivered : List.Forall₂ (Delivered side) taken p.handled
  takes : Takes receiver conn p.handled p.conn

/-- What has been taken, and one message more. -/
theorem takes_append {conn next last : σ} {first : List Received} {received : Received}
    (takes : Takes receiver conn first next) (going : receiver.stops next = false)
    (acted : receiver.handle received next = some (.ok last)) :
    Takes receiver conn (first ++ [received]) last := by
  induction takes with
  | nil => exact .cons going acted .nil
  | cons going' acted' _ ih => exact .cons going' acted' (ih going acted)

/-- The first one of the messages that are left lies at the needle. -/
theorem Standing.lies {messages taken left : List Message} {message : Message} {conn : σ}
    {p : ParseState σ} (standing : Standing side receiver data messages conn p taken (message :: left))
    (small : data.size < 2 ^ 63) : Lies message data p.needle where
  holds := (View.holds_append.mp standing.holds).1
  inside := by
    have ends := standing.ends
    rw [messageData, List.flatMap_cons, List.length_append] at ends
    omega
  small := small

/-- There is a message at a needle inside the bytes. -/
theorem Standing.exists_cons {messages taken left : List Message} {conn : σ} {p : ParseState σ}
    (standing : Standing side receiver data messages conn p taken left)
    (inside : p.needle < data.size) : ∃ message rest, left = message :: rest := by
  cases left with
  | nil =>
      have ends := standing.ends
      rw [messageData, List.flatMap_nil, List.length_nil, Nat.add_zero] at ends
      exact absurd inside (ends ▸ Nat.lt_irrefl _)
  | cons message rest => exact ⟨message, rest, rfl⟩

/-- What is read at the needle is the message that lies there. -/
theorem Standing.reads {messages taken left : List Message} {message : Message} {received : Received}
    {conn : σ} {p : ParseState σ} {len : Nat} {queue : List Fd}
    (standing : Standing side receiver data messages conn p taken (message :: left))
    (parse : receiver.parse = side.parse .ample) (small : data.size < 2 ^ 63)
    (framed : ∀ message ∈ messages, Framed message)
    (read : receiver.parse data p.fds p.needle = some (.ok (.message received len, queue))) :
    len = message.data.length ∧ queue = messageFds left ∧ Delivered side message received := by
  have lies := standing.lies small
  have member : message ∈ messages := standing.all ▸ List.mem_append_right _ List.mem_cons_self
  rw [parse, standing.queue, messageFds, List.flatMap_cons] at read
  cases (framed message member).arrives side with
  | refused refuses =>
      obtain ⟨parsed, queue', refused, either⟩ := refuses data p.needle _ lies
      rw [refused] at read
      cases read
      rcases either with same | same <;> cases same
  | read own reads =>
      obtain ⟨received', whole, elements, same⟩ := reads data p.needle _ lies
      rw [whole] at read
      cases read
      refine ⟨rfl, rfl, elements, fun data off queue lies => ?_⟩
      obtain ⟨other, read, elements', same'⟩ := reads data off queue lies
      exact ⟨other, read, elements', same'.trans same.symm⟩

/-- **A turn goes past one message.** -/
theorem Standing.next {messages taken left : List Message} {conn : σ} {p q : ParseState σ}
    (standing : Standing side receiver data messages conn p taken left)
    (parse : receiver.parse = side.parse .ample) (small : data.size < 2 ^ 63)
    (framed : ∀ message ∈ messages, Framed message) (next : Next (parseTurn receiver data) p q) :
    ∃ taken left, Standing side receiver data messages conn q taken left := by
  obtain ⟨⟨inside, going⟩, received, len, queue, conn', read, acted, -, rfl⟩ :=
    parseTurn_next_iff.mp next
  obtain ⟨message, rest, rfl⟩ := standing.exists_cons inside
  obtain ⟨rfl, rfl, delivered⟩ := standing.reads parse small framed read
  have total : (messageData (message :: rest)).length =
      message.data.length + (messageData rest).length := List.length_append
  have ends := standing.ends
  have place : wrap (p.needle + message.data.length) = p.needle + message.data.length :=
    wrap_of_lt (by omega)
  refine ⟨taken ++ [message], rest, ?_, ?_, ?_, rfl, ?_, ?_⟩
  · rw [standing.all, List.append_assoc, List.singleton_append]
  · show data.Holds (wrap (p.needle + message.data.length)) _
    rw [place]
    exact (View.holds_append.mp standing.holds).2
  · show wrap (p.needle + message.data.length) + _ = _
    rw [place]
    omega
  · exact List.rel_append standing.delivered (.cons delivered .nil)
  · exact takes_append standing.takes going acted

theorem standing_of_reaches {messages : List Message} {start p : ParseState σ}
    (parse : receiver.parse = side.parse .ample) (small : data.size < 2 ^ 63)
    (framed : ∀ message ∈ messages, Framed message)
    (first : Standing side receiver data messages start.conn start [] messages)
    (reaches : Reaches (parseTurn receiver data) start p) :
    ∃ taken left, Standing side receiver data messages start.conn p taken left := by
  induction reaches with
  | refl => exact ⟨[], messages, first⟩
  | tail _ next ih =>
      obtain ⟨taken, left, standing⟩ := ih
      exact standing.next parse small framed next

/-- How the loop over framed messages ends: at one that is refused, or behind them all, or
because the connection has stopped it. -/
inductive LoopEnds (receiver : Receiver σ) (left : List Message) (last : σ) (h : Handled σ) : Prop
  | refused (result : h.result = .parsedError)
      (conn : h.conn = last ∨ h.conn = receiver.setError last)
  | behind (none : left = []) (result : h.result = .parsedOk) (conn : h.conn = last)
  | stopped (stops : receiver.stops last = true) (conn : h.conn = last)

/-- **A read of framed messages**: some of them are taken from the front, each as what it is, and
the loop ends. -/
theorem handleMessage_framed {messages : List Message} {vector : ByteVec}
    {outside : Nat → Option UInt8} {turns : Nat} {conn : σ} {h : Handled σ}
    (parse : receiver.parse = side.parse .ample) (framed : ∀ message ∈ messages, Framed message)
    (bytes : vector.data = messageData messages)
    (run : handleMessage receiver turns ⟨vector.viewIn outside, messageFds messages⟩ conn =
      some (.ok h)) :
    ∃ taken left last, messages = taken ++ left ∧
      List.Forall₂ (Delivered side) taken h.handled ∧ Takes receiver conn h.handled last ∧
        LoopEnds receiver left last h := by
  obtain ⟨p, reaches, leaves⟩ := exits_iff.mp ⟨turns, run⟩
  have small : (vector.viewIn outside).size < 2 ^ 63 := vector.length_lt
  obtain ⟨taken, left, standing⟩ := standing_of_reaches parse small framed
    ⟨rfl, bytes ▸ holds_viewIn vector outside, by rw [← bytes]; exact Nat.zero_add _, rfl, .nil, .nil⟩
    reaches
  have ended : h.handled = p.handled → LoopEnds receiver left p.conn h →
      ∃ taken left last, messages = taken ++ left ∧
        List.Forall₂ (Delivered side) taken h.handled ∧ Takes receiver conn h.handled last ∧
          LoopEnds receiver left last h := by
    intro same ends
    exact ⟨taken, left, p.conn, standing.all, same ▸ standing.delivered, same ▸ standing.takes, ends⟩
  simp only [parseTurn] at leaves
  split at leaves
  · next going =>
    split at leaves
    · cases leaves
    · cases leaves
    · cases leaves
      exact ended rfl (.refused rfl (.inl rfl))
    · cases leaves
      exact ended rfl (.refused rfl (.inr rfl))
    · next received len queue read =>
      split at leaves
      · cases leaves
      · cases leaves
      · next conn' acted =>
        split at leaves
        · next none =>
          -- A framed message has a length.
          obtain ⟨message, rest, rfl⟩ := standing.exists_cons going.1
          obtain ⟨rfl, -, -⟩ := standing.reads parse small framed read
          have member : message ∈ messages :=
            standing.all ▸ List.mem_append_right _ List.mem_cons_self
          exact absurd (List.length_eq_zero_iff.mp none) (framed message member).data_ne_nil
        · cases leaves
  · next stopped =>
    cases leaves
    cases stops : receiver.stops p.conn with
    | true => exact ended rfl (.stopped stops rfl)
    | false =>
        have past : ¬ p.needle < (vector.viewIn outside).size := fun inside =>
          stopped ⟨inside, by simp [stops]⟩
        cases left with
        | nil =>
            refine ended rfl (.behind rfl ?_ rfl)
            show (if p.fds ≠ [] then _ else _) = _
            rw [standing.queue]
            rfl
        | cons message left =>
            have member : message ∈ messages :=
              standing.all ▸ List.mem_append_right _ List.mem_cons_self
            have some_ := List.length_pos_of_ne_nil (framed message member).data_ne_nil
            have inside := (standing.lies small).inside
            omega

end Hyprwire.Object
