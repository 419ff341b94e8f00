import Hyprwire.Object.RoundTrip
import Hyprwire.Wire.Framing

/-!
# Batches of messages

An `Outgoing` message is one that is legal in the direction of a receiving side: it keeps
the values it was built from, by its sending constructor or by `call`, and the bounds they
are in. Whatever the parameters of a method, its marshaller writes tokens
(`marshal_tokens`), so that a generic message is read back as the others are. A batch of
outgoing messages, with their bytes in one buffer and their descriptors in one queue, is
handed to the receiver as it was built (`batch_round_trip`).
-/

set_option autoImplicit false

namespace Hyprwire.Object

open Cpp Wire CGenericProtocolMessage

/-! ## Tokens of a call -/

/-- An argument whose strings and arrays are short enough for their length prefixes. -/
def Arg.Short : Arg → Prop
  | .string bytes => (cString bytes).length < 2 ^ 28
  | .words elements => elements.length < 2 ^ 28
  | .strings elements =>
      elements.length < 2 ^ 28 ∧ ∀ string ∈ elements, (cString string).length < 2 ^ 28
  | _ => True

/-- Bytes and descriptors that are those of tokens. -/
def OfTokens (bytes : List UInt8) (fds : List Fd) : Prop :=
  ∃ tokens : List Token, bytes = tokens.flatMap Token.bytes ∧ fds = tokens.flatMap Token.descriptors

theorem ofTokens_nil : OfTokens [] [] := ⟨[], rfl, rfl⟩

theorem OfTokens.single (token : Token) : OfTokens token.bytes token.descriptors :=
  ⟨[token], (List.flatMap_singleton _ _).symm, (List.flatMap_singleton _ _).symm⟩

theorem OfTokens.append {bytes more : List UInt8} {fds others : List Fd}
    (first : OfTokens bytes fds) (second : OfTokens more others) :
    OfTokens (bytes ++ more) (fds ++ others) := by
  obtain ⟨tokens, rfl, rfl⟩ := first
  obtain ⟨tokens', rfl, rfl⟩ := second
  exact ⟨tokens ++ tokens', List.flatMap_append.symm, List.flatMap_append.symm⟩

/-- A string that is passed, with the length it is written after. -/
def wireString (string : Str) (small : string.length < 2 ^ 28) : WireString where
  length := .ofNat string.length small
  string := string
  fits := (Length.value_ofNat _ _).symm

theorem bytes_wireString (string : Str) (small : string.length < 2 ^ 28) :
    (wireString string small).bytes = lengthPrefixed string := rfl

/-- Strings that are short are those of wire strings. -/
theorem exists_wireStrings {strings : List Str} (small : ∀ string ∈ strings, string.length < 2 ^ 28) :
    ∃ elements : List WireString, elements.length = strings.length ∧
      elements.flatMap WireString.bytes = strings.flatMap lengthPrefixed := by
  induction strings with
  | nil => exact ⟨[], rfl, rfl⟩
  | cons string rest ih =>
      obtain ⟨elements, count, same⟩ := ih fun s member => small s (List.mem_cons_of_mem _ member)
      refine ⟨wireString string (small string List.mem_cons_self) :: elements, ?_, ?_⟩
      · rw [List.length_cons, List.length_cons, count]
      · rw [List.flatMap_cons, List.flatMap_cons, same, bytes_wireString]

theorem pointedWords_eq_ok {pointer : Arg} {arrLen : Nat} {elements : List UInt32}
    (short : pointer.Short) (read : pointedWords arrLen pointer = .ok elements) :
    elements.length = arrLen ∧ arrLen < 2 ^ 28 := by
  cases pointer with
  | words all =>
      simp only [pointedWords] at read
      split at read
      · next enough =>
        cases read
        exact ⟨List.length_take_of_le enough, Nat.lt_of_le_of_lt enough short⟩
      · cases read
  | _ => cases read

theorem pointedStrings_eq_ok {pointer : Arg} {arrLen : Nat} {elements : List Str}
    (short : pointer.Short) (read : pointedStrings arrLen pointer = .ok elements) :
    elements.length = arrLen ∧ arrLen < 2 ^ 28 ∧ ∀ string ∈ elements, string.length < 2 ^ 28 := by
  cases pointer with
  | strings all =>
      simp only [pointedStrings] at read
      split at read
      · next enough =>
        cases read
        refine ⟨?_, Nat.lt_of_le_of_lt enough short.1, fun string member => ?_⟩
        · rw [List.length_map, List.length_take_of_le enough]
        · obtain ⟨source, taken, rfl⟩ := List.mem_map.mp member
          exact short.2 source (List.mem_of_mem_take taken)
      · cases read
  | _ => cases read

/-- An array that is marshalled is a token. -/
theorem marshalArray_tokens {arrType : UInt8} {pointer : Arg} {arrLen : Nat} {bytes : List UInt8}
    {fds : List Fd} (short : pointer.Short)
    (made : marshalArray arrType pointer arrLen = .ok (some (bytes, fds))) :
    OfTokens (EMessageMagic.typeArray.code :: arrType :: (encodeVarInt arrLen ++ bytes)) fds := by
  rw [marshalArray] at made
  cases known : EMessageMagic.ofByte arrType with
  | none => simp [known] at made
  | some magic =>
      obtain rfl := EMessageMagic.ofByte_eq_some.mp known
      rw [EMessageMagic.ofByte_code] at made
      have words : ∀ (word : magic.IsWord = true), (pointedWords arrLen pointer >>= fun elements =>
            (pure (some (elements.flatMap u32Bytes, [])) : Except Fault _)) = .ok (some (bytes, fds)) →
          OfTokens (EMessageMagic.typeArray.code :: magic.code :: (encodeVarInt arrLen ++ bytes))
            fds := by
        intro word read
        obtain ⟨elements, pointed, same⟩ := bind_eq_ok.mp read
        obtain ⟨count, small⟩ := pointedWords_eq_ok short pointed
        cases same
        exact .single (.words ⟨magic, word⟩ (.ofNat arrLen small) elements
          (count.trans (Length.value_ofNat _ _).symm))
      cases magic with
      | typeUint => exact words rfl made
      | typeInt => exact words rfl made
      | typeF32 => exact words rfl made
      | typeObject => exact words rfl made
      | typeFd =>
          obtain ⟨elements, pointed, same⟩ := bind_eq_ok.mp made
          obtain ⟨count, small⟩ := pointedWords_eq_ok short pointed
          cases same
          rw [List.append_nil]
          exact .single (.fds (.ofNat arrLen small) fds (count.trans (Length.value_ofNat _ _).symm))
      | typeVarchar =>
          obtain ⟨strings, pointed, same⟩ := bind_eq_ok.mp made
          obtain ⟨count, small, each⟩ := pointedStrings_eq_ok short pointed
          cases same
          obtain ⟨elements, number, written⟩ := exists_wireStrings each
          rw [← written]
          exact .single (.varchars (.ofNat arrLen small) elements
            ((number.trans count).trans (Length.value_ofNat _ _).symm))
      | _ => simp at made

/-- What a turn of the marshaller writes are tokens, and the arguments it leaves are
short. -/
def Marshalled.Sound : Marshalled → Prop
  | .next bytes fds rest | .skip bytes fds rest => OfTokens bytes fds ∧ ∀ arg ∈ rest, arg.Short
  | .failed => True

theorem short_tail {arg : Arg} {args rest : List Arg} (short : ∀ arg ∈ args, arg.Short)
    (all : args = arg :: rest) : arg.Short ∧ ∀ other ∈ rest, other.Short := by
  subst all
  exact ⟨short arg List.mem_cons_self, fun other member => short other (List.mem_cons_of_mem _ member)⟩

/-- **Every turn of the marshaller writes tokens**, whatever the parameter. -/
theorem marshalParam_sound {param : UInt8} {following : Option UInt8} {args : List Arg}
    {turn : Marshalled} (short : ∀ arg ∈ args, arg.Short)
    (made : marshalParam param following args = .ok turn) : turn.Sound := by
  simp only [marshalParam] at made
  cases known : EMessageMagic.ofByte param with
  | none =>
      rw [known] at made
      cases made
      exact ⟨ofTokens_nil, short⟩
  | some magic =>
      obtain rfl := EMessageMagic.ofByte_eq_some.mp known
      rw [EMessageMagic.ofByte_code] at made
      have word : ∀ {arg : Arg} {rest : List Arg} (isWord : magic.IsWord = true) (bits : UInt32),
          args = arg :: rest → (Marshalled.next (magic.code :: u32Bytes bits) [] rest).Sound :=
        fun isWord bits all => ⟨.single (.word ⟨magic, isWord⟩ bits), (short_tail short all).2⟩
      cases magic with
      | typeUint =>
          obtain ⟨⟨bits, rest⟩, read, same⟩ := bind_eq_ok.mp made
          cases same
          exact word rfl bits (vaWord_eq_ok read)
      | typeInt =>
          obtain ⟨⟨bits, rest⟩, read, same⟩ := bind_eq_ok.mp made
          cases same
          exact word rfl bits (vaWord_eq_ok read)
      | typeObject =>
          obtain ⟨⟨bits, rest⟩, read, same⟩ := bind_eq_ok.mp made
          cases same
          exact word rfl bits (vaWord_eq_ok read)
      | typeF32 =>
          obtain ⟨⟨bits, rest⟩, read, same⟩ := bind_eq_ok.mp made
          cases same
          exact word rfl bits (vaDouble_eq_ok read)
      | typeVarchar =>
          obtain ⟨⟨string, rest⟩, read, same⟩ := bind_eq_ok.mp made
          cases same
          obtain ⟨source, all, rfl⟩ := vaString_eq_ok read
          obtain ⟨small, others⟩ := short_tail short all
          exact ⟨.single (.varchar (wireString _ small)), others⟩
      | typeFd =>
          obtain ⟨⟨fd, rest⟩, read, same⟩ := bind_eq_ok.mp made
          cases same
          exact ⟨.single (.fd fd), (short_tail short (vaWord_eq_ok read)).2⟩
      | typeArray =>
          cases following with
          | none => cases made
          | some arrType =>
              obtain ⟨⟨pointer, others⟩, read, made⟩ := bind_eq_ok.mp made
              obtain ⟨⟨arrLen, rest⟩, counted, made⟩ := bind_eq_ok.mp made
              obtain ⟨result, written, made⟩ := bind_eq_ok.mp made
              obtain ⟨pointed, others⟩ := short_tail short (vaPointer_eq_ok read)
              cases result with
              | none =>
                  cases made
                  trivial
              | some pair =>
                  cases made
                  exact ⟨marshalArray_tokens pointed written,
                    (short_tail others (vaWord_eq_ok counted)).2⟩
      | _ =>
          cases made
          exact ⟨ofTokens_nil, short⟩

theorem before_eq_some {bytes total : List UInt8} {fds all : List Fd}
    {rest : Option (List UInt8 × List Fd)} (same : before bytes fds rest = some (total, all)) :
    ∃ more others, rest = some (more, others) ∧ total = bytes ++ more ∧ all = fds ++ others := by
  obtain ⟨⟨more, others⟩, rfl, same⟩ := Option.map_eq_some_iff.mp same
  cases same
  exact ⟨more, others, rfl, rfl, rfl⟩

/-- **The marshaller writes tokens**, whatever the parameters of the method. -/
theorem marshal_tokens {params : List UInt8} {args : List Arg} {bytes : List UInt8} {fds : List Fd}
    (short : ∀ arg ∈ args, arg.Short) (made : marshal params args = .ok (some (bytes, fds))) :
    OfTokens bytes fds := by
  induction params, args using marshal.induct generalizing bytes fds with
  | case1 args =>
      cases made
      exact ofTokens_nil
  | case2 param params args next skip =>
      rw [marshal] at made
      obtain ⟨turn, written, made⟩ := bind_eq_ok.mp made
      have sound := marshalParam_sound short written
      cases turn with
      | failed => cases made
      | next bytes fds args =>
          obtain ⟨rest, more, same⟩ := bind_eq_ok.mp made
          obtain ⟨_, _, rfl, rfl, rfl⟩ := before_eq_some (Except.ok.inj same)
          exact sound.1.append (next args sound.2 more)
      | skip bytes fds args =>
          cases params with
          | nil =>
              cases made
              exact sound.1
          | cons following params =>
              obtain ⟨rest, more, same⟩ := bind_eq_ok.mp made
              obtain ⟨_, _, rfl, rfl, rfl⟩ := before_eq_some (Except.ok.inj same)
              exact sound.1.append (skip args sound.2 more)

/-- The sequence before the arguments is a token. -/
theorem callSeq_ofTokens (seq : Option UInt32) : OfTokens (callSeq seq) [] := by
  cases seq with
  | none => exact ofTokens_nil
  | some seq => exact .single (.word ⟨.typeSeq, rfl⟩ seq)

/-- **A message that a call sends is made of tokens.** -/
theorem call_tokens {object : IWireObject} {server : Bool} {methods : List SMethod}
    {seq seq' id : UInt32} {args : List Arg} {msg : CGenericProtocolMessage}
    {returned : Option (UInt32 × Str)} (short : ∀ arg ∈ args, arg.Short)
    (made : object.call server methods seq id args = .ok (.send msg returned, seq')) :
    ∃ tokens : List Token, msg.data = callHeader object.id id ++
        (tokens.flatMap Token.bytes ++ [EMessageMagic.endMark.code]) ∧
      msg.fds = tokens.flatMap Token.descriptors := by
  simp only [IWireObject.call] at made
  split at made
  · cases made
  · next method checked =>
    obtain ⟨result, run, rest⟩ := bind_eq_ok.mp made
    obtain ⟨marshalled, written, message⟩ := bind_eq_ok.mp run
    cases marshalled with
    | none =>
        cases message
        cases rest
    | some pair =>
        obtain ⟨arguments, fds⟩ := pair
        cases message
        simp only at rest
        split at rest
        · cases rest
        · cases rest
          obtain ⟨tokens, bytes, descriptors⟩ :=
            (callSeq_ofTokens
              (if method.returnsType ≠ [] then some (seqAfter method seq) else none)).append
              (marshal_tokens short written)
          exact ⟨tokens, by rw [ofData, callData, bytes], descriptors⟩

/-! ## Outgoing messages -/

/-- The messages that reach a side are sent by the other one. -/
def Side.senderIsServer : Side → Bool
  | .server => false
  | .client => true

/-- A call that has been made on an object, of the end that sends to a side, with its
message. -/
structure SentCall (side : Side) where
  object : IWireObject
  methods : List SMethod
  seq : UInt32
  id : UInt32
  args : List Arg
  msg : CGenericProtocolMessage
  returned : Option (UInt32 × Str)
  seqAfter : UInt32
  short : ∀ arg ∈ args, arg.Short
  made : object.call (Side.senderIsServer side) methods seq id args = .ok (.send msg returned, seqAfter)

/-- A string that is short enough for its length prefix. -/
abbrev ShortStr := { string : Str // string.length < 2 ^ 28 }

/-- A message that is legal in the direction of a side, as it is built. -/
inductive Outgoing : Side → Type
  | hello : Outgoing .server
  | handshakeAck (version : UInt32) : Outgoing .server
  | bindProtocol (protocol : ShortStr) (seq version : UInt32) (nonzero : version ≠ 0) :
      Outgoing .server
  | roundtripRequest (seq : UInt32) : Outgoing .server
  | handshakeBegin (versions : List UInt32) (few : versions.length < 2 ^ 28)
      (offers : protocolVer ∈ versions) : Outgoing .client
  | handshakeProtocols (protocols : List ShortStr) (few : protocols.length < 2 ^ 28) :
      Outgoing .client
  | newObject (seq id : UInt32) : Outgoing .client
  | roundtripDone (seq : UInt32) : Outgoing .client
  | generic {side : Side} (call : SentCall side) : Outgoing side

namespace Outgoing

variable {side : Side}

/-- The message that is sent. -/
def message : Outgoing side → Message
  | hello => .hello
  | handshakeAck version => .handshakeAck version
  | bindProtocol protocol seq version _ => .bindProtocol protocol seq version
  | roundtripRequest seq => .roundtripRequest seq
  | handshakeBegin versions _ _ => .handshakeBegin versions
  | handshakeProtocols protocols _ => .handshakeProtocols (protocols.map Subtype.val)
  | newObject seq id => .newObject seq id
  | roundtripDone seq => .roundtripDone seq
  | generic call => .generic call.msg.data call.msg.fds

/-- What the receiver is to be given for a message at an offset of the buffer: the values
the message was built from. The arguments of a call are the bytes of the message behind
its header, where they lie. -/
def received (data : View) (off : Nat) : Outgoing side → Received
  | hello => .hello
  | handshakeAck version => .handshakeAck version
  | bindProtocol protocol seq version _ => .bindProtocol protocol seq version
  | roundtripRequest seq => .roundtripRequest seq
  | handshakeBegin versions _ _ => .handshakeBegin versions
  | handshakeProtocols protocols _ => .handshakeProtocols (protocols.map Subtype.val)
  | newObject seq id => .newObject seq id
  | roundtripDone seq => .roundtripDone seq
  | generic call => .generic
      { object := call.object.id, method := call.id, len := call.msg.data.length,
        fds := call.msg.fds, dataSpan := data.span (off + 11) (call.msg.data.length - 11) }

/-- Every message has bytes. -/
theorem data_ne_nil (outgoing : Outgoing side) : outgoing.message.data ≠ [] := by
  cases outgoing with
  | generic call =>
      obtain ⟨tokens, bytes, -⟩ := call_tokens call.short call.made
      show call.msg.data ≠ []
      rw [bytes]
      exact List.cons_ne_nil _ _
  | _ => exact List.cons_ne_nil _ _

/-- A control message that is decoded is read. -/
theorem readControl_of_decoded {μ : Type} {result : Except Fault μ} {msg : μ} (len : μ → Nat)
    {make : μ → Received} {fds : List Fd} (decoded : result = .ok msg) (length : len msg ≠ 0) :
    readControl fds (result >>= fun msg => pure (.ofLen (len msg) (make msg))) =
      some (.ok (.message (make msg) (len msg), fds)) := by
  rw [decoded, ok_bind, pure_eq_ok, Parsed.ofLen, if_neg length]
  rfl

/-- **A message is read as it was built**, at any place of a buffer, and takes its own
descriptors from the front of the queue. -/
theorem parse_eq (outgoing : Outgoing side) {data : View} {off : Nat} (queue : List Fd)
    (holds : data.Holds off outgoing.message.data)
    (inside : off + outgoing.message.data.length ≤ data.size) (small : data.size < 2 ^ 63) :
    side.parse .ample data (outgoing.message.fds ++ queue) off =
      some (.ok (.message (outgoing.received data off) outgoing.message.data.length, queue)) := by
  have length : outgoing.message.data.length ≠ 0 :=
    List.length_eq_zero_iff.not.mpr outgoing.data_ne_nil
  have tagged : ∀ {type : EMessageType} {rest : List UInt8},
      outgoing.message.data = type.code :: rest → data.checkedAt off = .ok type.code := by
    intro type rest begins
    rw [begins] at holds
    exact View.checkedAt_inside holds (by omega) small
  cases outgoing with
  | hello =>
      have tag := @tagged .sup _ rfl
      have decoded := CHelloMessage.decode_of_holds holds inside small
      simp only [Side.parse, parseServer, tag, EMessageType.ofByte_code]
      exact readControl_of_decoded (fun msg => msg.len) decoded length
  | handshakeAck version =>
      have tag := @tagged .handshakeAck _ rfl
      have decoded := CHandshakeAckMessage.decode_of_holds holds inside small
      simp only [Side.parse, parseServer, tag, EMessageType.ofByte_code]
      exact readControl_of_decoded (fun msg => msg.len) decoded length
  | bindProtocol protocol seq version nonzero =>
      have tag := @tagged .bindProtocol _ rfl
      have decoded := CBindProtocolMessage.decode_of_holds holds inside small protocol.property
        nonzero
      simp only [Side.parse, parseServer, tag, EMessageType.ofByte_code]
      exact readControl_of_decoded (fun msg => msg.len) decoded length
  | roundtripRequest seq =>
      have tag := @tagged .roundtripRequest _ rfl
      have decoded := SeqMessage.decode_of_holds holds inside small
      simp only [Side.parse, parseServer, tag, EMessageType.ofByte_code]
      exact readControl_of_decoded (fun msg => msg.len) decoded length
  | handshakeBegin versions few offers =>
      have tag := @tagged .handshakeBegin _ rfl
      have decoded := CHandshakeBeginMessage.decode_of_holds holds inside small few
      simp only [Side.parse, parseClient, tag, EMessageType.ofByte_code, decoded, ok_bind]
      have supported : ¬ ((CHandshakeBeginMessage.encode versions).length ≠ 0 ∧
          protocolVer ∉ versions) := fun both => both.2 offers
      have nonzero : (CHandshakeBeginMessage.encode versions).length ≠ 0 := length
      rw [if_neg supported, pure_eq_ok, Parsed.ofLen, if_neg nonzero]
      rfl
  | handshakeProtocols protocols few =>
      have tag := @tagged .handshakeProtocols _ rfl
      have decoded := CHandshakeProtocolsMessage.decode_of_holds holds inside small
        (by rwa [List.length_map]) (fun protocol member => by
          obtain ⟨short, -, rfl⟩ := List.mem_map.mp member
          exact short.property)
      simp only [Side.parse, parseClient, tag, EMessageType.ofByte_code]
      exact readControl_of_decoded (fun msg => msg.len) decoded length
  | newObject seq id =>
      have tag := @tagged .newObject _ rfl
      have decoded := CNewObjectMessage.decode_of_holds holds inside small
      simp only [Side.parse, parseClient, tag, EMessageType.ofByte_code]
      exact readControl_of_decoded (fun msg => msg.len) decoded length
  | roundtripDone seq =>
      have tag := @tagged .roundtripDone _ rfl
      have decoded := SeqMessage.decode_of_holds holds inside small
      simp only [Side.parse, parseClient, tag, EMessageType.ofByte_code]
      exact readControl_of_decoded (fun msg => msg.len) decoded length
  | generic call =>
      obtain ⟨tokens, bytes, descriptors⟩ := call_tokens call.short call.made
      have size : call.msg.data.length = 12 + (tokens.flatMap Token.bytes).length := by
        rw [bytes, List.length_append, length_callHeader, List.length_append, List.length_singleton]
        omega
      have held : data.Holds off call.msg.data := holds
      have room : off + call.msg.data.length ≤ data.size := inside
      rw [bytes] at held
      obtain ⟨header, elements⟩ := View.holds_append.mp held
      have decoded := @decode_tokens data off call.object.id call.id tokens queue
        (decodeHeader_of_holds header (by omega) small) elements (by omega) small
      rw [Side.parse_generic (tag_of_decodeHeader
        (decodeHeader_of_holds header (by omega) small)), readGeneric]
      show Option.map _ (decode data (call.msg.fds ++ queue) off) = _
      rw [descriptors, decoded, ← size, ← descriptors]
      have span : (tokens.flatMap Token.bytes).length + 1 = call.msg.data.length - 11 := by omega
      have nonzero : call.msg.data.length ≠ 0 := length
      simp only [span, Option.map_some, Except.map, Parsed.ofLen, if_neg nonzero]
      rfl

end Outgoing

/-! ## Batches -/

variable {σ : Type} {side : Side}

/-- What the receiver is to be given for a batch that starts at an offset. -/
def arrivals (data : View) : Nat → List (Outgoing side) → List Received
  | _, [] => []
  | off, outgoing :: rest =>
      outgoing.received data off :: arrivals data (off + outgoing.message.data.length) rest

/-- The bytes of a batch, one message after the other. -/
def batchData (batch : List (Outgoing side)) : List UInt8 :=
  batch.flatMap fun outgoing => outgoing.message.data

/-- The descriptors of a batch. -/
def batchFds (batch : List (Outgoing side)) : List Fd :=
  (batch.map Outgoing.message).flatMap Message.fds

/-- Every message of a batch is read at its place. -/
theorem readable_batch (receiver : Receiver σ) {data : View} {off : Nat}
    {batch : List (Outgoing side)} (holds : data.Holds off (batchData batch))
    (ends : off + (batchData batch).length = data.size) (small : data.size < 2 ^ 63) :
    Readable (side.receiver .ample receiver).parse data off (batch.map Outgoing.message)
      (arrivals data off batch) := by
  induction batch generalizing off with
  | nil =>
      obtain rfl : off = data.size := ends
      exact .nil
  | cons outgoing rest ih =>
      obtain ⟨head, tail⟩ := View.holds_append.mp holds
      have total : (batchData (outgoing :: rest)).length =
          outgoing.message.data.length + (batchData rest).length := List.length_append
      have some_ := List.length_pos_of_ne_nil outgoing.data_ne_nil
      refine .cons (by omega) outgoing.data_ne_nil
        (fun queue => outgoing.parse_eq queue head (by omega) small) ?_
      exact ih tail (by omega)

/-- The whole of a vector lies in it, whatever is around. -/
theorem holds_viewIn (v : ByteVec) (outside : Nat → Option UInt8) :
    (v.viewIn outside).Holds 0 v.data := by
  intro k within
  have small := v.length_lt
  have place : wrap (0 + k) = k := by rw [Nat.zero_add, wrap_of_lt (by omega)]
  rw [place, ByteVec.viewIn]
  simp only [within, if_true, List.getElem?_eq_getElem within]

/-- **Batch framing round trip.** The messages of a batch, with their bytes in one buffer
and their descriptors in one queue, are passed to the receiver as they were built, once
each and in order, when no handler sets an error. The needle then is at the end of the
buffer, and the queue is empty. -/
theorem batch_round_trip (batch : List (Outgoing side)) (receiver : Receiver σ) (v : ByteVec)
    (outside : Nat → Option UInt8) (bytes : v.data = batchData batch) {conn last : σ}
    (takes : Takes receiver conn (arrivals (v.viewIn outside) 0 batch) last) :
    stateAfter (parseTurn (side.receiver .ample receiver) (v.viewIn outside)) batch.length
        (firstMessage ⟨v.viewIn outside, batchFds batch⟩ conn) =
      some ⟨v.data.length, [], last, arrivals (v.viewIn outside) 0 batch⟩ ∧
    handleMessage (side.receiver .ample receiver) (batch.length + 1)
        ⟨v.viewIn outside, batchFds batch⟩ conn =
      some (.ok ⟨.parsedOk, last, arrivals (v.viewIn outside) 0 batch⟩) := by
  have holds : (v.viewIn outside).Holds 0 (batchData batch) := bytes ▸ holds_viewIn v outside
  have readable := readable_batch receiver holds
    (by rw [Nat.zero_add, ← bytes]; rfl) v.length_lt
  have taken := takes.receiver side .ample
  have turns := stateAfter_batch v.length_lt readable taken []
  have handled := handleMessage_batch v.length_lt readable taken
  rw [List.length_map] at turns handled
  exact ⟨turns, handled⟩

/-- `SUP`, `HANDSHAKE_ACK`, `BIND_PROTOCOL` and `ROUNDTRIP_REQUEST` of a client. -/
def opening : List UInt8 :=
  [1, 0x20, 3, 0x56, 0x41, 0x58, 0] ++ [3, 0x10, 1, 0, 0, 0, 0] ++
    [10, 0x10, 1, 0, 0, 0, 0x20, 2, 104, 105, 0x10, 1, 0, 0, 0, 0] ++ [13, 0x10, 7, 0, 0, 0, 0]

/-- The opening messages of a client arrive in one read. -/
theorem batch_round_trip_opening :
    handleMessage (Side.server.receiver .ample listless) 5
        ⟨ByteVec.viewIn ⟨opening, by decide⟩ fun _ => none, []⟩ () =
      some (.ok ⟨.parsedOk, (),
        [.hello, .handshakeAck 1, .bindProtocol [104, 105] 1 1, .roundtripRequest 7]⟩) := by
  let batch : List (Outgoing .server) := [.hello, .handshakeAck 1,
    .bindProtocol ⟨[104, 105], by decide⟩ 1 1 (by decide), .roundtripRequest 7]
  have takes : ∀ data, Takes listless () (arrivals data 0 batch) () :=
    fun _ => .cons rfl rfl (.cons rfl rfl (.cons rfl rfl (.cons rfl rfl .nil)))
  have bytes : opening = batchData batch := by decide +kernel
  exact (batch_round_trip batch listless ⟨opening, by decide⟩ (fun _ => none) bytes (takes _)).2

end Hyprwire.Object
