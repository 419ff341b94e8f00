import Hyprwire.Object.RoundTrip
import Hyprwire.Tracing.Tokens

/-!
# What is accepted is made of tokens

A control message that a decoder accepts is made of tokens, however its lengths are spelled
(`CHandshakeBeginMessage.made` and its siblings). A length that is negative as an `int` is
refused by the storage it asks for. A generic message is made of tokens when none of its
lengths is negative (`CGenericProtocolMessage.made`). `Decoded.made` is both.
-/

set_option autoImplicit false

namespace Hyprwire.Tracing

open Cpp Wire Object

/-- A message of some length was read from tokens, which lie at the offset. -/
def MadeAt (data : View) (offset : Nat) (type : EMessageType) (len : Nat) : Prop :=
  len ≠ 0 → ∃ tokens, (∀ token ∈ tokens, Printable token) ∧
    data.Holds offset (sentData type tokens) ∧ len = (sentData type tokens).length ∧ len < 2 ^ 63

theorem madeAt_zero (data : View) (offset : Nat) (type : EMessageType) : MadeAt data offset type 0 :=
  fun nonzero => absurd rfl nonzero

/-- A prefix whose value is below the sign of a `size_t` is not negative. -/
theorem nonneg_of_small {bytes : List UInt8} (short : bytes.length ≤ 5)
    (small : prefixLength bytes < 2 ^ 63) : 0 ≤ signedLength bytes := by
  have bounds := signedLength_bounds short
  have cast := prefixLength_cast bytes
  by_contra negative
  rw [← Int.add_emod_right, Int.emod_eq_of_lt (by omega) (by omega)] at cast
  omega

section Decoders

variable {heap : Heap} {data : View} {offset : Nat}

theorem CHelloMessage.made :
    Accepts (fun msg => MadeAt data offset .sup msg.len) (CHelloMessage.decode data offset) := by
  refine accepts_catch (madeAt_zero _ _ _) ?_
  refine accepts_bind fun _ _ => accepts_bind fun block read => ?_
  refine accepts_ite (fun _ => accepts_pure (madeAt_zero _ _ _)) fun same => ?_
  refine accepts_pure fun _ => ?_
  obtain rfl := not_not.mp same
  have three : (encodeVarInt 3) = [3] := by decide
  let string : WireString :=
    ⟨.ofNat 3 (by decide), [0x56, 0x41, 0x58], (Length.value_ofNat 3 (by decide)).symm⟩
  refine ⟨[.varchar string], ?_, ?_, ?_⟩
  · exact List.forall_mem_singleton.mpr trivial
  · have bytes : sentData .sup [.varchar string] = CHelloMessage.expected := by
      simp [sentData, receivedData, Token.bytes, WireString.bytes, string, three,
        CHelloMessage.expected]
    rw [bytes]
    exact View.holds_of_rawBlock read
  · simp [sentData, receivedData, Token.bytes, WireString.bytes, string, three,
      CHelloMessage.expected]

theorem CHandshakeAckMessage.made (small : data.size < 2 ^ 63) :
    Accepts (fun msg => MadeAt data offset .handshakeAck msg.len)
      (CHandshakeAckMessage.decode data offset) := by
  intro msg decoded length
  obtain ⟨held, len⟩ := CHandshakeAckMessage.spells small msg decoded length
  have bound : msg.len < 2 ^ 63 := lt_of_eq_of_lt len (show 7 < 2 ^ 63 by decide)
  exact ⟨[.word ⟨.typeUint, rfl⟩ msg.version], by simp [Printable], held, len, bound⟩

theorem CNewObjectMessage.made (small : data.size < 2 ^ 63) :
    Accepts (fun msg => MadeAt data offset .newObject msg.len)
      (CNewObjectMessage.decode data offset) := by
  intro msg decoded length
  obtain ⟨held, len⟩ := CNewObjectMessage.spells small msg decoded length
  have bound : msg.len < 2 ^ 63 := lt_of_eq_of_lt len (show 12 < 2 ^ 63 by decide)
  exact ⟨[.word ⟨.typeUint, rfl⟩ msg.id, .word ⟨.typeUint, rfl⟩ msg.seq], by simp [Printable], held,
    len, bound⟩

theorem SeqMessage.made {type : EMessageType} (small : data.size < 2 ^ 63) :
    Accepts (fun msg => MadeAt data offset type msg.len) (SeqMessage.decode type data offset) := by
  intro msg decoded length
  obtain ⟨held, len⟩ := SeqMessage.spells small msg decoded length
  have bound : msg.len < 2 ^ 63 := lt_of_eq_of_lt len (show 7 < 2 ^ 63 by decide)
  exact ⟨[.word ⟨.typeUint, rfl⟩ msg.seq], by simp [Printable], held, len, bound⟩

/-- Versions behind their count are an element. -/
theorem CHandshakeBeginMessage.made (small : data.size < 2 ^ 63) :
    Accepts (fun msg => MadeAt data offset .handshakeBegin msg.len)
      (CHandshakeBeginMessage.decode heap data offset) := by
  refine accepts_catch (madeAt_zero _ _ _) ?_
  refine accepts_expect (madeAt_zero _ _ _) fun first => ?_
  refine accepts_expect (madeAt_zero _ _ _) fun second => ?_
  refine accepts_expect (madeAt_zero _ _ _) fun third => ?_
  refine accepts_bind fun ⟨nVers, varIntLen⟩ counted => ?_
  obtain ⟨bytes, lies, rfl, rfl⟩ := parseVarInt_eq_ok.mp counted
  refine accepts_bind fun _ resized => accepts_bind fun versions read => ?_
  refine accepts_expect (madeAt_zero _ _ _) fun last => accepts_pure fun _ => ?_
  have short := lies.short
  have few := lt_of_resize short resized
  have inside := lt_of_checkedAt first
  obtain ⟨versionsHeld, length⟩ := CHandshakeBeginMessage.holds_of_readVersions (by omega) read
  have needle : wrap (3 + bytes.length + prefixLength bytes * 4) =
      3 + bytes.length + 4 * prefixLength bytes := by
    rw [wrap_of_lt (by omega), Nat.mul_comm]
  rw [needle, wrap_of_lt (by omega)] at last
  have ends := lt_of_checkedAt last
  have room : bytes.length < wrapSub data.size (offset + 3) := by
    rw [wrapSub_of_le (by omega) (by omega)]
    omega
  let count : Length := .ofPrefix lies room (nonneg_of_small short (by omega))
  have total : (versions.flatMap u32Bytes).length = 4 * prefixLength bytes := by
    rw [length_flatMap_u32Bytes, length]
  have spelled : sentData .handshakeBegin [.words ⟨.typeUint, rfl⟩ count versions length] =
      [EMessageType.handshakeBegin.code, EMessageMagic.typeArray.code,
        EMessageMagic.typeUint.code] ++ bytes ++ versions.flatMap u32Bytes ++
        [EMessageMagic.endMark.code] := by
    simp [sentData, receivedData, Token.bytes, count, Length.ofPrefix]
  refine ⟨[.words ⟨.typeUint, rfl⟩ count versions length], by simp [Printable], ?_, ?_⟩
  · rw [spelled]
    have tags := holds_three small first second third
    have whole := holds_behind (holds_behind tags lies.holds rfl) versionsHeld (by simp; omega)
    exact holds_behind whole (holds_of_checkedAt small last) (by simp; omega)
  · dsimp only
    rw [spelled, needle, wrap_of_lt (by omega)]
    refine ⟨?_, by omega⟩
    simp only [List.length_append, List.length_cons, List.length_nil, total]

/-- The strings that were read are those of an array. -/
theorem CHandshakeProtocolsMessage.strings_of_readProtocols {n needle : Nat}
    (small : data.size < 2 ^ 63) (short : offset + needle < 2 ^ 63 + 2 ^ 62) :
    Accepts (fun read => ∃ elements : List WireString,
        data.Holds (offset + needle) (elements.flatMap WireString.bytes) ∧
        read.2 = needle + (elements.flatMap WireString.bytes).length ∧ elements.length = n ∧
        offset + read.2 < 2 ^ 63 + 2 ^ 62)
      (CHandshakeProtocolsMessage.readProtocols heap data offset n needle) := by
  induction n generalizing needle with
  | zero => exact accepts_pure ⟨[], View.holds_nil _ _, rfl, rfl, short⟩
  | succ n ih =>
      refine accepts_bind fun ⟨strLen, strLenLen⟩ counted => ?_
      rw [wrap_of_lt (show offset + needle < 2 ^ 64 by omega)] at counted
      obtain ⟨bytes, lies, rfl, rfl⟩ := parseVarInt_eq_ok.mp counted
      have header := lies.short
      refine accepts_bind fun byte starts => accepts_bind fun protocol copied => ?_
      have few := lt_of_copyString header copied
      have inside := lt_of_checkedAt starts
      have start : wrap (offset + needle + bytes.length) = offset + needle + bytes.length :=
        wrap_of_lt (by omega)
      rw [start] at inside copied
      have next : wrap (needle + prefixLength bytes + bytes.length) =
          needle + bytes.length + prefixLength bytes := by
        rw [wrap_of_lt (by omega)]
        omega
      rw [next]
      obtain ⟨protocolHeld, protocolLength⟩ := holds_of_copyString copied
      have room : bytes.length < wrapSub data.size (offset + needle) := by
        rw [wrapSub_of_le (by omega) (by omega)]
        omega
      let string : WireString :=
        ⟨.ofPrefix lies room (nonneg_of_small header (by omega)), protocol, protocolLength⟩
      have bytesOf : string.bytes = bytes ++ protocol := rfl
      refine accepts_bind fun ⟨others, last⟩ read => accepts_pure ?_
      obtain ⟨elements, held, ends, length, bound⟩ := ih (by omega) _ read
      simp only at ends bound
      refine ⟨string :: elements, ?_, ?_, by rw [List.length_cons, length], bound⟩
      · rw [List.flatMap_cons, bytesOf]
        refine holds_behind (holds_behind lies.holds protocolHeld rfl) held ?_
        rw [List.length_append, protocolLength]
        omega
      · rw [List.flatMap_cons, bytesOf, List.length_append, List.length_append, protocolLength]
        omega

theorem CHandshakeProtocolsMessage.made (small : data.size < 2 ^ 63) :
    Accepts (fun msg => MadeAt data offset .handshakeProtocols msg.len)
      (CHandshakeProtocolsMessage.decode heap data offset) := by
  refine accepts_catch (madeAt_zero _ _ _) ?_
  refine accepts_expect (madeAt_zero _ _ _) fun first => ?_
  refine accepts_expect (madeAt_zero _ _ _) fun second => ?_
  refine accepts_expect (madeAt_zero _ _ _) fun third => ?_
  refine accepts_bind fun ⟨els, varIntLen⟩ counted => ?_
  obtain ⟨bytes, lies, rfl, rfl⟩ := parseVarInt_eq_ok.mp counted
  refine accepts_bind fun _ resized => accepts_bind fun ⟨protocols, needle⟩ read => ?_
  refine accepts_expect (madeAt_zero _ _ _) fun last => accepts_pure fun _ => ?_
  have short := lies.short
  have few := lt_of_resize short resized
  have inside := lt_of_checkedAt first
  obtain ⟨elements, held, ends, length, bound⟩ :=
    strings_of_readProtocols small (by omega) _ read
  simp only at ends bound
  rw [wrap_of_lt (by omega)] at last
  have within := lt_of_checkedAt last
  have room : bytes.length < wrapSub data.size (offset + 3) := by
    rw [wrapSub_of_le (by omega) (by omega)]
    omega
  let count : Length := .ofPrefix lies room (nonneg_of_small short (by omega))
  have spelled : sentData .handshakeProtocols [.varchars count elements length] =
      [EMessageType.handshakeProtocols.code, EMessageMagic.typeArray.code,
        EMessageMagic.typeVarchar.code] ++ bytes ++ elements.flatMap WireString.bytes ++
        [EMessageMagic.endMark.code] := by
    simp [sentData, receivedData, Token.bytes, count, Length.ofPrefix]
  refine ⟨[.varchars count elements length], by simp [Printable], ?_, ?_⟩
  · rw [spelled]
    have tags := holds_three small first second third
    have whole := holds_behind (holds_behind tags lies.holds rfl) held (by simp; omega)
    refine holds_behind whole (holds_of_checkedAt small last) ?_
    simp only [List.length_append, List.length_cons, List.length_nil]
    omega
  · dsimp only
    rw [spelled, wrap_of_lt (by omega)]
    simp only [List.length_append, List.length_cons, List.length_nil]
    omega

theorem CBindProtocolMessage.made (small : data.size < 2 ^ 63) :
    Accepts (fun msg => MadeAt data offset .bindProtocol msg.len)
      (CBindProtocolMessage.decode heap data offset) := by
  refine accepts_catch (madeAt_zero _ _ _) ?_
  refine accepts_expect (madeAt_zero _ _ _) fun first => ?_
  refine accepts_expect (madeAt_zero _ _ _) fun second => ?_
  refine accepts_bind fun seq seqRead => ?_
  refine accepts_expect (madeAt_zero _ _ _) fun third => ?_
  refine accepts_bind fun ⟨strLen, varIntLen⟩ counted => ?_
  obtain ⟨bytes, lies, rfl, rfl⟩ := parseVarInt_eq_ok.mp counted
  have short := lies.short
  refine accepts_bind fun _ starts => accepts_bind fun protocol copied => ?_
  refine accepts_expect (madeAt_zero _ _ _) fun fourth => ?_
  refine accepts_bind fun version versionRead => ?_
  refine accepts_ite (fun _ => accepts_pure (madeAt_zero _ _ _)) fun _ => ?_
  refine accepts_expect (madeAt_zero _ _ _) fun last => accepts_pure fun _ => ?_
  have few := lt_of_copyString short copied
  have inside := lt_of_checkedAt first
  have needle : wrap (7 + bytes.length + prefixLength bytes) =
      7 + bytes.length + prefixLength bytes := wrap_of_lt (by omega)
  have needle' : wrap (7 + bytes.length + prefixLength bytes + 5) =
      7 + bytes.length + prefixLength bytes + 5 := wrap_of_lt (by omega)
  rw [wrap_of_lt (by omega)] at copied starts
  rw [needle, wrap_of_lt (by omega)] at fourth versionRead
  rw [needle, needle', wrap_of_lt (by omega)] at last
  have within := lt_of_checkedAt starts
  have room : bytes.length < wrapSub data.size (offset + 7) := by
    rw [wrapSub_of_le (by omega) (by omega)]
    omega
  obtain ⟨protocolHeld, length⟩ := holds_of_copyString copied
  let string : WireString :=
    ⟨.ofPrefix lies room (nonneg_of_small short (by omega)), protocol, length⟩
  let uint : WordMagic := ⟨.typeUint, rfl⟩
  have spelled : sentData .bindProtocol [.word uint seq, .varchar string, .word uint version] =
      [EMessageType.bindProtocol.code, EMessageMagic.typeUint.code] ++ u32Bytes seq ++
        [EMessageMagic.typeVarchar.code] ++ bytes ++ protocol ++
        [EMessageMagic.typeUint.code] ++ u32Bytes version ++ [EMessageMagic.endMark.code] := by
    simp [sentData, receivedData, Token.bytes, WireString.bytes, string, Length.ofPrefix, uint]
  refine ⟨[.word uint seq, .varchar string, .word uint version], by simp [Printable], ?_, ?_⟩
  · rw [spelled]
    have tags := holds_two small first second
    have numbered := holds_behind tags (holds_of_u32At seqRead) rfl
    have tagged := holds_behind numbered (holds_of_checkedAt small third) rfl
    have counting := holds_behind tagged lies.holds rfl
    have named := holds_behind counting protocolHeld (by simp; omega)
    have tagged' := holds_behind named (holds_of_checkedAt small fourth) (by simp; omega)
    have versioned := holds_behind tagged' (holds_of_u32At versionRead) (by simp; omega)
    exact holds_behind versioned (holds_of_checkedAt small last) (by simp; omega)
  · dsimp only
    rw [spelled, needle, needle', wrap_of_lt (by omega)]
    refine ⟨?_, by omega⟩
    simp only [List.length_append, List.length_cons, List.length_nil, length_u32Bytes, length]

theorem CFatalErrorMessage.made (small : data.size < 2 ^ 63) :
    Accepts (fun msg => MadeAt data offset .fatalProtocolError msg.len)
      (CFatalErrorMessage.decode heap data offset) := by
  refine accepts_catch (madeAt_zero _ _ _) ?_
  refine accepts_expect (madeAt_zero _ _ _) fun first => ?_
  refine accepts_expect (madeAt_zero _ _ _) fun second => ?_
  refine accepts_bind fun objectId objectRead => ?_
  refine accepts_expect (madeAt_zero _ _ _) fun third => ?_
  refine accepts_bind fun errorId errorRead => ?_
  refine accepts_expect (madeAt_zero _ _ _) fun fourth => ?_
  refine accepts_bind fun ⟨strLen, strLenLen⟩ counted => ?_
  obtain ⟨bytes, lies, rfl, rfl⟩ := parseVarInt_eq_ok.mp counted
  have short := lies.short
  have inside := lt_of_checkedAt first
  refine accepts_bind fun errorMsg copied => ?_
  refine accepts_expect (madeAt_zero _ _ _) fun last => accepts_pure fun _ => ?_
  have few := lt_of_copyString short copied
  have needle : wrap (12 + bytes.length + prefixLength bytes) =
      12 + bytes.length + prefixLength bytes := wrap_of_lt (by omega)
  rw [wrap_of_lt (by omega)] at copied
  rw [needle, wrap_of_lt (by omega)] at last
  have within := lt_of_checkedAt last
  have room : bytes.length < wrapSub data.size (offset + 12) := by
    rw [wrapSub_of_le (by omega) (by omega)]
    omega
  obtain ⟨msgHeld, length⟩ := holds_of_copyString copied
  let string : WireString :=
    ⟨.ofPrefix lies room (nonneg_of_small short (by omega)), errorMsg, length⟩
  let uint : WordMagic := ⟨.typeUint, rfl⟩
  have spelled : sentData .fatalProtocolError
        [.word uint objectId, .word uint errorId, .varchar string] =
      [EMessageType.fatalProtocolError.code, EMessageMagic.typeUint.code] ++ u32Bytes objectId ++
        [EMessageMagic.typeUint.code] ++ u32Bytes errorId ++ [EMessageMagic.typeVarchar.code] ++
        bytes ++ errorMsg ++ [EMessageMagic.endMark.code] := by
    simp [sentData, receivedData, Token.bytes, WireString.bytes, string, Length.ofPrefix, uint]
  refine ⟨[.word uint objectId, .word uint errorId, .varchar string], by simp [Printable], ?_, ?_⟩
  · rw [spelled]
    have tags := holds_two small first second
    have object := holds_behind tags (holds_of_u32At objectRead) rfl
    have tagged := holds_behind object (holds_of_checkedAt small third) rfl
    have numbered := holds_behind tagged (holds_of_u32At errorRead) rfl
    have tagged' := holds_behind numbered (holds_of_checkedAt small fourth) rfl
    have counting := holds_behind tagged' lies.holds rfl
    have worded := holds_behind counting msgHeld (by simp; omega)
    exact holds_behind worded (holds_of_checkedAt small last) (by simp; omega)
  · dsimp only
    rw [spelled, needle, wrap_of_lt (by omega)]
    refine ⟨?_, by omega⟩
    simp only [List.length_append, List.length_cons, List.length_nil, length_u32Bytes, length]

open CGenericProtocolMessage in
/-- The object and the method that were read lie in front of the elements. -/
theorem holds_of_decodeHeader (small : data.size < 2 ^ 63) {object method : UInt32}
    (header : decodeHeader data offset = .ok (some (object, method))) :
    data.Holds offset (callHeader object method) := by
  have reads : Accepts (fun read => ∀ object method, read = some (object, method) →
      data.Holds offset (callHeader object method)) (decodeHeader data offset) := by
    have nothing : ∀ object method : UInt32, (none : Option (UInt32 × UInt32)) =
        some (object, method) → data.Holds offset (callHeader object method) :=
      by rintro _ _ ⟨⟩
    refine accepts_catch nothing ?_
    refine accepts_expect nothing fun first => ?_
    refine accepts_expect nothing fun second => ?_
    refine accepts_bind fun object objectRead => ?_
    refine accepts_expect nothing fun third => ?_
    refine accepts_bind fun method methodRead => accepts_pure ?_
    rintro _ _ ⟨⟩
    have tags := holds_two small first second
    have object := holds_behind tags (holds_of_u32At objectRead) rfl
    have tagged := holds_behind object (holds_of_checkedAt small third) rfl
    exact holds_behind tagged (holds_of_u32At methodRead) rfl
  exact reads _ header object method rfl

/-- The object and the method of a generic message, as tokens. -/
def headerTokens (object method : UInt32) : List Token :=
  [.word Scalar.object.magic object, .word Scalar.uint.magic method]

theorem sentData_generic (object method : UInt32) (tokens : List Token) :
    sentData .genericProtocolMessage (headerTokens object method ++ tokens) =
      callHeader object method ++
        (tokens.flatMap Token.bytes ++ [EMessageMagic.endMark.code]) := by
  simp [sentData, receivedData, headerTokens, Token.bytes, callHeader, Scalar.magic]

open CGenericProtocolMessage in
theorem CGenericProtocolMessage.made (filled : Filled data) (small : data.size < 2 ^ 63)
    {fds left : List Fd} {msg : CGenericProtocolMessage}
    (accepted : decode data fds offset = some (.ok (msg, left))) (length : msg.len ≠ 0)
    (nonneg : Unsigned data offset fds) :
    ∃ tokens, data.Holds offset (sentData .genericProtocolMessage tokens) ∧
      msg.len = (sentData .genericProtocolMessage tokens).length ∧ msg.len < 2 ^ 63 := by
  obtain ⟨object, method, last, header, reaches, mark, -, message⟩ :=
    decode_accepts.mp ⟨accepted, length⟩
  cases message
  have first : offset < data.size := lt_of_checkedAt (tag_of_decodeHeader header)
  obtain ⟨tokens, held, end_, inside, -, -⟩ :=
    tokens_of_reaches filled small reaches nonneg mark (show offset + 11 < 2 ^ 64 by omega)
  replace end_ : last.i = 11 + (tokens.flatMap Token.bytes).length := end_
  refine ⟨headerTokens object method ++ tokens, ?_, ?_, ?_⟩
  · rw [sentData_generic]
    exact holds_behind (holds_of_decodeHeader small header) held rfl
  · show wrap (last.i + 1) = _
    rw [sentData_generic, wrap_of_lt (by omega), end_]
    simp only [List.length_append, length_callHeader, List.length_singleton]
    omega
  · show wrap (last.i + 1) < _
    rw [wrap_of_lt (by omega)]
    omega

end Decoders

/-! ## All messages -/

section All

variable {heap : Heap} {data : View} {fds left : List Fd} {off len : Nat} {received : Received}

/-- No length prefix that the walk over a generic message reads is negative. -/
def NoNegative (data : View) (fds : List Fd) (off : Nat) : EMessageType → Prop
  | .genericProtocolMessage => CGenericProtocolMessage.Unsigned data off fds
  | _ => True

/-- **What a decoder accepts is made of tokens.** The printer has a case for all of them,
unless the message is a generic one. -/
theorem Decoded.made (filled : Filled data) (small : data.size < 2 ^ 63)
    (decoded : Decoded heap data fds off received len left) (accepted : len ≠ 0)
    (nonneg : NoNegative data fds off received.type) :
    ∃ tokens, data.Holds off (sentData received.type tokens) ∧
      len = (sentData received.type tokens).length ∧ len < 2 ^ 63 ∧
      (received.type ≠ .genericProtocolMessage → ∀ token ∈ tokens, Printable token) := by
  have control : MadeAt data off received.type len →
      ∃ tokens, data.Holds off (sentData received.type tokens) ∧
        len = (sentData received.type tokens).length ∧ len < 2 ^ 63 ∧
        (received.type ≠ .genericProtocolMessage → ∀ token ∈ tokens, Printable token) := by
    intro made
    obtain ⟨tokens, printable, held, length, bound⟩ := made accepted
    exact ⟨tokens, held, length, bound, fun _ => printable⟩
  cases decoded with
  | hello decoded => exact control (CHelloMessage.made _ decoded)
  | handshakeBegin decoded => exact control (CHandshakeBeginMessage.made small _ decoded)
  | handshakeAck decoded => exact control (CHandshakeAckMessage.made small _ decoded)
  | handshakeProtocols decoded => exact control (CHandshakeProtocolsMessage.made small _ decoded)
  | bindProtocol decoded => exact control (CBindProtocolMessage.made small _ decoded)
  | newObject decoded => exact control (CNewObjectMessage.made small _ decoded)
  | fatalError decoded => exact control (CFatalErrorMessage.made small _ decoded)
  | roundtripRequest decoded => exact control (SeqMessage.made small _ decoded)
  | roundtripDone decoded => exact control (SeqMessage.made small _ decoded)
  | generic decoded =>
      obtain ⟨tokens, held, length, bound⟩ :=
        CGenericProtocolMessage.made filled small decoded accepted nonneg
      exact ⟨tokens, held, length, bound, fun other => absurd rfl other⟩

end All

end Hyprwire.Tracing
