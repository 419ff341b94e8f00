import Hyprwire.Object.Batch
import Hyprwire.Object.Lengths
import Hyprwire.Tracing.Accepted

/-!
# What is sent is made of tokens

A message that is sent is made by one of the sending constructors, or by a call
(`IsSent`, with the lengths that are written into it). When all of these are below
`2 ^ 28`, the writer has written them as they are, and the message is made of tokens
(`IsSent.made`): those of the marshaller are found parameter by parameter
(`marshal_made`). Such a message is printed (`IsSent.printed`).
-/

set_option autoImplicit false

namespace Hyprwire.Tracing

open Cpp Wire Object

/-! ## Short lengths -/

/-- All lengths are such that the writer keeps them. -/
def AllShort (headers : List LengthHeader) : Prop :=
  ∀ header ∈ headers, header.content.count < 2 ^ 28

theorem allShort_shift {headers : List LengthHeader} {n : Nat}
    (short : AllShort (headers.map (LengthHeader.shift n))) : AllShort headers :=
  fun header listed => short (header.shift n) (List.mem_map_of_mem listed)

theorem AllShort.content {content : Content} (short : AllShort (contentHeaders content)) :
    content.count < 2 ^ 28 := short ⟨0, content⟩ List.mem_cons_self

theorem AllShort.elements {elements : List Str} (short : AllShort (elementHeaders elements)) :
    ∀ element ∈ elements, element.length < 2 ^ 28 := by
  induction elements with
  | nil => exact List.forall_mem_nil _
  | cons element elements ih =>
      obtain ⟨first, others⟩ := List.forall_mem_cons.mp short
      exact List.forall_mem_cons.mpr ⟨first, ih (allShort_shift others)⟩

/-! ## Tokens of contents -/

/-- Bytes of tokens that the printer has a case for. -/
def MadeOfTokens (bytes : List UInt8) : Prop :=
  ∃ tokens : List Token, bytes = tokens.flatMap Token.bytes ∧ ∀ token ∈ tokens, Printable token

theorem MadeOfTokens.nil : MadeOfTokens [] := ⟨[], rfl, fun _ none => absurd none List.not_mem_nil⟩

theorem MadeOfTokens.one {token : Token} (printable : Printable token) :
    MadeOfTokens token.bytes :=
  ⟨[token], (List.flatMap_singleton _ _).symm, List.forall_mem_singleton.mpr printable⟩

theorem MadeOfTokens.append {first second : List UInt8} (one : MadeOfTokens first)
    (two : MadeOfTokens second) : MadeOfTokens (first ++ second) := by
  obtain ⟨tokens, rfl, printable⟩ := one
  obtain ⟨tokens', rfl, printable'⟩ := two
  exact ⟨tokens ++ tokens', List.flatMap_append.symm,
    List.forall_mem_append.mpr ⟨printable, printable'⟩⟩

/-- A word. -/
theorem made_word {magic : EMessageMagic} (primitive : magic.IsWord = true) (bits : UInt32) :
    MadeOfTokens (magic.code :: u32Bytes bits) :=
  @MadeOfTokens.one (.word ⟨magic, primitive⟩ bits) trivial

/-- A string behind its length. -/
theorem made_varchar {string : Str} (short : string.length < 2 ^ 28) :
    MadeOfTokens (EMessageMagic.typeVarchar.code :: lengthPrefixed string) :=
  @MadeOfTokens.one (.varchar (wireString string short)) trivial

/-- Words behind their number. -/
theorem made_words {magic : EMessageMagic} (primitive : magic.IsWord = true)
    (known : magic ≠ .typeSeq) {elements : List UInt32} (short : elements.length < 2 ^ 28) :
    MadeOfTokens (EMessageMagic.typeArray.code :: magic.code ::
      (encodeVarInt elements.length ++ elements.flatMap u32Bytes)) := by
  let length : Length := .ofNat elements.length short
  have counted : elements.length = length.value := (Length.value_ofNat _ _).symm
  exact @MadeOfTokens.one (.words ⟨magic, primitive⟩ length elements counted)
    fun same => absurd same known

theorem made_fds {elements : List Fd} (short : elements.length < 2 ^ 28) :
    MadeOfTokens (EMessageMagic.typeArray.code :: EMessageMagic.typeFd.code ::
      encodeVarInt elements.length) := by
  let length : Length := .ofNat elements.length short
  have counted : elements.length = length.value := (Length.value_ofNat _ _).symm
  exact @MadeOfTokens.one (.fds length elements counted) trivial

/-- Strings behind their number. -/
theorem made_varchars {elements : List Str} (short : AllShort (contentHeaders (.strings elements))) :
    MadeOfTokens (EMessageMagic.typeArray.code :: EMessageMagic.typeVarchar.code ::
      (encodeVarInt elements.length ++ elements.flatMap lengthPrefixed)) := by
  obtain ⟨first, others⟩ := List.forall_mem_cons.mp short
  obtain ⟨strings, same, bytes⟩ := exists_wireStrings (allShort_shift others).elements
  let length : Length := .ofNat elements.length first
  have counted : strings.length = length.value := same.trans (Length.value_ofNat _ _).symm
  have made := @MadeOfTokens.one (.varchars length strings counted) trivial
  rw [Token.bytes, bytes] at made
  exact made

/-! ## Calls -/

/-- The array that the marshaller writes. -/
theorem marshalArray_made {arrType : UInt8} {pointer : Arg} {arrLen : Nat} {bytes : List UInt8}
    {fds : List Fd} (made : marshalArray arrType pointer arrLen = .ok (some (bytes, fds)))
    (short : ∀ content, arrayContent arrType pointer arrLen = some content →
      AllShort (contentHeaders content)) :
    MadeOfTokens (EMessageMagic.typeArray.code :: arrType :: (encodeVarInt arrLen ++ bytes)) := by
  obtain ⟨content, is, count, -⟩ := arrayContent_eq made
  have few := (short content is).content
  rw [count] at few
  rw [marshalArray] at made
  cases known : EMessageMagic.ofByte arrType with
  | none => simp [known] at made
  | some magic =>
      rw [known] at made
      obtain rfl := EMessageMagic.ofByte_eq_some.mp known
      have words : magic.IsWord = true → magic ≠ .typeSeq →
          (pointedWords arrLen pointer >>= fun elements =>
            (pure (some (elements.flatMap u32Bytes, [])) : Except Fault _)) =
              .ok (some (bytes, fds)) →
          MadeOfTokens (EMessageMagic.typeArray.code :: magic.code ::
            (encodeVarInt arrLen ++ bytes)) := by
        intro primitive listed read
        obtain ⟨elements, pointed, same⟩ := bind_eq_ok.mp read
        obtain ⟨all, -, -, length⟩ := pointedWords_length pointed
        cases same
        rw [← length]
        exact made_words primitive listed (by omega)
      cases magic with
      | typeUint | typeInt | typeF32 | typeObject => exact words rfl (by decide) made
      | typeFd =>
          obtain ⟨elements, pointed, same⟩ := bind_eq_ok.mp made
          obtain ⟨all, -, -, length⟩ := pointedWords_length pointed
          cases same
          rw [List.append_nil, ← length]
          exact made_fds (by omega)
      | typeVarchar =>
          obtain ⟨elements, pointed, same⟩ := bind_eq_ok.mp made
          obtain ⟨all, rfl, rfl, length⟩ := pointedStrings_length pointed
          cases same
          have strings := made_varchars (short (.strings ((all.take arrLen).map cString))
            (by simp only [arrayContent, known]))
          rwa [length] at strings
      | _ => simp at made

/-- A turn of the marshaller writes tokens. -/
def TurnMade : Marshalled → Prop
  | .next bytes _ _ | .skip bytes _ _ => MadeOfTokens bytes
  | .failed => True

theorem marshalParam_made {param : UInt8} {following : Option UInt8} {args : List Arg}
    {turn : Marshalled} (made : marshalParam param following args = .ok turn)
    (short : AllShort (paramHeaders param following args)) : TurnMade turn := by
  simp only [marshalParam] at made
  cases known : EMessageMagic.ofByte param with
  | none =>
      rw [known] at made
      cases made
      exact .nil
  | some magic =>
      rw [known] at made
      obtain rfl := EMessageMagic.ofByte_eq_some.mp known
      cases magic with
      | typeUint | typeInt | typeObject | typeF32 =>
          obtain ⟨⟨bits, rest⟩, -, same⟩ := bind_eq_ok.mp made
          cases same
          exact made_word rfl bits
      | typeFd =>
          obtain ⟨⟨fd, rest⟩, -, same⟩ := bind_eq_ok.mp made
          cases same
          exact @MadeOfTokens.one (.fd fd) trivial
      | typeVarchar =>
          obtain ⟨⟨string, rest⟩, read, same⟩ := bind_eq_ok.mp made
          cases same
          obtain ⟨source, rfl, rfl⟩ := vaString_eq_ok read
          simp only [paramHeaders, known] at short
          exact made_varchar (allShort_shift short).content
      | typeArray =>
          cases following with
          | none => cases made
          | some arrType =>
              obtain ⟨⟨pointer, others⟩, read, made⟩ := bind_eq_ok.mp made
              obtain ⟨⟨arrLen, rest⟩, counted, made⟩ := bind_eq_ok.mp made
              obtain ⟨result, written, made⟩ := bind_eq_ok.mp made
              obtain rfl := vaPointer_eq_ok read
              obtain rfl := vaWord_eq_ok counted
              cases result with
              | none =>
                  cases made
                  trivial
              | some pair =>
                  cases made
                  refine marshalArray_made written fun content is => ?_
                  simp only [paramHeaders, known, is] at short
                  exact allShort_shift short
      | _ =>
          cases made
          exact .nil

/-- **The marshaller writes tokens**, when the lengths are short. -/
theorem marshal_made {params : List UInt8} {args : List Arg} {bytes : List UInt8} {fds : List Fd}
    (made : marshal params args = .ok (some (bytes, fds)))
    (short : AllShort (marshalHeaders params args)) : MadeOfTokens bytes := by
  induction params, args using marshal.induct generalizing bytes fds with
  | case1 args =>
      cases made
      exact .nil
  | case2 param params args next skip =>
      rw [marshal] at made
      obtain ⟨turn, written, made⟩ := bind_eq_ok.mp made
      simp only [marshalHeaders, written] at short
      cases turn with
      | failed => cases made
      | next bytes fds args =>
          obtain ⟨first, others⟩ := List.forall_mem_append.mp short
          obtain ⟨rest, more, same⟩ := bind_eq_ok.mp made
          obtain ⟨⟨_, _⟩, rfl, same⟩ := Option.map_eq_some_iff.mp (Except.ok.inj same)
          cases same
          exact .append (marshalParam_made written first) (next args more (allShort_shift others))
      | skip bytes fds args =>
          obtain ⟨first, others⟩ := List.forall_mem_append.mp short
          cases params with
          | nil =>
              cases made
              exact marshalParam_made written first
          | cons following params =>
              obtain ⟨rest, more, same⟩ := bind_eq_ok.mp made
              obtain ⟨⟨_, _⟩, rfl, same⟩ := Option.map_eq_some_iff.mp (Except.ok.inj same)
              cases same
              exact .append (marshalParam_made written first) (skip args more (allShort_shift others))

/-- The message of a call. -/
theorem callMessage_made {object : IWireObject} {id : UInt32} {seq : Option UInt32}
    {method : SMethod} {args : List Arg} {msg : CGenericProtocolMessage}
    (made : callMessage object id seq method args = .ok (some msg))
    (short : AllShort (callHeaders object.id id seq method args)) :
    ∃ bytes, MadeOfTokens bytes ∧
      msg.data = callHeader object.id id ++ (bytes ++ [EMessageMagic.endMark.code]) := by
  obtain ⟨result, marshalled, made⟩ := bind_eq_ok.mp made
  cases result with
  | none => cases made
  | some pair =>
      cases made
      have arguments := marshal_made marshalled (allShort_shift short)
      refine ⟨callSeq seq ++ pair.1, ?_, rfl⟩
      cases seq with
      | none => exact arguments
      | some seq => exact (made_word rfl seq).append arguments

/-! ## Messages -/

/-- A message that one of the ends sends, and the lengths that are written into it. -/
inductive IsSent : Message → List LengthHeader → Prop
  | hello : IsSent .hello []
  | handshakeBegin (versions : List UInt32) :
      IsSent (.handshakeBegin versions) (beginHeaders versions)
  | handshakeAck (version : UInt32) : IsSent (.handshakeAck version) []
  | handshakeProtocols (protocols : List Str) :
      IsSent (.handshakeProtocols protocols) (protocolsHeaders protocols)
  | bindProtocol (protocol : Str) (seq version : UInt32) :
      IsSent (.bindProtocol protocol seq version) (bindHeaders protocol)
  | newObject (seq id : UInt32) : IsSent (.newObject seq id) []
  | fatalError (object : Option UInt32) (errorId : UInt32) (msg : Str) :
      IsSent (.fatalError object errorId msg) (fatalHeaders msg)
  | roundtripRequest (seq : UInt32) : IsSent (.roundtripRequest seq) []
  | roundtripDone (seq : UInt32) : IsSent (.roundtripDone seq) []
  | call (object : IWireObject) (id : UInt32) (seq : Option UInt32) (method : SMethod)
      (args : List Arg) (msg : CGenericProtocolMessage)
      (made : callMessage object id seq method args = .ok (some msg)) :
      IsSent (.generic msg.data msg.fds) (callHeaders object.id id seq method args)
  | resolved (object : IWireObject) (id : UInt32) (seq : Option UInt32) (method : SMethod)
      (args : List Arg) (msg : CGenericProtocolMessage)
      (made : callMessage object id seq method args = .ok (some msg)) (name : UInt32) :
      IsSent (.generic (msg.resolveSeq name).data msg.fds) (callHeaders object.id id seq method args)

/-- A message is made of tokens that the printer has a case for. -/
def Made (message : Message) : Prop :=
  ∃ tokens, message.data = sentData message.type tokens ∧ ∀ token ∈ tokens, Printable token

theorem made_of_bytes {message : Message} {bytes : List UInt8} (made : MadeOfTokens bytes)
    (data : message.data = message.type.code :: (bytes ++ [EMessageMagic.endMark.code])) :
    Made message := by
  obtain ⟨tokens, rfl, printable⟩ := made
  exact ⟨tokens, data, printable⟩

/-- A call, to an object of whatever identifier. -/
theorem made_generic {object id : UInt32} {bytes data : List UInt8} {fds : List Fd}
    (made : MadeOfTokens bytes)
    (same : data = callHeader object id ++ (bytes ++ [EMessageMagic.endMark.code])) :
    Made (.generic data fds) := by
  have named := @made_word .typeObject rfl object
  have method := @made_word .typeUint rfl id
  refine made_of_bytes ((named.append method).append made) ?_
  rw [Message.data, same]
  simp [callHeader, Message.type]

/-- The object of a message is resolved in one byte. -/
theorem resolveSeq_callHeader (msg : CGenericProtocolMessage) {object id name : UInt32}
    {bytes : List UInt8} (same : msg.data = callHeader object id ++ bytes) :
    ∃ object', (msg.resolveSeq name).data = callHeader object' id ++ bytes := by
  refine ⟨u32OfBytes name.toUInt8 (UInt8.ofNat (object.toNat / 256))
    (UInt8.ofNat (object.toNat / 65536)) (UInt8.ofNat (object.toNat / 16777216)), ?_⟩
  have long : 2 < (callHeader object id ++ bytes).length := by
    rw [List.length_append, length_callHeader]
    omega
  simp only [CGenericProtocolMessage.resolveSeq, same, if_pos long]
  simp only [callHeader, u32Bytes_u32OfBytes]
  rfl

/-- **A message with short lengths is made of tokens.** -/
theorem IsSent.made {message : Message} {headers : List LengthHeader}
    (sent : IsSent message headers) (short : AllShort headers) : Made message := by
  have uint : ∀ bits, MadeOfTokens (EMessageMagic.typeUint.code :: u32Bytes bits) := made_word rfl
  cases sent with
  | hello =>
      refine made_of_bytes (@made_varchar [0x56, 0x41, 0x58] (by decide)) ?_
      decide
  | handshakeBegin versions =>
      have words := @made_words .typeUint rfl (by decide) _ (allShort_shift short).content
      refine made_of_bytes words ?_
      simp [Message.data, CHandshakeBeginMessage.encode, Message.type]
  | handshakeAck version => exact made_of_bytes (uint version) rfl
  | handshakeProtocols protocols =>
      refine made_of_bytes (made_varchars (allShort_shift short)) ?_
      simp [Message.data, CHandshakeProtocolsMessage.encode, Message.type]
      rfl
  | bindProtocol protocol seq version =>
      refine made_of_bytes (((uint seq).append
        (made_varchar (allShort_shift short).content)).append (uint version)) ?_
      simp [Message.data, CBindProtocolMessage.encode, Message.type, lengthPrefixed]
  | newObject seq id =>
      exact made_of_bytes ((uint id).append (uint seq)) rfl
  | fatalError object errorId msg =>
      refine made_of_bytes (((uint (object.getD 0)).append (uint errorId)).append
        (made_varchar (allShort_shift short).content)) ?_
      simp [Message.data, CFatalErrorMessage.encode, Message.type, lengthPrefixed]
  | roundtripRequest seq => exact made_of_bytes (uint seq) rfl
  | roundtripDone seq => exact made_of_bytes (uint seq) rfl
  | call object id seq method args msg made =>
      obtain ⟨bytes, tokens, data⟩ := callMessage_made made short
      exact made_generic tokens data
  | resolved object id seq method args msg made name =>
      obtain ⟨bytes, tokens, data⟩ := callMessage_made made short
      obtain ⟨object', resolved⟩ := @resolveSeq_callHeader msg _ _ name _ data
      exact made_generic tokens resolved

/-- **A message that is sent is printed**, when its lengths are short. -/
theorem IsSent.printed {message : Message} {headers : List LengthHeader}
    (sent : IsSent message headers) (short : AllShort headers)
    (small : message.data.length < 2 ^ 63) : Printed message.type message.data := by
  obtain ⟨tokens, data, printable⟩ := sent.made short
  rw [data] at small ⊢
  exact printed_sent printable small

end Hyprwire.Tracing
