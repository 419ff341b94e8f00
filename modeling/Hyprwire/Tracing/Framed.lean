import Hyprwire.Object.Framed
import Hyprwire.Tracing.Ends

/-!
# What the ends send frames itself

A message that an end sends frames itself as soon as it has fewer than `2 ^ 28` bytes and
descriptors (`Sendable.framed`): each length in it stands before bytes or descriptors that the
message has, so it is short as well. For a call the tokens are found parameter by parameter
(`marshal_ofTokens`).
-/

set_option autoImplicit false

namespace Hyprwire.Tracing

open Cpp Wire Object

/-- A message with fewer than `2 ^ 28` bytes, and as few descriptors. -/
structure Small (message : Message) : Prop where
  bytes : message.data.length < 2 ^ 28
  fds : message.fds.length < 2 ^ 28

/-! ## Lengths and what they stand before -/

theorem encodeVarInt_length_pos (n : Nat) : 0 < (encodeVarInt n).length := by
  rw [encodeVarInt_mod, encodeVarInt_eq (Nat.mod_lt _ (by decide))]
  exact (Base128.numeral_encode _).length_pos

theorem length_le_lengthPrefixed (string : Str) :
    string.length ≤ (lengthPrefixed string).length ∧ 0 < (lengthPrefixed string).length := by
  have := encodeVarInt_length_pos string.length
  rw [lengthPrefixed, List.length_append]
  omega

/-- Every string of an array is as short as the array, and so is their number. -/
theorem length_le_strings (strings : List Str) :
    strings.length ≤ (strings.flatMap lengthPrefixed).length ∧
      ∀ string ∈ strings, string.length ≤ (strings.flatMap lengthPrefixed).length := by
  induction strings with
  | nil => exact ⟨le_rfl, fun _ none => absurd none List.not_mem_nil⟩
  | cons string rest ih =>
      obtain ⟨count, each⟩ := ih
      obtain ⟨bytes, some_⟩ := length_le_lengthPrefixed string
      rw [List.flatMap_cons, List.length_append, List.length_cons]
      refine ⟨by omega, List.forall_mem_cons.mpr ⟨by omega, fun other listed => ?_⟩⟩
      have := each other listed
      omega

/-- An array that is marshalled is a token, when its bytes and its descriptors are few. -/
theorem marshalArray_ofTokens {arrType : UInt8} {pointer : Arg} {arrLen : Nat} {bytes : List UInt8}
    {fds : List Fd} (made : marshalArray arrType pointer arrLen = .ok (some (bytes, fds)))
    (short : bytes.length < 2 ^ 28) (few : fds.length < 2 ^ 28) :
    OfTokens (EMessageMagic.typeArray.code :: arrType :: (encodeVarInt arrLen ++ bytes)) fds := by
  rw [marshalArray] at made
  cases known : EMessageMagic.ofByte arrType with
  | none => simp [known] at made
  | some magic =>
      obtain rfl := EMessageMagic.ofByte_eq_some.mp known
      rw [EMessageMagic.ofByte_code] at made
      have words : ∀ (word : magic.IsWord = true), (pointedWords arrLen pointer >>= fun elements =>
            (pure (some (elements.flatMap u32Bytes, [])) : Except Fault _)) = .ok (some (bytes, fds)) →
          OfTokens (EMessageMagic.typeArray.code :: magic.code :: (encodeVarInt arrLen ++ bytes))
            fds := by
        intro word read
        obtain ⟨elements, pointed, same⟩ := bind_eq_ok.mp read
        obtain ⟨all, -, -, count⟩ := pointedWords_length pointed
        cases same
        rw [length_flatMap_u32Bytes] at short
        exact .single (.words ⟨magic, word⟩ (.ofNat arrLen (by omega)) elements
          (count.trans (Length.value_ofNat _ _).symm))
      cases magic with
      | typeUint | typeInt | typeF32 | typeObject => exact words rfl made
      | typeFd =>
          obtain ⟨elements, pointed, same⟩ := bind_eq_ok.mp made
          obtain ⟨all, -, -, count⟩ := pointedWords_length pointed
          cases same
          rw [List.append_nil]
          exact .single (.fds (.ofNat arrLen (count ▸ few)) fds
            (count.trans (Length.value_ofNat _ _).symm))
      | typeVarchar =>
          obtain ⟨strings, pointed, same⟩ := bind_eq_ok.mp made
          obtain ⟨all, -, -, count⟩ := pointedStrings_length pointed
          cases same
          obtain ⟨most, each⟩ := length_le_strings strings
          obtain ⟨elements, number, written⟩ := exists_wireStrings fun string listed =>
            Nat.lt_of_le_of_lt (each string listed) short
          rw [← written]
          exact .single (.varchars (.ofNat arrLen (by omega)) elements
            ((number.trans count).trans (Length.value_ofNat _ _).symm))
      | _ => simp at made

/-- What a turn of the marshaller writes are tokens, if it is short. -/
def TurnOfTokens : Marshalled → Prop
  | .next bytes fds _ | .skip bytes fds _ =>
      bytes.length < 2 ^ 28 → fds.length < 2 ^ 28 → OfTokens bytes fds
  | .failed => True

theorem marshalParam_ofTokens {param : UInt8} {following : Option UInt8} {args : List Arg}
    {turn : Marshalled} (made : marshalParam param following args = .ok turn) :
    TurnOfTokens turn := by
  simp only [marshalParam] at made
  cases known : EMessageMagic.ofByte param with
  | none =>
      rw [known] at made
      cases made
      exact fun _ _ => ofTokens_nil
  | some magic =>
      obtain rfl := EMessageMagic.ofByte_eq_some.mp known
      rw [EMessageMagic.ofByte_code] at made
      cases magic with
      | typeUint | typeInt | typeObject | typeF32 =>
          obtain ⟨⟨bits, rest⟩, -, same⟩ := bind_eq_ok.mp made
          cases same
          exact fun _ _ => .single (.word ⟨_, rfl⟩ bits)
      | typeFd =>
          obtain ⟨⟨fd, rest⟩, -, same⟩ := bind_eq_ok.mp made
          cases same
          exact fun _ _ => .single (.fd fd)
      | typeVarchar =>
          obtain ⟨⟨string, rest⟩, -, same⟩ := bind_eq_ok.mp made
          cases same
          intro short _
          have inside : string.length ≤ (lengthPrefixed string).length :=
            (length_le_lengthPrefixed string).1
          have short : (lengthPrefixed string).length + 1 < 2 ^ 28 := short
          exact .single (.varchar (wireString string (by omega)))
      | typeArray =>
          cases following with
          | none => cases made
          | some arrType =>
              obtain ⟨⟨pointer, others⟩, -, made⟩ := bind_eq_ok.mp made
              obtain ⟨⟨arrLen, rest⟩, -, made⟩ := bind_eq_ok.mp made
              obtain ⟨result, written, made⟩ := bind_eq_ok.mp made
              cases result with
              | none =>
                  cases made
                  trivial
              | some pair =>
                  cases made
                  intro short few
                  rw [List.length_cons, List.length_cons, List.length_append] at short
                  exact marshalArray_ofTokens written (by omega) few
      | _ =>
          cases made
          exact fun _ _ => ofTokens_nil

/-- **The marshaller writes tokens**, when what it writes is short. -/
theorem marshal_ofTokens {params : List UInt8} {args : List Arg} {bytes : List UInt8}
    {fds : List Fd} (made : marshal params args = .ok (some (bytes, fds)))
    (short : bytes.length < 2 ^ 28) (few : fds.length < 2 ^ 28) : OfTokens bytes fds := by
  induction params, args using marshal.induct generalizing bytes fds with
  | case1 args =>
      cases made
      exact ofTokens_nil
  | case2 param params args next skip =>
      rw [marshal] at made
      obtain ⟨turn, written, made⟩ := bind_eq_ok.mp made
      have turned := marshalParam_ofTokens written
      cases turn with
      | failed => cases made
      | next first own args =>
          obtain ⟨rest, more, same⟩ := bind_eq_ok.mp made
          obtain ⟨_, _, rfl, rfl, rfl⟩ := before_eq_some (Except.ok.inj same)
          rw [List.length_append] at short few
          exact (turned (by omega) (by omega)).append (next args more (by omega) (by omega))
      | skip first own args =>
          cases params with
          | nil =>
              cases made
              exact turned short few
          | cons following params =>
              obtain ⟨rest, more, same⟩ := bind_eq_ok.mp made
              obtain ⟨_, _, rfl, rfl, rfl⟩ := before_eq_some (Except.ok.inj same)
              rw [List.length_append] at short few
              exact (turned (by omega) (by omega)).append (skip args more (by omega) (by omega))

/-- The message of a call, to an object of whatever identifier. -/
theorem callMessage_framed {object : IWireObject} {id : UInt32} {seq : Option UInt32}
    {method : SMethod} {args : List Arg} {msg : CGenericProtocolMessage} {data : List UInt8}
    (made : callMessage object id seq method args = .ok (some msg))
    (same : ∀ bytes, msg.data = callHeader object.id id ++ bytes →
      ∃ name, data = callHeader name id ++ bytes)
    (small : Small (.generic data msg.fds)) : Framed (.generic data msg.fds) := by
  obtain ⟨result, marshalled, made⟩ := bind_eq_ok.mp made
  cases result with
  | none => cases made
  | some pair =>
      cases made
      obtain ⟨name, rfl⟩ := same (callSeq seq ++ pair.1 ++ [EMessageMagic.endMark.code]) rfl
      have short : pair.1.length < 2 ^ 28 := by
        have := small.bytes
        simp only [Message.data, List.length_append] at this
        omega
      obtain ⟨tokens, bytes, fds⟩ := (callSeq_ofTokens seq).append
        (marshal_ofTokens marshalled short small.fds)
      have framed := @Framed.call name id tokens
      rw [callBody, ← bytes, ← fds] at framed
      exact framed

/-- **A message that an end sends frames itself**, if it is short. -/
theorem Sendable.framed {message : Message} (sendable : Sendable message) (small : Small message) :
    Framed message := by
  obtain ⟨headers, sent⟩ := sendable
  have short := small.bytes
  cases sent with
  | hello => exact .hello
  | handshakeBegin versions =>
      refine .handshakeBegin ?_
      simp only [Message.data, CHandshakeBeginMessage.encode, List.length_append,
        length_flatMap_u32Bytes] at short
      omega
  | handshakeAck version => exact .handshakeAck
  | handshakeProtocols protocols =>
      obtain ⟨most, each⟩ := length_le_strings protocols
      have inside : (protocols.flatMap lengthPrefixed).length < 2 ^ 28 := by
        simp only [Message.data, CHandshakeProtocolsMessage.encode, List.length_append] at short
        show (protocols.flatMap fun protocol => encodeVarInt protocol.length ++ protocol).length < _
        omega
      exact .handshakeProtocols (by omega) fun protocol listed =>
        Nat.lt_of_le_of_lt (each protocol listed) inside
  | bindProtocol protocol seq version =>
      refine .bindProtocol ?_
      simp only [Message.data, CBindProtocolMessage.encode, List.length_append] at short
      omega
  | newObject seq id => exact .newObject
  | fatalError object errorId msg =>
      refine .fatalError ?_
      simp only [Message.data, CFatalErrorMessage.encode, List.length_append] at short
      omega
  | roundtripRequest seq => exact .roundtripRequest
  | roundtripDone seq => exact .roundtripDone
  | call object id seq method args msg made =>
      exact callMessage_framed made (fun _ same => ⟨_, same⟩) small
  | resolved object id seq method args msg made name =>
      exact callMessage_framed made (fun _ same => resolveSeq_callHeader msg same) small

end Hyprwire.Tracing
