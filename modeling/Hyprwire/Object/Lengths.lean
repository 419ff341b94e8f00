import Hyprwire.Object.Call
import Hyprwire.Wire.Control
import Hyprwire.Wire.Lengths

/-!
# The lengths of what is sent

A call and four of the message constructors write strings and arrays, each behind its
length. `Content` is what a length stands before, and `Content.count` the number of
bytes or elements it has. The places at which a message has lengths are found by going
through it as its writer does (`callHeaders`, `beginHeaders`, `protocolsHeaders`,
`bindHeaders`, `fatalHeaders`).

No writer bounds what it is given. A length that is written is read back as the number
of bytes or elements behind it exactly when there are fewer than `2 ^ 28`
(`Written.kept_iff`), and `lengths_kept_iff` says so of every message.
-/

set_option autoImplicit false

namespace Hyprwire.Object

open Cpp Wire

/-! ## What a length stands before -/

/-- A string, or the elements of an array. Descriptors leave no bytes behind. -/
inductive Content where
  | bytes (string : Str)
  | words (elements : List UInt32)
  | fds (elements : List Fd)
  | strings (elements : List Str)
  deriving DecidableEq, Repr

namespace Content

/-- The number of bytes or elements. -/
def count : Content → Nat
  | .bytes string => string.length
  | .words elements => elements.length
  | .fds elements => elements.length
  | .strings elements => elements.length

/-- What lies behind the length. -/
def data : Content → List UInt8
  | .bytes string => string
  | .words elements => elements.flatMap u32Bytes
  | .fds _ => []
  | .strings elements => elements.flatMap lengthPrefixed

end Content

/-- A length in a message: where it lies, and what it stands before. -/
structure LengthHeader where
  place : Nat
  content : Content
  deriving DecidableEq, Repr

namespace LengthHeader

/-- The length in a message that the bytes are put before. -/
def shift (n : Nat) (header : LengthHeader) : LengthHeader :=
  { header with place := n + header.place }

/-- The writer has put the length and the content at the place. -/
def Written (data : List UInt8) (header : LengthHeader) : Prop :=
  ∃ before after, data = before ++ (encodeVarInt header.content.count ++
    (header.content.data ++ after)) ∧ before.length = header.place

/-- The length that is read at the place is the number of bytes or elements behind it. -/
def Kept (data : List UInt8) (header : LengthHeader) : Prop :=
  ∃ k, parseVarIntAt (spanOf data) header.place = .ok (header.content.count, k) ∧
    header.content.data <+: data.drop (header.place + k)

theorem Written.append {data : List UInt8} {header : LengthHeader}
    (written : header.Written data) (after : List UInt8) : header.Written (data ++ after) := by
  obtain ⟨before, rest, rfl, place⟩ := written
  exact ⟨before, rest ++ after, by simp only [List.append_assoc], place⟩

theorem Written.shift {data : List UInt8} {header : LengthHeader} (written : header.Written data)
    (before : List UInt8) : (header.shift before.length).Written (before ++ data) := by
  obtain ⟨first, after, rfl, place⟩ := written
  refine ⟨before ++ first, after, by simp only [LengthHeader.shift, List.append_assoc], ?_⟩
  rw [List.length_append, place]
  rfl

/-- The length at the start of what is written. -/
theorem written_start (content : Content) (after : List UInt8) :
    Written (encodeVarInt content.count ++ (content.data ++ after)) ⟨0, content⟩ :=
  ⟨[], after, rfl, rfl⟩

/-- **A length that was written is kept exactly when it is below `2 ^ 28`.** -/
theorem Written.kept_iff {data : List UInt8} {header : LengthHeader}
    (written : header.Written data) (small : data.length < 2 ^ 63) :
    header.Kept data ↔ header.content.count < 2 ^ 28 := by
  obtain ⟨before, after, rfl, place⟩ := written
  rw [List.length_append, List.length_append] at small
  have holds := @spanOf_holds before (encodeVarInt header.content.count)
    (header.content.data ++ after) (by omega)
  rw [place] at holds
  have room : wrapSub (before ++ (encodeVarInt header.content.count ++
        (header.content.data ++ after))).length header.place =
      (encodeVarInt header.content.count ++ (header.content.data ++ after)).length := by
    rw [List.length_append, List.length_append, place, wrapSub_of_le (by omega) (by omega)]
    omega
  have read := @parseVarInt_written _ _ _ header.content.count holds
    (show _ ≤ (encodeVarInt header.content.count ++ (header.content.data ++ after)).length by
      rw [List.length_append]
      omega)
  rw [← room] at read
  constructor
  · rintro ⟨k, kept, -⟩
    have low := congrArg Prod.fst (Except.ok.inj (read.symm.trans kept))
    simp only at low
    omega
  · intro few
    rw [Nat.mod_eq_of_lt few] at read
    refine ⟨_, read, ?_⟩
    rw [← place, ← List.length_append, ← List.append_assoc, List.drop_left]
    exact List.prefix_append _ _

end LengthHeader

/-! ## Calls -/

/-- The strings of an array, one behind the other. -/
def elementHeaders : List Str → List LengthHeader
  | [] => []
  | element :: elements =>
      ⟨0, .bytes element⟩ ::
        (elementHeaders elements).map (LengthHeader.shift (lengthPrefixed element).length)

/-- The elements that an array is sent with. -/
def arrayContent (arrType : UInt8) (pointer : Arg) (arrLen : Nat) : Option Content :=
  match EMessageMagic.ofByte arrType, pointer with
  | some .typeUint, .words elements | some .typeInt, .words elements
  | some .typeF32, .words elements | some .typeObject, .words elements =>
      some (.words (elements.take arrLen))
  | some .typeFd, .words elements => some (.fds (elements.take arrLen))
  | some .typeVarchar, .strings elements => some (.strings ((elements.take arrLen).map cString))
  | _, _ => none

/-- The lengths of a string, or of an array and of the strings in it. -/
def contentHeaders (content : Content) : List LengthHeader :=
  ⟨0, content⟩ ::
    match content with
    | .strings elements =>
        (elementHeaders elements).map (LengthHeader.shift (encodeVarInt content.count).length)
    | _ => []

/-- The lengths that a turn of the marshaller writes. -/
def paramHeaders (param : UInt8) (following : Option UInt8) (args : List Arg) :
    List LengthHeader :=
  match EMessageMagic.ofByte param, following, args with
  | some .typeVarchar, _, .string bytes :: _ =>
      (contentHeaders (.bytes (cString bytes))).map (LengthHeader.shift 1)
  | some .typeArray, some arrType, pointer :: .word arrLen :: _ =>
      match arrayContent arrType pointer arrLen.toNat with
      | some content => (contentHeaders content).map (LengthHeader.shift 2)
      | none => []
  | _, _, _ => []

/-- The lengths that the arguments are sent with. -/
def marshalHeaders : List UInt8 → List Arg → List LengthHeader
  | [], _ => []
  | param :: params, args =>
      match marshalParam param params.head? args with
      | .ok (.next bytes _ rest) =>
          paramHeaders param params.head? args ++
            (marshalHeaders params rest).map (LengthHeader.shift bytes.length)
      | .ok (.skip bytes _ rest) =>
          paramHeaders param params.head? args ++
            match params with
            | [] => []
            | _ :: params => (marshalHeaders params rest).map (LengthHeader.shift bytes.length)
      | _ => []

/-- The lengths in the message of a call. -/
def callHeaders (object id : UInt32) (seq : Option UInt32) (method : SMethod) (args : List Arg) :
    List LengthHeader :=
  (marshalHeaders method.params args).map
    (LengthHeader.shift (callHeader object id ++ callSeq seq).length)

/-! ## Constructors -/

/-- The length in a `HANDSHAKE_BEGIN`. -/
def beginHeaders (versions : List UInt32) : List LengthHeader :=
  (contentHeaders (.words versions)).map (LengthHeader.shift 3)

/-- The lengths in a `HANDSHAKE_PROTOCOLS`. -/
def protocolsHeaders (protocols : List Str) : List LengthHeader :=
  (contentHeaders (.strings protocols)).map (LengthHeader.shift 3)

/-- The length in a `BIND_PROTOCOL`. -/
def bindHeaders (protocol : Str) : List LengthHeader :=
  (contentHeaders (.bytes protocol)).map (LengthHeader.shift 7)

/-- The length in a `FATAL_PROTOCOL_ERROR`. -/
def fatalHeaders (msg : Str) : List LengthHeader :=
  (contentHeaders (.bytes msg)).map (LengthHeader.shift 12)

/-! ## What is written -/

open LengthHeader

/-- Every one of the lengths has been written. -/
def AllWritten (data : List UInt8) (headers : List LengthHeader) : Prop :=
  ∀ header ∈ headers, header.Written data

theorem AllWritten.append {data : List UInt8} {headers : List LengthHeader}
    (written : AllWritten data headers) (after : List UInt8) : AllWritten (data ++ after) headers :=
  fun header listed => (written header listed).append after

theorem AllWritten.shift {data : List UInt8} {headers : List LengthHeader}
    (written : AllWritten data headers) (before : List UInt8) {n : Nat} (length : before.length = n) :
    AllWritten (before ++ data) (headers.map (LengthHeader.shift n)) := by
  subst length
  intro header listed
  obtain ⟨header, there, rfl⟩ := List.mem_map.mp listed
  exact (written header there).shift before

theorem AllWritten.cons {data : List UInt8} {header : LengthHeader} {headers : List LengthHeader}
    (first : header.Written data) (written : AllWritten data headers) :
    AllWritten data (header :: headers) :=
  List.forall_mem_cons.mpr ⟨first, written⟩

theorem allWritten_nil (data : List UInt8) : AllWritten data [] :=
  fun _ none => absurd none List.not_mem_nil

theorem elementHeaders_written (elements : List Str) :
    AllWritten (elements.flatMap lengthPrefixed) (elementHeaders elements) := by
  induction elements with
  | nil => exact allWritten_nil _
  | cons element elements ih =>
      rw [List.flatMap_cons]
      refine AllWritten.cons ?_ (ih.shift _ rfl)
      rw [lengthPrefixed, List.append_assoc]
      exact written_start (.bytes element) _

/-- The lengths of what is sent behind its length have been written. -/
theorem contentHeaders_written (content : Content) :
    AllWritten (encodeVarInt content.count ++ content.data) (contentHeaders content) := by
  have first : Written (encodeVarInt content.count ++ content.data) ⟨0, content⟩ := by
    have start := written_start content []
    rwa [List.append_nil] at start
  cases content with
  | strings elements => exact AllWritten.cons first ((elementHeaders_written elements).shift _ rfl)
  | bytes | words | fds => exact AllWritten.cons first (allWritten_nil _)

theorem pointedWords_length {pointer : Arg} {arrLen : Nat} {elements : List UInt32}
    (read : pointedWords arrLen pointer = .ok elements) :
    ∃ all, pointer = .words all ∧ elements = all.take arrLen ∧ elements.length = arrLen := by
  cases pointer with
  | words all =>
      simp only [pointedWords] at read
      split at read
      · next enough =>
        cases read
        exact ⟨all, rfl, rfl, List.length_take_of_le enough⟩
      · cases read
  | _ => cases read

theorem pointedStrings_length {pointer : Arg} {arrLen : Nat} {elements : List Str}
    (read : pointedStrings arrLen pointer = .ok elements) :
    ∃ all, pointer = .strings all ∧ elements = (all.take arrLen).map cString ∧
      elements.length = arrLen := by
  cases pointer with
  | strings all =>
      simp only [pointedStrings] at read
      split at read
      · next enough =>
        cases read
        refine ⟨all, rfl, rfl, ?_⟩
        rw [List.length_map, List.length_take_of_le enough]
      · cases read
  | _ => cases read

/-- What follows the length of an array is what the array is sent with. -/
theorem arrayContent_eq {arrType : UInt8} {pointer : Arg} {arrLen : Nat} {bytes : List UInt8}
    {fds : List Fd} (made : marshalArray arrType pointer arrLen = .ok (some (bytes, fds))) :
    ∃ content, arrayContent arrType pointer arrLen = some content ∧ content.count = arrLen ∧
      content.data = bytes := by
  rw [marshalArray] at made
  cases known : EMessageMagic.ofByte arrType with
  | none => simp [known] at made
  | some magic =>
      rw [known] at made
      have words : (pointedWords arrLen pointer >>= fun elements =>
            (pure (some (elements.flatMap u32Bytes, [])) : Except Fault _)) = .ok (some (bytes, fds)) →
          ∃ all, pointer = .words all ∧ (Content.words (all.take arrLen)).count = arrLen ∧
            (Content.words (all.take arrLen)).data = bytes := by
        intro read
        obtain ⟨elements, pointed, same⟩ := bind_eq_ok.mp read
        obtain ⟨all, rfl, rfl, length⟩ := pointedWords_length pointed
        cases same
        exact ⟨all, rfl, length, rfl⟩
      cases magic with
      | typeUint | typeInt | typeF32 | typeObject =>
          obtain ⟨all, rfl, length, data⟩ := words made
          exact ⟨_, by simp only [arrayContent, known], length, data⟩
      | typeFd =>
          obtain ⟨elements, pointed, same⟩ := bind_eq_ok.mp made
          obtain ⟨all, rfl, rfl, length⟩ := pointedWords_length pointed
          cases same
          exact ⟨.fds (all.take arrLen), by simp only [arrayContent, known], length, rfl⟩
      | typeVarchar =>
          obtain ⟨elements, pointed, same⟩ := bind_eq_ok.mp made
          obtain ⟨all, rfl, rfl, length⟩ := pointedStrings_length pointed
          cases same
          exact ⟨.strings ((all.take arrLen).map cString), by simp only [arrayContent, known],
            length, rfl⟩
      | _ => simp at made

/-- The lengths have been written by a turn of the marshaller. -/
def Marshalled.Writes (headers : List LengthHeader) : Marshalled → Prop
  | .next bytes _ _ | .skip bytes _ _ => AllWritten bytes headers
  | .failed => True

/-- **Every turn of the marshaller writes its lengths.** -/
theorem marshalParam_writes {param : UInt8} {following : Option UInt8} {args : List Arg}
    {turn : Marshalled} (made : marshalParam param following args = .ok turn) :
    turn.Writes (paramHeaders param following args) := by
  simp only [marshalParam] at made
  cases known : EMessageMagic.ofByte param with
  | none =>
      rw [known] at made
      cases made
      simp only [paramHeaders, known]
      exact allWritten_nil _
  | some magic =>
      rw [known] at made
      cases magic with
      | typeUint | typeInt | typeObject | typeF32 | typeFd =>
          obtain ⟨⟨bits, rest⟩, -, same⟩ := bind_eq_ok.mp made
          cases same
          simp only [paramHeaders, known]
          exact allWritten_nil _
      | typeVarchar =>
          obtain ⟨⟨string, rest⟩, read, same⟩ := bind_eq_ok.mp made
          cases same
          obtain ⟨source, rfl, rfl⟩ := vaString_eq_ok read
          simp only [paramHeaders, known]
          exact (contentHeaders_written (.bytes (cString source))).shift [param] rfl
      | typeArray =>
          cases following with
          | none => cases made
          | some arrType =>
              obtain ⟨⟨pointer, others⟩, read, made⟩ := bind_eq_ok.mp made
              obtain ⟨⟨arrLen, rest⟩, counted, made⟩ := bind_eq_ok.mp made
              obtain ⟨result, written, made⟩ := bind_eq_ok.mp made
              obtain rfl := vaPointer_eq_ok read
              obtain rfl := vaWord_eq_ok counted
              cases result with
              | none =>
                  cases made
                  trivial
              | some pair =>
                  cases made
                  obtain ⟨content, is, count, data⟩ := arrayContent_eq written
                  simp only [paramHeaders, known, is]
                  have headers := (contentHeaders_written content).shift [param, arrType] rfl
                  rw [count, data] at headers
                  exact headers
      | _ =>
          cases made
          simp only [paramHeaders, known]
          exact allWritten_nil _

theorem allWritten_append {data : List UInt8} {headers more : List LengthHeader}
    (first : AllWritten data headers) (second : AllWritten data more) :
    AllWritten data (headers ++ more) :=
  List.forall_mem_append.mpr ⟨first, second⟩

/-- **The marshaller writes the lengths of all arguments.** -/
theorem marshal_writes {params : List UInt8} {args : List Arg} {bytes : List UInt8} {fds : List Fd}
    (made : marshal params args = .ok (some (bytes, fds))) :
    AllWritten bytes (marshalHeaders params args) := by
  induction params, args using marshal.induct generalizing bytes fds with
  | case1 args => exact allWritten_nil _
  | case2 param params args next skip =>
      rw [marshal] at made
      obtain ⟨turn, written, made⟩ := bind_eq_ok.mp made
      have writes := marshalParam_writes written
      cases turn with
      | failed => cases made
      | next bytes fds args =>
          obtain ⟨rest, more, same⟩ := bind_eq_ok.mp made
          obtain ⟨⟨_, _⟩, rfl, same⟩ := Option.map_eq_some_iff.mp (Except.ok.inj same)
          cases same
          simp only [marshalHeaders, written]
          exact allWritten_append (writes.append _) ((next args more).shift bytes rfl)
      | skip bytes fds args =>
          cases params with
          | nil =>
              cases made
              simp only [marshalHeaders, written, List.append_nil]
              exact writes
          | cons following params =>
              obtain ⟨rest, more, same⟩ := bind_eq_ok.mp made
              obtain ⟨⟨_, _⟩, rfl, same⟩ := Option.map_eq_some_iff.mp (Except.ok.inj same)
              cases same
              simp only [marshalHeaders, written]
              exact allWritten_append (writes.append _) ((skip args more).shift bytes rfl)

/-- **A call writes its lengths.** -/
theorem call_writes {object : IWireObject} {id : UInt32} {seq : Option UInt32} {method : SMethod}
    {args : List Arg} {msg : CGenericProtocolMessage}
    (made : callMessage object id seq method args = .ok (some msg)) :
    AllWritten msg.data (callHeaders object.id id seq method args) := by
  obtain ⟨result, marshalled, made⟩ := bind_eq_ok.mp made
  cases result with
  | none => cases made
  | some pair =>
      cases made
      have headers := ((marshal_writes marshalled).append [EMessageMagic.endMark.code]).shift
        (callHeader object.id id ++ callSeq seq) rfl
      simp only [CGenericProtocolMessage.ofData, callData, List.append_assoc] at headers ⊢
      exact headers

/-- The lengths of a message that is a string or an array between two other parts. -/
theorem contentHeaders_within (content : Content) (before after : List UInt8) {n : Nat}
    (length : before.length = n) :
    AllWritten (before ++ (encodeVarInt content.count ++ content.data ++ after))
      ((contentHeaders content).map (LengthHeader.shift n)) :=
  ((contentHeaders_written content).append after).shift before length

/-! ## The bound -/

/-- A message together with the lengths its sender writes into it. -/
inductive Sends : List UInt8 → List LengthHeader → Prop
  | call (object : IWireObject) (id : UInt32) (seq : Option UInt32) (method : SMethod)
      (args : List Arg) (msg : CGenericProtocolMessage)
      (made : callMessage object id seq method args = .ok (some msg)) :
      Sends msg.data (callHeaders object.id id seq method args)
  | handshakeBegin (versions : List UInt32) :
      Sends (CHandshakeBeginMessage.encode versions) (beginHeaders versions)
  | handshakeProtocols (protocols : List Str) :
      Sends (CHandshakeProtocolsMessage.encode protocols) (protocolsHeaders protocols)
  | bindProtocol (protocol : Str) (seq version : UInt32) :
      Sends (CBindProtocolMessage.encode protocol seq version) (bindHeaders protocol)
  | fatalProtocolError (objectId : Option UInt32) (errorId : UInt32) (msg : Str) :
      Sends (CFatalErrorMessage.encode objectId errorId msg) (fatalHeaders msg)

theorem Sends.allWritten {data : List UInt8} {headers : List LengthHeader}
    (sends : Sends data headers) : AllWritten data headers := by
  cases sends with
  | call object id seq method args msg made => exact call_writes made
  | handshakeBegin versions =>
      have written := contentHeaders_within (.words versions)
        [EMessageType.handshakeBegin.code, EMessageMagic.typeArray.code,
          EMessageMagic.typeUint.code] [EMessageMagic.endMark.code] rfl
      simp only [CHandshakeBeginMessage.encode, List.append_assoc] at written ⊢
      exact written
  | handshakeProtocols protocols =>
      have written := contentHeaders_within (.strings protocols)
        [EMessageType.handshakeProtocols.code, EMessageMagic.typeArray.code,
          EMessageMagic.typeVarchar.code] [EMessageMagic.endMark.code] rfl
      simp only [CHandshakeProtocolsMessage.encode, List.append_assoc] at written ⊢
      exact written
  | bindProtocol protocol seq version =>
      have written := contentHeaders_within (.bytes protocol)
        ([EMessageType.bindProtocol.code, EMessageMagic.typeUint.code] ++ u32Bytes seq ++
          [EMessageMagic.typeVarchar.code])
        ([EMessageMagic.typeUint.code] ++ u32Bytes version ++ [EMessageMagic.endMark.code]) rfl
      simp only [CBindProtocolMessage.encode, List.append_assoc] at written ⊢
      exact written
  | fatalProtocolError objectId errorId msg =>
      have written := contentHeaders_within (.bytes msg)
        ([EMessageType.fatalProtocolError.code, EMessageMagic.typeUint.code] ++
          u32Bytes (objectId.getD 0) ++ [EMessageMagic.typeUint.code] ++ u32Bytes errorId ++
          [EMessageMagic.typeVarchar.code]) [EMessageMagic.endMark.code] rfl
      simp only [CFatalErrorMessage.encode, List.append_assoc] at written ⊢
      exact written

/-- **Which lengths are not truncated.** A number survives the round trip exactly when it is
below `2 ^ 28`, and a length in a message is the number of bytes or elements behind it
exactly when there are fewer than that. -/
theorem lengths_kept_iff (n : Nat) {data : List UInt8} {headers : List LengthHeader}
    (sends : Sends data headers) (small : data.length < 2 ^ 63) {header : LengthHeader}
    (listed : header ∈ headers) :
    (RoundTrips n ↔ n < 2 ^ 28) ∧ (header.Kept data ↔ header.content.count < 2 ^ 28) :=
  ⟨roundTrips_iff_lt, (sends.allWritten header listed).kept_iff small⟩

theorem lengths_kept_handshakeBegin :
    RoundTrips (2 ^ 28 - 1) ∧
      (⟨3, .words [1]⟩ : LengthHeader).Kept (CHandshakeBeginMessage.encode [1]) := by
  obtain ⟨number, kept⟩ := lengths_kept_iff (2 ^ 28 - 1) (.handshakeBegin [1]) (by decide)
    (List.mem_singleton.mpr rfl)
  exact ⟨number.mpr (by decide), kept.mpr (by decide)⟩

/-- The fifth group is not written. -/
theorem not_roundTrips : ¬ ∀ n < 2 ^ 64, RoundTrips n := by
  intro all
  have read := (all (2 ^ 28) (by decide)).reads []
  rw [parseVarIntOf_encodeVarInt] at read
  exact absurd (congrArg Prod.fst (Except.ok.inj read)) (by decide)

end Hyprwire.Object
