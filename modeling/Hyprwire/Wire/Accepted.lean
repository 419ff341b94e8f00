import Hyprwire.Wire.Canonical
import Hyprwire.Wire.Progress

/-!
# Accepted generic messages

The converse of `decode_tokens`: a generic message that the decoder accepts is made of
tokens. The decoder copies neither the strings nor the arrays it goes past, and follows
their lengths as they are given, so this is so only when no length prefix that it reads is
negative (`Unsigned`). `exists_token` finds the token at an index from the `Element` that
the decoder has gone past, `tokens_of_reaches` those of a walk, and `accepted_madeOf` those
of a message.
-/

set_option autoImplicit false

namespace Hyprwire.Wire

open Cpp Base128

/-! ## Bytes as data -/

/-- Every index of the view has a byte. -/
def Filled (data : View) : Prop := ∀ i < data.size, ∃ byte, data.read i = some byte

theorem filled_viewIn (v : ByteVec) (outside : Nat → Option UInt8) : Filled (v.viewIn outside) := by
  intro i inside
  have within : i < v.data.length := inside
  exact ⟨v.data[i], (if_pos within).trans (List.getElem?_eq_getElem within)⟩

section Bytes

variable {data : View}

/-- What lies between two indices of a view. -/
theorem exists_holds (filled : Filled data) (small : data.size < 2 ^ 63) {start n : Nat}
    (inside : start + n ≤ data.size) : ∃ bytes, bytes.length = n ∧ data.Holds start bytes := by
  induction n generalizing start with
  | zero => exact ⟨[], rfl, View.holds_nil _ _⟩
  | succ n ih =>
      obtain ⟨byte, here⟩ := filled start (by omega)
      obtain ⟨bytes, rfl, behind⟩ := @ih (start + 1) (by omega)
      refine ⟨byte :: bytes, rfl, View.holds_cons.mpr ⟨?_, behind⟩⟩
      rwa [wrap_of_lt (by omega)]

/-- Four times as many bytes are the bytes of so many words. -/
theorem exists_words {n : Nat} {bytes : List UInt8} (length : bytes.length = 4 * n) :
    ∃ elements : List UInt32, elements.length = n ∧ elements.flatMap u32Bytes = bytes := by
  induction n generalizing bytes with
  | zero => exact ⟨[], rfl, (List.length_eq_zero_iff.mp length).symm⟩
  | succ n ih =>
      have four : (bytes.take 4).length = 4 := by
        rw [List.length_take]
        omega
      obtain ⟨b₀, b₁, b₂, b₃, first⟩ := List.length_eq_four.mp four
      obtain ⟨elements, rfl, rest⟩ := @ih (bytes.drop 4) (by rw [List.length_drop]; omega)
      refine ⟨u32OfBytes b₀ b₁ b₂ b₃ :: elements, rfl, ?_⟩
      rw [List.flatMap_cons, u32Bytes_u32OfBytes, rest, ← first, List.take_append_drop]

/-- A prefix that ends before its span does is a length, if it is not negative. -/
def Length.ofPrefix {start len : Nat} {bytes : List UInt8} (lies : PrefixAt data start len bytes)
    (ends : bytes.length < len) (nonneg : 0 ≤ signedLength bytes) : Length where
  bytes := bytes
  numeral := lies.header.numeral_or_length.resolve_right (Nat.not_le_of_lt ends)
  short := lies.short
  nonneg := nonneg

end Bytes

namespace CGenericProtocolMessage

/-! ## The prefixes of a message -/

/-- A length prefix that is read in the element at an index: that of a string, of an array,
or of a string of an array. -/
inductive ReadPrefix (data : View) (offset i : Nat) : List UInt8 → Prop
  | varchar {bytes : List UInt8}
      (tag : data.checkedAt (wrap (offset + i)) = .ok EMessageMagic.typeVarchar.code)
      (lies : PrefixAt data (offset + i + 1) (wrapSub data.size (offset + i + 1)) bytes) :
      ReadPrefix data offset i bytes
  | array {arrType : UInt8} {bytes : List UInt8}
      (tag : data.checkedAt (wrap (offset + i)) = .ok EMessageMagic.typeArray.code)
      (kind : data.checkedAt (wrap (offset + i + 1)) = .ok arrType)
      (lies : PrefixAt data (offset + i + 2) (wrapSub data.size i) bytes) :
      ReadPrefix data offset i bytes
  | string {bytes bytes' : List UInt8} {prefixes : List (List UInt8)}
      (tag : data.checkedAt (wrap (offset + i)) = .ok EMessageMagic.typeArray.code)
      (kind : data.checkedAt (wrap (offset + i + 1)) = .ok EMessageMagic.typeVarchar.code)
      (lies : PrefixAt data (offset + i + 2) (wrapSub data.size i) bytes)
      (count : prefixes.length = prefixLength bytes)
      (strings : Prefixes data (offset + i) (wrapSub data.size i) (2 + bytes.length) prefixes)
      (member : bytes' ∈ prefixes) : ReadPrefix data offset i bytes'

/-- No length prefix that the walk over a message reads is negative as an `int`. -/
def Unsigned (data : View) (offset : Nat) (fds : List Fd) : Prop :=
  ∀ s bytes, Reaches (elementTurn data offset) (firstElement fds) s →
    ReadPrefix data offset s.i bytes → 0 ≤ signedLength bytes

section Strings

variable {prefixes : List (List UInt8)}

theorem stringsSize_nonneg (nonneg : ∀ bytes ∈ prefixes, 0 ≤ signedLength bytes) :
    0 ≤ stringsSize prefixes := by
  induction prefixes with
  | nil => exact Int.le_refl 0
  | cons bytes rest ih =>
      obtain ⟨first, others⟩ := List.forall_mem_cons.mp nonneg
      have more := ih others
      rw [stringsSize]
      omega

theorem stringsSize_le {data : View} {base size start : Nat}
    (follow : Prefixes data base size start prefixes) :
    stringsSize prefixes ≤ prefixes.length * (2 ^ 31 + 4) := by
  induction prefixes generalizing start with
  | nil => exact Int.le_refl 0
  | cons bytes rest ih =>
      have short := follow.1.short
      have bounds := signedLength_bounds short
      have more := ih follow.2
      rw [stringsSize, List.length_cons]
      push_cast
      omega

/-- Strings whose prefixes were read are strings that lie in the data, when they end
inside. -/
theorem strings_of_prefixes {data : View} (filled : Filled data) (small : data.size < 2 ^ 63)
    {base size start : Nat} (follow : Prefixes data base size start prefixes)
    (nonneg : ∀ bytes ∈ prefixes, 0 ≤ signedLength bytes) (narrow : size < 2 ^ 64)
    (wide : data.size ≤ base + size) (ends : base + start + stringsSize prefixes < data.size) :
    ∃ elements : List WireString, elements.map (fun s => s.length.bytes) = prefixes ∧
      data.Holds (base + start) (elements.flatMap WireString.bytes) := by
  induction prefixes generalizing start with
  | nil => exact ⟨[], rfl, View.holds_nil _ _⟩
  | cons bytes rest ih =>
      obtain ⟨lies, follow⟩ := follow
      obtain ⟨first, others⟩ := List.forall_mem_cons.mp nonneg
      have more := stringsSize_nonneg others
      rw [stringsSize] at ends
      have room : bytes.length < wrapSub size start := by
        rw [wrapSub_of_le (by omega) narrow]
        omega
      let length : Length := .ofPrefix lies room first
      have value : (length.value : ℤ) = signedLength bytes := length.value_cast
      obtain ⟨string, fits, held⟩ := @exists_holds _ filled small
        (base + start + bytes.length) length.value (by omega)
      have next : advance start (signedLength bytes + bytes.length) =
          start + (bytes.length + length.value) := by
        rw [← value, ← Nat.cast_add, advance_natCast, wrap_of_lt (by omega),
          Nat.add_comm length.value]
      rw [next] at follow
      obtain ⟨elements, rfl, behind⟩ := ih follow others (by push_cast; omega)
      refine ⟨⟨length, string, fits⟩ :: elements, rfl, ?_⟩
      rw [List.flatMap_cons, WireString.bytes, List.append_assoc]
      refine View.holds_append.mpr ⟨lies.holds, View.holds_append.mpr ⟨held, ?_⟩⟩
      show data.Holds (base + start + bytes.length + string.length) _
      rwa [fits, Nat.add_assoc, Nat.add_assoc]

end Strings

/-! ## The tokens of a message -/

section Tokens

variable {data : View} {offset i : Nat}

/-- An element without a negative prefix ends further on, and not too far. -/
theorem Element.size_bounds {size : ℤ} {count : Nat} (element : Element data offset i size count)
    (nonneg : ∀ bytes, ReadPrefix data offset i bytes → 0 ≤ signedLength bytes) :
    0 ≤ size ∧ size < 2 ^ 63 := by
  cases element with
  | word primitive tag => decide
  | fd tag => decide
  | @varchar bytes tag lies =>
      have first := nonneg bytes (.varchar tag lies)
      have short := lies.short
      have bounds := signedLength_bounds short
      omega
  | @words magic bytes primitive tag kind lies =>
      have first := nonneg bytes (.array tag kind lies)
      have short := lies.short
      have bounds := signedLength_bounds short
      omega
  | @fds bytes tag kind lies =>
      have short := lies.short
      omega
  | @varchars bytes prefixes tag kind lies counted strings =>
      have first := nonneg bytes (.array tag kind lies)
      have short := lies.short
      have value := prefixLength_of_nonneg short first
      have bounds := signedLength_bounds short
      have low := stringsSize_nonneg
        fun bytes' member => nonneg bytes' (.string tag kind lies counted strings member)
      have high := stringsSize_le strings
      omega

/-- **The token at an index** is the element that the decoder has gone past. -/
theorem exists_token (filled : Filled data) (small : data.size < 2 ^ 63) {size : ℤ} {count : Nat}
    (element : Element data offset i size count)
    (nonneg : ∀ bytes, ReadPrefix data offset i bytes → 0 ≤ signedLength bytes)
    (start : offset + i < data.size) (ends : offset + i + size < data.size) {queue : List Fd}
    (enough : count ≤ queue.length) :
    ∃ token : Token, data.Holds (offset + i) token.bytes ∧ (token.bytes.length : ℤ) = size ∧
      token.descriptors = queue.take count := by
  have here : ∀ {byte : UInt8}, data.checkedAt (wrap (offset + i)) = .ok byte →
      data.Holds (offset + i) [byte] := by
    intro byte tag
    rw [wrap_of_lt (by omega)] at tag
    exact holds_of_checkedAt small tag
  have both : ∀ {byte kindByte : UInt8} {rest : List UInt8},
      data.checkedAt (wrap (offset + i)) = .ok byte →
      data.checkedAt (wrap (offset + i + 1)) = .ok kindByte → data.Holds (offset + i + 2) rest →
      data.Holds (offset + i) (byte :: kindByte :: rest) := by
    intro byte kindByte rest tag kind payload
    rw [wrap_of_lt (by omega)] at kind
    refine (@View.holds_append data _ [byte] (kindByte :: rest)).mpr ⟨here tag, ?_⟩
    exact (@View.holds_append data _ [kindByte] rest).mpr ⟨holds_of_checkedAt small kind, payload⟩
  have left : wrapSub data.size i = data.size - i := wrapSub_of_le (by omega) (by omega)
  cases element with
  | @word magic primitive tag =>
      obtain ⟨bytes, length, held⟩ := @exists_holds data filled small (offset + i + 1) 4 (by omega)
      obtain ⟨elements, one, rfl⟩ := @exists_words 1 bytes length
      obtain ⟨bits, rfl⟩ := List.length_eq_one_iff.mp one
      rw [List.flatMap_singleton] at held
      refine ⟨.word ⟨magic, primitive⟩ bits, ?_, rfl, rfl⟩
      exact (@View.holds_append data _ [magic.code] _).mpr ⟨here tag, held⟩
  | fd tag =>
      obtain ⟨fd, rest, rfl⟩ := List.exists_cons_of_length_pos enough
      exact ⟨.fd fd, here tag, rfl, rfl⟩
  | @varchar bytes tag lies =>
      have first := nonneg bytes (.varchar tag lies)
      have room : bytes.length < wrapSub data.size (offset + i + 1) := by
        rw [wrapSub_of_le (by omega) (by omega)]
        omega
      let length : Length := .ofPrefix lies room first
      have value : (length.value : ℤ) = signedLength bytes := length.value_cast
      obtain ⟨string, fits, held⟩ := @exists_holds _ filled small
        (offset + i + 1 + bytes.length) length.value (by omega)
      refine ⟨.varchar ⟨length, string, fits⟩, ?_, Token.length_varchar _, rfl⟩
      refine (@View.holds_append data _ [EMessageMagic.typeVarchar.code] _).mpr ⟨here tag, ?_⟩
      exact View.holds_append.mpr ⟨lies.holds, held⟩
  | @words magic bytes primitive tag kind lies =>
      have first := nonneg bytes (.array tag kind lies)
      have room : bytes.length < wrapSub data.size i := by omega
      let length : Length := .ofPrefix lies room first
      have value : (length.value : ℤ) = signedLength bytes := length.value_cast
      obtain ⟨block, four, held⟩ := @exists_holds _ filled small
        (offset + i + 2 + bytes.length) (4 * length.value) (by omega)
      obtain ⟨elements, counted, rfl⟩ := exists_words four
      have lain := both tag kind (View.holds_append.mpr ⟨lies.holds, held⟩)
      exact ⟨.words ⟨magic, primitive⟩ length elements counted, lain,
        Token.length_words _ _ _ counted, rfl⟩
  | @fds bytes tag kind lies =>
      have first := nonneg bytes (.array tag kind lies)
      have room : bytes.length < wrapSub data.size i := by omega
      let length : Length := .ofPrefix lies room first
      have counted : (queue.take (prefixLength bytes)).length = length.value := by
        rw [List.length_take]
        exact Nat.min_eq_left enough
      exact ⟨.fds length _ counted, both tag kind lies.holds, Token.length_fds _ _ counted, rfl⟩
  | @varchars bytes prefixes tag kind lies counted strings =>
      have first := nonneg bytes (.array tag kind lies)
      have others : ∀ bytes' ∈ prefixes, 0 ≤ signedLength bytes' :=
        fun bytes' member => nonneg bytes' (.string tag kind lies counted strings member)
      have more := stringsSize_nonneg others
      have room : bytes.length < wrapSub data.size i := by omega
      let length : Length := .ofPrefix lies room first
      obtain ⟨elements, rfl, held⟩ := strings_of_prefixes filled small strings others (by omega)
        (by omega) (by push_cast; omega)
      rw [List.length_map] at counted
      rw [← Nat.add_assoc] at held
      have lain := both tag kind (View.holds_append.mpr ⟨lies.holds, held⟩)
      exact ⟨.varchars length elements counted, lain, Token.length_varchars _ _ counted, rfl⟩

/-- The place of an element that is looked at. -/
theorem Element.start_lt {size : ℤ} {count : Nat} (element : Element data offset i size count)
    (fits : offset + i < 2 ^ 64) : offset + i < data.size := by
  rw [← wrap_of_lt fits]
  cases element with
  | word _ tag => exact lt_of_checkedAt tag
  | fd tag => exact lt_of_checkedAt tag
  | varchar tag _ => exact lt_of_checkedAt tag
  | words _ tag _ _ => exact lt_of_checkedAt tag
  | varchars tag _ _ _ _ => exact lt_of_checkedAt tag
  | fds tag _ _ => exact lt_of_checkedAt tag

/-- **The tokens of a walk** lie between its first element and the `END` it comes to. -/
theorem tokens_of_reaches (filled : Filled data) (small : data.size < 2 ^ 63)
    {s last : ElementState} (reaches : Reaches (elementTurn data offset) s last)
    (nonneg : ∀ t bytes, Reaches (elementTurn data offset) s t →
      ReadPrefix data offset t.i bytes → 0 ≤ signedLength bytes)
    (mark : data.checkedAt (wrap (offset + last.i)) = .ok EMessageMagic.endMark.code)
    (fits : offset + s.i < 2 ^ 64) :
    ∃ tokens : List Token, data.Holds (offset + s.i)
        (tokens.flatMap Token.bytes ++ [EMessageMagic.endMark.code]) ∧
      last.i = s.i + (tokens.flatMap Token.bytes).length ∧ offset + last.i < data.size ∧
      s.fds = tokens.flatMap Token.descriptors ++ last.fds ∧
      last.taken = s.taken ++ tokens.flatMap Token.descriptors := by
  induction reaches using Relation.ReflTransGen.head_induction_on with
  | refl =>
      rw [wrap_of_lt fits] at mark
      exact ⟨[], holds_of_checkedAt small mark, rfl, lt_of_checkedAt mark, rfl,
        (List.append_nil _).symm⟩
  | @head s s' next _ ih =>
      obtain ⟨size, count, element, enough, rfl⟩ := elementStep_eq_again.mp (next_iff.mp next)
      have first := fun bytes => nonneg s bytes .refl
      have start := element.start_lt fits
      obtain ⟨positive, short⟩ := element.size_bounds first
      have behind : ((s.past size count).i : ℤ) = s.i + size := by
        show (advance s.i size : ℤ) = _
        rw [advance_cast]
        exact Int.emod_eq_of_lt (by omega) (by omega)
      obtain ⟨tokens, held, end_, inside, queue, taken⟩ :=
        ih (fun t bytes reached => nonneg t bytes (.head next reached)) (by omega)
      obtain ⟨token, here, length, descriptors⟩ :=
        exists_token filled small element first start (by omega) enough
      have place : (s.past size count).i = s.i + token.bytes.length := by omega
      rw [place] at held end_
      refine ⟨token :: tokens, ?_, ?_, inside, ?_, ?_⟩
      · rw [List.flatMap_cons, List.append_assoc]
        refine View.holds_append.mpr ⟨here, ?_⟩
        rwa [Nat.add_assoc]
      · rw [List.flatMap_cons, List.length_append, end_, Nat.add_assoc]
      · have dropped : s.fds.drop count = tokens.flatMap Token.descriptors ++ last.fds := queue
        rw [List.flatMap_cons, List.append_assoc, descriptors, ← dropped, List.take_append_drop]
      · have took : last.taken = s.taken ++ s.fds.take count ++ tokens.flatMap Token.descriptors :=
          taken
        rw [List.flatMap_cons, took, descriptors, List.append_assoc]

/-- A message whose data span has some tokens and an `END`, and that has their
descriptors. -/
structure MadeOf (msg : CGenericProtocolMessage) (tokens : List Token) : Prop where
  payload : msg.dataSpan.Holds 0 (tokens.flatMap Token.bytes ++ [EMessageMagic.endMark.code])
  size : msg.dataSpan.size = (tokens.flatMap Token.bytes).length + 1
  small : msg.dataSpan.size < 2 ^ 63
  fds : msg.fds = tokens.flatMap Token.descriptors

/-- The elements leave room for the `END`. -/
theorem MadeOf.inside {msg : CGenericProtocolMessage} {tokens : List Token}
    (madeOf : MadeOf msg tokens) : (tokens.flatMap Token.bytes).length < msg.dataSpan.size := by
  rw [madeOf.size]
  exact Nat.lt_succ_self _

/-- **An accepted message is made of tokens**, when no length prefix is negative, and lies in
the buffer. -/
theorem accepted_madeOf (filled : Filled data) (small : data.size < 2 ^ 63)
    {fds rest : List Fd} {msg : CGenericProtocolMessage}
    (accepted : decode data fds offset = some (.ok (msg, rest))) (length : msg.len ≠ 0)
    (nonneg : Unsigned data offset fds) :
    ∃ tokens, MadeOf msg tokens ∧ fds = tokens.flatMap Token.descriptors ++ rest ∧
      offset + 11 + msg.dataSpan.size ≤ data.size := by
  obtain ⟨object, method, last, header, reaches, mark, -, message⟩ :=
    decode_accepts.mp ⟨accepted, length⟩
  cases message
  have first : offset < data.size := lt_of_checkedAt (tag_of_decodeHeader header)
  obtain ⟨tokens, held, end_, inside, queue, taken⟩ :=
    tokens_of_reaches filled small reaches nonneg mark (show offset + 11 < 2 ^ 64 by omega)
  replace end_ : last.i = 11 + (tokens.flatMap Token.bytes).length := end_
  have span : wrapSub (wrap (last.i + 1)) 11 = (tokens.flatMap Token.bytes).length + 1 := by
    rw [wrap_of_lt (by omega), wrapSub_of_le (by omega) (by omega)]
    omega
  refine ⟨tokens, ⟨View.holds_span.mpr held, span, ?_, taken⟩, queue, ?_⟩
  · show wrapSub (wrap (last.i + 1)) 11 < 2 ^ 63
    rw [span]
    omega
  · show offset + 11 + wrapSub (wrap (last.i + 1)) 11 ≤ data.size
    rw [span]
    omega

end Tokens

end CGenericProtocolMessage

end Hyprwire.Wire
