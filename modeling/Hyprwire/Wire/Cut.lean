import Hyprwire.Cpp.Below
import Hyprwire.Wire.Accepted
import Hyprwire.Wire.Framing

/-!
# Messages that are cut off

A read can end in the middle of a message. The bytes that have come are then a vector at the
front of the one with the whole message. What a control decoder accepts of the front it accepts
of the whole as well (`Decoded.length_eq`), since a length prefix that is cut off is looked
behind; and the walk over the elements of a generic message goes past the whole elements, or
beyond the end of the bytes (`Element.size_or_beyond`). So a message that is cut off is never
accepted (`not_accepted_cut`).
-/

set_option autoImplicit false

namespace Hyprwire.Wire

open Cpp Base128

/-! ## Control messages -/

section Control

variable {u v : View} {heap : Heap} {offset : Nat}

/-- A prefix with something behind it is read of the longer view as well. -/
theorem parseVarIntAt_front (front : u.Front v) (small : v.size < 2 ^ 63) {i : Nat}
    {bytes : List UInt8} (lies : PrefixAt u i (wrapSub u.size i) bytes)
    (ends : i + bytes.length < u.size) :
    parseVarIntAt v i = .ok (prefixLength bytes, bytes.length) := by
  have le := front.size
  have room : wrapSub u.size i = u.size - i := wrapSub_of_le (by omega) (by omega)
  have more : wrapSub v.size i = v.size - i := wrapSub_of_le (by omega) (by omega)
  have header := lies.header
  rw [room] at header
  have numeral := header.numeral_or_length.resolve_right (by omega)
  have longer : PrefixAt v i (wrapSub v.size i) bytes :=
    ⟨front.holds lies.holds, .of_numeral numeral (by omega), lies.short⟩
  exact longer.parseVarInt

theorem CHelloMessage.decode_front (front : u.Front v) :
    Accepts (fun msg => msg.len ≠ 0 → decode v offset = .ok msg) (decode u offset) := by
  refine accepts_catch (absurd rfl) (accepts_bind fun byte first => ?_)
  refine accepts_bind fun block read => ?_
  refine accepts_ite (fun _ => accepts_pure (absurd rfl)) fun same => accepts_pure fun _ => ?_
  simp only [decode, front.checkedAt first, front.rawBlock read, if_neg same, ok_bind, pure_eq_ok,
    catchOutOfRange_ok]

theorem CBindProtocolMessage.decode_front (front : u.Front v) (small : v.size < 2 ^ 63) :
    Accepts (fun msg => msg.len ≠ 0 → decode heap v offset = .ok msg) (decode heap u offset) := by
  have le := front.size
  refine accepts_catch (absurd rfl) ?_
  refine accepts_expect (absurd rfl) fun first => ?_
  refine accepts_expect (absurd rfl) fun second => ?_
  refine accepts_bind fun seq seqRead => ?_
  refine accepts_expect (absurd rfl) fun third => ?_
  refine accepts_bind fun ⟨strLen, varIntLen⟩ counted => ?_
  obtain ⟨bytes, lies, rfl, rfl⟩ := parseVarInt_eq_ok.mp counted
  refine accepts_bind fun _ starts => accepts_bind fun protocol copied => ?_
  refine accepts_expect (absurd rfl) fun fourth => ?_
  refine accepts_bind fun version versionRead => ?_
  refine accepts_ite (fun _ => accepts_pure (absurd rfl)) fun nonzero => ?_
  refine accepts_expect (absurd rfl) fun last => accepts_pure fun _ => ?_
  have short := lies.short
  have inside := lt_of_checkedAt first
  have behind := lt_of_checkedAt starts
  rw [wrap_of_lt (by omega)] at behind
  have length := parseVarIntAt_front front small lies (by omega)
  simp only [decode, front.checkedAt first, front.checkedAt second, front.u32At seqRead,
    front.checkedAt third, length, front.checkedAt starts, front.copyString copied,
    front.checkedAt fourth, front.u32At versionRead, if_neg nonzero, front.checkedAt last, ok_bind,
    ne_eq, not_true_eq_false, if_false, pure_eq_ok, catchOutOfRange_ok]

theorem CHandshakeBeginMessage.readVersions_front (front : u.Front v) {n index : Nat}
    {versions : List UInt32} (read : readVersions u n index = .ok versions) :
    readVersions v n index = .ok versions := by
  induction n generalizing index versions with
  | zero => exact read
  | succ n ih =>
      obtain ⟨version, first, more⟩ := bind_eq_ok.mp read
      obtain ⟨rest, others, same⟩ := bind_eq_ok.mp more
      rw [readVersions, front.u32At first, ok_bind, ih others]
      exact same

theorem CHandshakeBeginMessage.decode_front (front : u.Front v) (small : v.size < 2 ^ 63) :
    Accepts (fun msg => msg.len ≠ 0 → decode heap v offset = .ok msg) (decode heap u offset) := by
  have le := front.size
  refine accepts_catch (absurd rfl) ?_
  refine accepts_expect (absurd rfl) fun first => ?_
  refine accepts_expect (absurd rfl) fun second => ?_
  refine accepts_expect (absurd rfl) fun third => ?_
  refine accepts_bind fun ⟨nVers, varIntLen⟩ counted => ?_
  obtain ⟨bytes, lies, rfl, rfl⟩ := parseVarInt_eq_ok.mp counted
  refine accepts_bind fun _ resized => accepts_bind fun versions read => ?_
  refine accepts_expect (absurd rfl) fun last => accepts_pure fun _ => ?_
  have count := lt_of_resize lies.short resized
  have short := lies.short
  have inside := lt_of_checkedAt first
  have behind := lt_of_checkedAt last
  rw [wrap_of_lt (show 3 + bytes.length + prefixLength bytes * 4 < 2 ^ 64 by omega),
    wrap_of_lt (by omega)] at behind
  have length := parseVarIntAt_front front small lies (by omega)
  simp only [decode, front.checkedAt first, front.checkedAt second, front.checkedAt third, length,
    resized, readVersions_front front read, front.checkedAt last, ok_bind, ne_eq,
    not_true_eq_false, if_false, pure_eq_ok, catchOutOfRange_ok]

/-- Every string starts inside the shorter view, so that none of the lengths is cut off. -/
theorem CHandshakeProtocolsMessage.readProtocols_front (front : u.Front v)
    (small : v.size < 2 ^ 63) {n needle : Nat} (short : offset + needle < 2 ^ 63 + 2 ^ 62) :
    Accepts (fun read => readProtocols heap v offset n needle = .ok read ∧ needle ≤ read.2)
      (readProtocols heap u offset n needle) := by
  have le := front.size
  induction n generalizing needle with
  | zero => exact accepts_pure ⟨rfl, le_rfl⟩
  | succ n ih =>
      refine accepts_bind fun ⟨strLen, strLenLen⟩ counted => ?_
      obtain ⟨bytes, lies, rfl, rfl⟩ := parseVarInt_eq_ok.mp counted
      refine accepts_bind fun byte starts => accepts_bind fun protocol copied => ?_
      refine accepts_bind fun ⟨rest, needle'⟩ read => accepts_pure ?_
      have value := lt_of_copyString lies.short copied
      have header := lies.short
      have behind := lt_of_checkedAt starts
      rw [wrap_of_lt (by omega)] at behind
      have place : wrap (offset + needle) = offset + needle := wrap_of_lt (by omega)
      rw [place] at lies
      have next : wrap (needle + prefixLength bytes + bytes.length) =
          needle + prefixLength bytes + bytes.length := wrap_of_lt (by omega)
      have length := parseVarIntAt_front front small lies behind
      obtain ⟨others, further⟩ := ih (by rw [next]; omega) _ read
      rw [next] at further
      refine ⟨?_, by omega⟩
      simp only [readProtocols, place, length, front.checkedAt starts, front.copyString copied,
        others, ok_bind, pure_eq_ok]

theorem CHandshakeProtocolsMessage.decode_front (front : u.Front v) (small : v.size < 2 ^ 63) :
    Accepts (fun msg => msg.len ≠ 0 → decode heap v offset = .ok msg) (decode heap u offset) := by
  have le := front.size
  refine accepts_catch (absurd rfl) ?_
  refine accepts_expect (absurd rfl) fun first => ?_
  refine accepts_expect (absurd rfl) fun second => ?_
  refine accepts_expect (absurd rfl) fun third => ?_
  refine accepts_bind fun ⟨els, varIntLen⟩ counted => ?_
  obtain ⟨bytes, lies, rfl, rfl⟩ := parseVarInt_eq_ok.mp counted
  refine accepts_bind fun _ resized => accepts_bind fun ⟨protocols, needle⟩ read => ?_
  refine accepts_expect (absurd rfl) fun last => accepts_pure fun _ => ?_
  have short := lies.short
  have inside := lt_of_checkedAt first
  have bound := readProtocols_needle (by omega) (by omega) _ read
  obtain ⟨strings, further⟩ := readProtocols_front front small (by omega) _ read
  have behind := lt_of_checkedAt last
  rw [wrap_of_lt (by omega)] at behind
  have length := parseVarIntAt_front front small lies (by omega)
  simp only [decode, front.checkedAt first, front.checkedAt second, front.checkedAt third, length,
    resized, strings, front.checkedAt last, ok_bind, ne_eq, not_true_eq_false, if_false, pure_eq_ok,
    catchOutOfRange_ok]

end Control

/-! ## Elements -/

/-- The magic an element starts with. -/
def Token.magic : Token → EMessageMagic
  | word magic _ => magic.val
  | varchar _ => .typeVarchar
  | words _ _ _ _ | varchars _ _ _ | fds _ _ _ => .typeArray
  | fd _ => .typeFd

theorem Token.head_bytes (token : Token) : ∃ rest, token.bytes = token.magic.code :: rest := by
  cases token <;> exact ⟨_, rfl⟩

theorem WordMagic.ne (magic : WordMagic) {other : EMessageMagic} (unlike : other.IsWord = false) :
    magic.val ≠ other := by
  rintro rfl
  exact Bool.false_ne_true (unlike.symm.trans magic.property)

theorem Token.magic_ne_endMark (token : Token) : token.magic ≠ .endMark := by
  intro same
  cases token with
  | word magic bits => exact absurd same (magic.ne rfl)
  | _ => cases same

namespace Token

/-- The magic of the elements of an array. -/
def kind : Token → Option EMessageMagic
  | words magic _ _ _ => some magic.val
  | varchars _ _ _ => some .typeVarchar
  | fds _ _ _ => some .typeFd
  | _ => none

variable {token : Token}

theorem array_bytes (array : token.magic = .typeArray) :
    ∃ magic rest, token.kind = some magic ∧
      token.bytes = EMessageMagic.typeArray.code :: magic.code :: rest := by
  cases token with
  | word magic bits => exact absurd array (WordMagic.ne magic rfl)
  | varchar string => cases array
  | fd number => cases array
  | _ => exact ⟨_, _, rfl, rfl⟩

theorem length_of_isWord (primitive : token.magic.IsWord = true) : token.bytes.length = 5 := by
  cases token with
  | word magic bits => rfl
  | _ => cases primitive

theorem eq_fd (same : token.magic = .typeFd) : ∃ number, token = fd number := by
  cases token with
  | word magic bits => exact absurd same (WordMagic.ne magic rfl)
  | fd number => exact ⟨number, rfl⟩
  | _ => cases same

theorem eq_varchar (same : token.magic = .typeVarchar) : ∃ string, token = varchar string := by
  cases token with
  | word magic bits => exact absurd same (WordMagic.ne magic rfl)
  | varchar string => exact ⟨string, rfl⟩
  | _ => cases same

theorem eq_words {magic : EMessageMagic} (same : token.kind = some magic)
    (primitive : magic.IsWord = true) :
    ∃ magic length elements counted, token = words magic length elements counted := by
  cases token with
  | words magic length elements counted => exact ⟨magic, length, elements, counted, rfl⟩
  | varchars length elements counted => cases same; cases primitive
  | fds length elements counted => cases same; cases primitive
  | _ => cases same

theorem eq_varchars (same : token.kind = some .typeVarchar) :
    ∃ length elements counted, token = varchars length elements counted := by
  cases token with
  | words magic length elements counted =>
      exact absurd (Option.some.inj same) (WordMagic.ne magic rfl)
  | varchars length elements counted => exact ⟨length, elements, counted, rfl⟩
  | _ => cases same

theorem eq_fds (same : token.kind = some .typeFd) :
    ∃ length elements counted, token = fds length elements counted := by
  cases token with
  | words magic length elements counted =>
      exact absurd (Option.some.inj same) (WordMagic.ne magic rfl)
  | fds length elements counted => exact ⟨length, elements, counted, rfl⟩
  | _ => cases same

end Token

namespace CGenericProtocolMessage

section Elements

variable {u v : View} {offset i : Nat}

/-- The length that is read of the shorter view is the one of the longer view, or its
bytes are cut off. -/
theorem prefix_or_cut (front : u.Front v) {start len : Nat} {bytes : List UInt8} (length : Length)
    (small : start + 5 < 2 ^ 64) (lies : PrefixAt u start len bytes)
    (held : v.Holds start length.bytes) (wide : u.size ≤ start + len) :
    bytes = length.bytes ∨ u.size ≤ start + bytes.length ∧ 0 ≤ signedLength bytes := by
  by_cases room : length.bytes.length ≤ len
  · exact .inl (lies.header.eq_of_numeral length.numeral room (front.holds lies.holds) held)
  · have some_ := List.ne_nil_of_length_pos lies.header.length_pos
    have short := lies.short
    have inside := front.inside lies.holds some_ (by omega)
    have fifth := length.short
    refine .inr ⟨?_, ?_⟩
    · rcases lies.header.numeral_or_length with numeral | runs
      · have whole : Header length.bytes.length length.bytes := .of_numeral length.numeral le_rfl
        have same := whole.eq_of_numeral numeral (by omega) held (front.holds lies.holds)
        rw [same] at room
        omega
      · omega
    · rw [signedLength_eq (by omega)]
      exact Int.natCast_nonneg _

/-- There are no strings beyond the end of a view. -/
theorem strings_beyond (front : u.Front v) {base size start : Nat} {prefixes : List (List UInt8)}
    (follow : Prefixes u base size start prefixes) (beyond : u.size ≤ base + start)
    (small : base + start < 2 ^ 64) : prefixes = [] := by
  cases prefixes with
  | nil => rfl
  | cons bytes rest =>
      have inside := (front.read _ _ (follow.1.holds 0 follow.1.header.length_pos)).1
      rw [Nat.add_zero, wrap_of_lt small] at inside
      omega

/-- The strings that are gone past are those of the longer view, or end beyond the shorter
one. -/
theorem strings_or_cut (front : u.Front v) {base size start : Nat} {prefixes : List (List UInt8)}
    {elements : List WireString} (small : v.size < 2 ^ 63) (narrow : size < 2 ^ 63)
    (follow : Prefixes u base size start prefixes) (count : prefixes.length = elements.length)
    (held : v.Holds (base + start) (elements.flatMap WireString.bytes))
    (within : base + start + (elements.flatMap WireString.bytes).length ≤ v.size)
    (wide : u.size ≤ base + size) :
    stringsSize prefixes = (elements.flatMap WireString.bytes).length ∨
      u.size ≤ base + start + stringsSize prefixes := by
  induction prefixes generalizing start elements with
  | nil =>
      obtain rfl := List.length_eq_zero_iff.mp count.symm
      exact .inl rfl
  | cons bytes rest ih =>
      obtain ⟨element, elements, rfl⟩ := List.exists_cons_of_length_eq_add_one count.symm
      obtain ⟨lies, follow⟩ := follow
      rw [List.flatMap_cons, WireString.bytes, List.append_assoc] at held
      simp only [List.flatMap_cons, List.length_append, WireString.bytes] at within ⊢
      obtain ⟨prefixHeld, behind⟩ := View.holds_append.mp held
      have short := lies.short
      have bounds := signedLength_bounds short
      have room : u.size ≤ base + start + wrapSub size start := by
        rcases Nat.lt_or_ge size start with beyond | before
        · omega
        · rw [wrapSub_of_le before (by omega)]
          omega
      rcases prefix_or_cut front element.length (by omega) lies prefixHeld room with
        rfl | ⟨cut, nonneg⟩
      · have value := element.length.value_cast
        have fits := element.fits
        have next : advance start (signedLength element.length.bytes + element.length.bytes.length) =
            start + (element.length.bytes.length + element.string.length) := by
          rw [← value, ← fits, ← Nat.cast_add, advance_natCast, wrap_of_lt (by omega),
            Nat.add_comm element.string.length]
        rw [next] at follow
        have tail := (View.holds_append.mp behind).2
        rw [Nat.add_assoc, Nat.add_assoc] at tail
        rw [stringsSize]
        rcases ih follow (Nat.succ.inj count) tail (by omega) with same | beyond
        · left
          push_cast
          omega
        · right
          push_cast at beyond
          omega
      · obtain ⟨k, exact_⟩ := Int.eq_ofNat_of_zero_le nonneg
        have next : advance start (signedLength bytes + bytes.length) =
            start + (k + bytes.length) := by
          rw [exact_, ← Nat.cast_add, advance_natCast, wrap_of_lt (by omega)]
        rw [next] at follow
        obtain rfl := strings_beyond front follow (by omega) (by omega)
        right
        simp only [stringsSize]
        omega

section Lengths

variable (front : u.Front v) (small : v.size < 2 ^ 63)
include front small

/-- The magic that is read is that of the token which lies there. -/
theorem magic_of_checkedAt {token : Token} {magic : EMessageMagic}
    (held : v.Holds (offset + i) token.bytes)
    (within : offset + i + token.bytes.length ≤ v.size)
    (tag : u.checkedAt (wrap (offset + i)) = .ok magic.code) :
    token.magic = magic ∧ offset + i < u.size := by
  rw [wrap_of_lt (by omega)] at tag
  obtain ⟨rest, bytes⟩ := token.head_bytes
  rw [bytes] at held
  have inside := lt_of_checkedAt tag
  have read := View.checkedAt_inside held (Nat.lt_of_lt_of_le inside front.size) small
  exact ⟨EMessageMagic.code_injective (Except.ok.inj (read.symm.trans (front.checkedAt tag))),
    inside⟩

theorem kind_of_checkedAt {token : Token} {magic : EMessageMagic}
    (array : token.magic = .typeArray) (held : v.Holds (offset + i) token.bytes)
    (within : offset + i + token.bytes.length ≤ v.size)
    (tag : u.checkedAt (wrap (offset + i + 1)) = .ok magic.code) : token.kind = some magic := by
  obtain ⟨kind, rest, is, bytes⟩ := Token.array_bytes array
  rw [bytes, List.length_cons, List.length_cons] at within
  rw [wrap_of_lt (by omega)] at tag
  rw [bytes] at held
  have inside := lt_of_checkedAt tag
  have read := View.checkedAt_inside (View.holds_cons.mp held).2
    (Nat.lt_of_lt_of_le inside front.size) small
  rw [is, EMessageMagic.code_injective (Except.ok.inj (read.symm.trans (front.checkedAt tag)))]

/-- The length of a string is read, or it goes beyond the shorter view. -/
theorem varchar_or_cut {string : WireString} {bytes : List UInt8}
    (held : v.Holds (offset + i) (Token.varchar string).bytes) (inside : offset + i < u.size)
    (lies : PrefixAt u (offset + i + 1) (wrapSub u.size (offset + i + 1)) bytes) :
    1 + bytes.length + signedLength bytes = (Token.varchar string).bytes.length ∨
      u.size ≤ offset + i + (1 + bytes.length + signedLength bytes) ∧
        1 + bytes.length + signedLength bytes < 2 ^ 63 := by
  have le := front.size
  have short := lies.short
  have bounds := signedLength_bounds short
  have tail := (View.holds_append.mp (View.holds_cons.mp held).2).1
  have room : u.size ≤ offset + i + 1 + wrapSub u.size (offset + i + 1) := by
    rw [wrapSub_of_le (by omega) (by omega)]
    omega
  rcases prefix_or_cut front string.length (by omega) lies tail room with rfl | ⟨cut, nonneg⟩
  · exact .inl (Token.length_varchar string).symm
  · right
    omega

/-- The prefix of an array is that of the token, or it is cut off. -/
theorem count_or_cut {length : Length} {first second : UInt8} {bytes rest : List UInt8}
    (held : v.Holds (offset + i) (first :: second :: (length.bytes ++ rest)))
    (inside : offset + i < u.size)
    (lies : PrefixAt u (offset + i + 2) (wrapSub u.size i) bytes) :
    bytes = length.bytes ∨
      u.size ≤ offset + i + 2 + bytes.length ∧ 0 ≤ signedLength bytes := by
  have le := front.size
  have tail := (View.holds_append.mp (View.holds_cons.mp (View.holds_cons.mp held).2).2).1
  refine prefix_or_cut front length (by omega) lies tail ?_
  rw [wrapSub_of_le (by omega) (by omega)]
  omega

theorem words_or_cut {magic : WordMagic} {length : Length} {elements : List UInt32}
    {counted : elements.length = length.value} {bytes : List UInt8}
    (held : v.Holds (offset + i) (Token.words magic length elements counted).bytes)
    (inside : offset + i < u.size)
    (lies : PrefixAt u (offset + i + 2) (wrapSub u.size i) bytes) :
    2 + bytes.length + 4 * signedLength bytes =
        (Token.words magic length elements counted).bytes.length ∨
      u.size ≤ offset + i + (2 + bytes.length + 4 * signedLength bytes) ∧
        2 + bytes.length + 4 * signedLength bytes < 2 ^ 63 := by
  have short := lies.short
  have bounds := signedLength_bounds short
  rcases count_or_cut front small held inside lies with rfl | ⟨cut, nonneg⟩
  · exact .inl (Token.length_words magic length elements counted).symm
  · right
    omega

theorem fds_or_cut {length : Length} {elements : List Fd}
    {counted : elements.length = length.value} {bytes : List UInt8}
    (held : v.Holds (offset + i) (Token.fds length elements counted).bytes)
    (inside : offset + i < u.size)
    (lies : PrefixAt u (offset + i + 2) (wrapSub u.size i) bytes) :
    (2 + bytes.length : ℤ) = (Token.fds length elements counted).bytes.length ∨
      u.size ≤ offset + i + (2 + bytes.length : ℤ) ∧ (2 + bytes.length : ℤ) < 2 ^ 63 := by
  have short := lies.short
  rw [Token.bytes, ← List.append_nil length.bytes] at held
  rcases count_or_cut front small held inside lies with rfl | ⟨cut, nonneg⟩
  · exact .inl (Token.length_fds length elements counted).symm
  · right
    omega

theorem varchars_or_cut {length : Length} {elements : List WireString}
    {counted : elements.length = length.value} {bytes : List UInt8}
    {prefixes : List (List UInt8)}
    (held : v.Holds (offset + i) (Token.varchars length elements counted).bytes)
    (within : offset + i + (Token.varchars length elements counted).bytes.length ≤ v.size)
    (inside : offset + i < u.size)
    (lies : PrefixAt u (offset + i + 2) (wrapSub u.size i) bytes)
    (count : prefixes.length = prefixLength bytes)
    (strings : Prefixes u (offset + i) (wrapSub u.size i) (2 + bytes.length) prefixes) :
    2 + bytes.length + stringsSize prefixes =
        (Token.varchars length elements counted).bytes.length ∨
      u.size ≤ offset + i + (2 + bytes.length + stringsSize prefixes) ∧
        2 + bytes.length + stringsSize prefixes < 2 ^ 63 := by
  have le := front.size
  have short := lies.short
  have span : wrapSub u.size i = u.size - i := wrapSub_of_le (by omega) (by omega)
  simp only [Token.bytes, List.length_cons, List.length_append] at within ⊢
  rcases count_or_cut front small held inside lies with rfl | ⟨cut, nonneg⟩
  · have value := length.value_lt
    have counts : prefixes.length = length.value := count
    have most := stringsSize_le strings
    have behind : v.Holds (offset + i + (2 + length.bytes.length))
        (elements.flatMap WireString.bytes) := by
      rw [← Nat.add_assoc]
      exact (View.holds_append.mp (View.holds_cons.mp (View.holds_cons.mp held).2).2).2
    rcases strings_or_cut front small (by omega) strings (counts.trans counted.symm) behind
      (by omega) (by omega) with exact_ | beyond
    · left
      push_cast
      omega
    · right
      push_cast at beyond
      omega
  · obtain rfl := strings_beyond front strings (by omega) (by omega)
    right
    simp only [stringsSize]
    omega

/-- An element of the shorter view is the token of the longer one, as far as its length goes,
or it ends beyond the shorter view. -/
theorem Element.size_or_beyond {size : ℤ} {count : Nat} (element : Element u offset i size count)
    (token : Token) (held : v.Holds (offset + i) token.bytes)
    (within : offset + i + token.bytes.length ≤ v.size) :
    size = token.bytes.length ∨ u.size ≤ offset + i + size ∧ size < 2 ^ 63 := by
  have first := fun magic => @magic_of_checkedAt u v offset i front small token magic held within
  have second := fun magic array =>
    @kind_of_checkedAt u v offset i front small token magic array held within
  cases element with
  | word primitive tag =>
      obtain ⟨rfl, -⟩ := first _ tag
      left
      rw [Token.length_of_isWord primitive]
      rfl
  | fd tag =>
      obtain ⟨number, rfl⟩ := Token.eq_fd (first _ tag).1
      exact .inl rfl
  | varchar tag lies =>
      obtain ⟨same, inside⟩ := first _ tag
      obtain ⟨string, rfl⟩ := Token.eq_varchar same
      exact varchar_or_cut front small held inside lies
  | words primitive tag kind lies =>
      obtain ⟨same, inside⟩ := first _ tag
      obtain ⟨magic, length, elements, counted, rfl⟩ :=
        Token.eq_words (second _ same kind) primitive
      exact words_or_cut front small held inside lies
  | fds tag kind lies =>
      obtain ⟨same, inside⟩ := first _ tag
      obtain ⟨length, elements, counted, rfl⟩ := Token.eq_fds (second _ same kind)
      exact fds_or_cut front small held inside lies
  | varchars tag kind lies count strings =>
      obtain ⟨same, inside⟩ := first _ tag
      obtain ⟨length, elements, counted, rfl⟩ := Token.eq_varchars (second _ same kind)
      exact varchars_or_cut front small held within inside lies count strings

end Lengths

/-- A walk beyond the end of the bytes comes to no `END`. -/
theorem not_reaches_beyond {s last : ElementState}
    (reaches : Reaches (elementTurn u offset) s last) (beyond : u.size ≤ offset + s.i)
    (small : offset + s.i < 2 ^ 64) :
    u.checkedAt (wrap (offset + last.i)) ≠ .ok EMessageMagic.endMark.code := by
  intro mark
  rcases Relation.ReflTransGen.cases_head reaches with rfl | ⟨t, next, -⟩
  · have inside := lt_of_checkedAt mark
    rw [wrap_of_lt small] at inside
    omega
  · obtain ⟨size, count, element, -, -⟩ := elementStep_eq_again.mp (next_iff.mp next)
    have inside := element.start_lt small
    omega

/-- **A walk over tokens that are cut off comes to no `END`.** -/
theorem not_reaches_cut (front : u.Front v) (small : v.size < 2 ^ 63) {s last : ElementState}
    (reaches : Reaches (elementTurn u offset) s last) {tokens : List Token}
    (held : v.Holds (offset + s.i) (tokens.flatMap Token.bytes ++ [EMessageMagic.endMark.code]))
    (within : offset + s.i + (tokens.flatMap Token.bytes).length < v.size)
    (cut : u.size ≤ offset + s.i + (tokens.flatMap Token.bytes).length) :
    u.checkedAt (wrap (offset + last.i)) ≠ .ok EMessageMagic.endMark.code := by
  induction reaches using Relation.ReflTransGen.head_induction_on generalizing tokens with
  | refl =>
      intro mark
      rw [wrap_of_lt (by omega)] at mark
      have inside := lt_of_checkedAt mark
      cases tokens with
      | nil => exact absurd cut (Nat.not_le_of_lt inside)
      | cons token rest =>
          obtain ⟨others, bytes⟩ := token.head_bytes
          rw [List.flatMap_cons, bytes] at held
          have read := View.checkedAt_inside held (by omega) small
          have same := Except.ok.inj (read.symm.trans (front.checkedAt mark))
          exact token.magic_ne_endMark (EMessageMagic.code_injective same)
  | @head s s' next rest_ ih =>
      obtain ⟨size, count, element, enough, rfl⟩ := elementStep_eq_again.mp (next_iff.mp next)
      have inside := element.start_lt (by omega)
      cases tokens with
      | nil => exact absurd cut (Nat.not_le_of_lt inside)
      | cons token rest =>
          rw [List.flatMap_cons, List.append_assoc] at held
          simp only [List.flatMap_cons, List.length_append] at within cut
          obtain ⟨first, others⟩ := View.holds_append.mp held
          rcases element.size_or_beyond front small token first (by omega) with
            rfl | ⟨beyond, short⟩
          · have place : (s.past token.bytes.length count).i = s.i + token.bytes.length := by
              show advance s.i token.bytes.length = _
              rw [advance_natCast, wrap_of_lt (by omega)]
            refine @ih rest ?_ ?_ ?_
            · rwa [place, ← Nat.add_assoc]
            · omega
            · omega
          · have place : ((s.past size count).i : ℤ) = s.i + size := by
              show (advance s.i size : ℤ) = _
              rw [advance_cast]
              exact Int.emod_eq_of_lt (by omega) (by omega)
            exact not_reaches_beyond rest_ (by omega) (by omega)

/-- **A generic message that is cut off is not accepted.** -/
theorem not_decode_cut (front : u.Front v) (small : v.size < 2 ^ 63) {tokens : List Token}
    (held : v.Holds (offset + 11) (tokens.flatMap Token.bytes ++ [EMessageMagic.endMark.code]))
    (within : offset + 11 + (tokens.flatMap Token.bytes).length < v.size)
    (cut : u.size ≤ offset + 11 + (tokens.flatMap Token.bytes).length) {fds left : List Fd}
    {msg : CGenericProtocolMessage} (decoded : decode u fds offset = some (.ok (msg, left))) :
    msg.len = 0 := by
  by_contra length
  obtain ⟨object, method, last, -, reaches, mark, -, -⟩ := decode_accepts.mp ⟨decoded, length⟩
  exact not_reaches_cut front small reaches held within cut mark

end Elements

end CGenericProtocolMessage

end Hyprwire.Wire
