import Hyprwire.Object.RoundTrip
import Hyprwire.Object.TypeCheck
import Hyprwire.Wire.Accepted
import Hyprwire.Wire.ControlSafety

/-!
# What is read of a generic message

The decoder of a generic message checks the magics it reads, but not the integers of the
header, and it gives the prefixes of arrays a span that is longer than the data. It stays
inside the vector, and lets no exception escape, exactly when these are whole (`Whole`,
`decode_reads_iff`). The walks of `called` check nothing. They stay inside the data of an
accepted message when no length prefix is negative, whatever the object, its listeners and
the method (`called_reads`), since the message then is made of tokens.
-/

set_option autoImplicit false

namespace Hyprwire.Object

open Cpp Wire CGenericProtocolMessage

/-! ## The decoder -/

/-- The integers in the header of a generic message are whole, as far as the bytes are those
of a header. -/
def HeaderFits (bytes : List UInt8) : Prop :=
  After EMessageType.genericProtocolMessage.code bytes fun bytes =>
  After EMessageMagic.typeObject.code bytes fun bytes =>
  WordFits bytes ∧
  After EMessageMagic.typeUint.code (bytes.drop 4) WordFits

/-- The bytes of a vector from an offset on are whole: the integers of the header, and, when
there is a header, the prefix at every place where an element has one. -/
structure Whole (v : ByteVec) (offset n : Nat) : Prop where
  header : HeaderFits (v.data.drop offset)
  prefixes : (∃ object method, callHeader object method <+: v.data.drop offset) →
    ∀ i left, ElementStart v.strict offset n i left → ∀ start len,
      PrefixPlace v.strict offset i start len → ∃ bytes, PrefixAt v.strict start len bytes

section Decoder

variable {v : ByteVec} {offset : Nat} {fds : List Fd}

/-- The header is read inside the vector exactly when its integers are whole. -/
theorem decodeHeader_fits :
    (∃ found, decodeHeader v.strict offset = .ok found) ↔ HeaderFits (v.data.drop offset) := by
  have returns : (∃ found, decodeHeader v.strict offset = .ok found) ↔
      Returns none (fun _ => True) (v.strict.checkedAt offset >>= fun byte =>
        if byte ≠ EMessageType.genericProtocolMessage.code then .ok none else
        v.strict.checkedAt (offset + 1) >>= fun byte =>
        if byte ≠ EMessageMagic.typeObject.code then .ok none else
        v.strict.u32At (offset + 2) >>= fun object =>
        v.strict.checkedAt (offset + 6) >>= fun byte =>
        if byte ≠ EMessageMagic.typeUint.code then .ok none else
        v.strict.u32At (offset + 7) >>= fun method => .ok (some (object, method))) :=
    exists_congr fun found => (and_iff_left trivial).symm
  refine returns.trans ?_
  refine (returns_expect trivial trivial).trans (after_congr fun t type => ?_)
  rw [← drop_next type]
  refine (returns_expect trivial trivial).trans (after_congr fun o object => ?_)
  rw [← drop_next object]
  refine returns_u32 trivial (fun value _ => ?_) fun none => ?_
  · rw [List.drop_drop]
    refine (returns_expect trivial trivial).trans (after_congr fun u uint => ?_)
    rw [← drop_next uint]
    refine (returns_u32 (P := True) trivial (fun value _ => ?_) fun _ => trivial).trans
      (and_iff_left trivial)
    exact returns_ok
  · rw [none]
    exact after_nil _ _

/-- A header that is accepted is one that was built. -/
theorem holds_of_decodeHeader {object method : UInt32}
    (header : decodeHeader v.strict offset = .ok (some (object, method))) :
    v.strict.Holds offset (callHeader object method) := by
  have small : v.strict.size < 2 ^ 63 := v.length_lt
  simp only [decodeHeader, catchOutOfRange] at header
  split at header
  · cases header
  obtain ⟨_, first, rest⟩ := bind_eq_ok.mp header
  split at rest
  · cases rest
  next same =>
  obtain rfl := not_not.mp same
  obtain ⟨_, second, rest⟩ := bind_eq_ok.mp rest
  split at rest
  · cases rest
  next same =>
  obtain rfl := not_not.mp same
  obtain ⟨object, third, rest⟩ := bind_eq_ok.mp rest
  obtain ⟨_, fourth, rest⟩ := bind_eq_ok.mp rest
  split at rest
  · cases rest
  next same =>
  obtain rfl := not_not.mp same
  obtain ⟨method, fifth, rest⟩ := bind_eq_ok.mp rest
  cases rest
  have tags : v.strict.Holds offset
      [EMessageType.genericProtocolMessage.code, EMessageMagic.typeObject.code] :=
    (@View.holds_append _ _ [_] [_]).mpr
      ⟨holds_of_checkedAt small first, holds_of_checkedAt small second⟩
  have through : v.strict.Holds offset
      ([EMessageType.genericProtocolMessage.code, EMessageMagic.typeObject.code] ++
        u32Bytes object) :=
    View.holds_append.mpr ⟨tags, holds_of_u32At third⟩
  exact View.holds_append.mpr
    ⟨View.holds_append.mpr ⟨through, holds_of_checkedAt small fourth⟩, holds_of_u32At fifth⟩

/-- The bytes are those of a header exactly when the header is accepted. -/
theorem header_iff (inside : offset ≤ v.data.length) :
    (∃ object method, callHeader object method <+: v.data.drop offset) ↔
      ∃ object method, decodeHeader v.strict offset = .ok (some (object, method)) := by
  constructor
  · rintro ⟨object, method, starts⟩
    have room := starts.length_le
    rw [length_callHeader, List.length_drop] at room
    exact ⟨object, method, decodeHeader_of_holds ((holds_strict_iff inside).mpr starts)
      (by rw [ByteVec.size_strict]; omega) v.length_lt⟩
  · rintro ⟨object, method, header⟩
    exact ⟨object, method, (holds_strict_iff inside).mp (holds_of_decodeHeader header)⟩

/-- Nothing but `std::out_of_range` comes of a checked read. -/
theorem checkedAt_error {i : Nat} {fault : Fault}
    (failed : v.strict.checkedAt i = .error fault) : fault = .outOfRange := by
  rw [v.checkedAt_strict] at failed
  split at failed
  · cases failed
    rfl
  · cases failed

/-- **The decoder reads inside the vector, and lets no exception escape,** exactly when the
bytes are whole. -/
theorem decode_reads_iff (inside : offset < v.data.length) :
    (∀ fault, decode v.strict fds offset ≠ some (.error fault)) ↔ Whole v offset fds.length := by
  constructor
  · intro reads
    refine ⟨?_, ?_⟩
    · rw [← decodeHeader_fits]
      cases header : decodeHeader v.strict offset with
      | ok found => exact ⟨found, rfl⟩
      | error fault => exact absurd (decode_eq_error.mpr (.inl header)) (reads fault)
    · intro starts i left start index len place
      obtain ⟨object, method, header⟩ := (header_iff (Nat.le_of_lt inside)).mp starts
      obtain ⟨s, reaches, rfl, -⟩ := start.reached
      cases read : parseVarInt v.strict index len with
      | ok result =>
          obtain ⟨bytes, lies, -⟩ := parseVarInt_eq_ok.mp read
          exact ⟨bytes, lies⟩
      | error fault =>
          have other : fault ≠ .outOfRange := by
            rcases parseVarInt_eq_error read with rfl | rfl
            · decide
            · decide
          have step := elementStep_eq_error.mpr (.inr (.inr ⟨index, len, place, read⟩))
          exact absurd (decode_eq_error.mpr (.inr ⟨object, method, s, header, reaches, step, other⟩))
            (reads fault)
  · intro whole fault failed
    rcases decode_eq_error.mp failed with header | ⟨object, method, s, header, reaches, step, other⟩
    · obtain ⟨found, accepted⟩ := decodeHeader_fits.mpr whole.header
      rw [header] at accepted
      cases accepted
    · rcases elementStep_eq_error.mp step with outside | ⟨-, outside⟩ | ⟨index, len, place, read⟩
      · exact other (checkedAt_error outside)
      · exact other (checkedAt_error outside)
      · have starts := (header_iff (Nat.le_of_lt inside)).mpr ⟨object, method, header⟩
        obtain ⟨bytes, lies⟩ := whole.prefixes starts _ _ (.of_reaches reaches) index len place
        rw [lies.parseVarInt] at read
        cases read

end Decoder

/-! ## The walks -/

/-- Neither walk leaves data made of tokens, whatever the method asks for. -/
theorem callListener_reads {method : SMethod} {fn : Callback} {id : UInt32} {data : View}
    {tokens : List Token}
    (holds : data.Holds 0 (tokens.flatMap Token.bytes ++ [EMessageMagic.endMark.code]))
    (inside : (tokens.flatMap Token.bytes).length < data.size) (small : data.size < 2 ^ 63) :
    callListener method fn id data (tokens.flatMap Token.descriptors) ≠
      some (.error .outOfBounds) := by
  have finds := @typeCheck_finds data id 0 0 tokens method.wireParams holds (by omega) small
    (Nat.le_refl 0)
  rw [callListener]
  generalize differs method.wireParams _ = differ, typeCheck data id method.wireParams 0 0 = run
    at finds
  intro outside
  cases finds with
  | error message => cases outside
  | last => cases outside
  | types types =>
      simp only [ffiPrepCif, demarshal_tokens holds inside small] at outside
      split at outside
      · next null =>
        split at null
        · cases null
        · cases null
          cases outside
      · cases outside
      · cases outside

/-- The data of a message lies in the vector behind the header, and the walks of `called`
read inside it and inside the descriptors, whatever the object, its listeners, the methods
and the method. -/
structure Contained (v : ByteVec) (offset : Nat) (msg : CGenericProtocolMessage) : Prop where
  span : ∃ size, msg.dataSpan = v.strict.span (offset + 11) size ∧
    offset + 11 + size ≤ v.data.length
  called : ∀ (object : IWireObject) (methods : List SMethod) (id : UInt32),
    object.called methods id msg.dataSpan.guarded msg.fds ≠ some (.error .outOfBounds)

/-- **A message made of tokens is read inside its data.** -/
theorem called_reads {msg : CGenericProtocolMessage} {tokens : List Token}
    (madeOf : MadeOf msg tokens) (object : IWireObject) (methods : List SMethod) (id : UInt32) :
    object.called methods id msg.dataSpan.guarded msg.fds ≠ some (.error .outOfBounds) := by
  have small := madeOf.small
  have inside : (tokens.flatMap Token.bytes).length < msg.dataSpan.guarded.size := madeOf.inside
  have holds := View.holds_guarded madeOf.payload
    (by rw [madeOf.size, List.length_append, List.length_singleton]; omega) (by omega)
  have reads := fun method fn => @callListener_reads method fn id _ tokens holds inside small
  rw [madeOf.fds, IWireObject.called]
  split
  · intro none
    cases none
  · split
    · intro none
      cases none
    · split
      · intro none
        cases none
      · exact reads _ _

/-! ## Reading a message -/

/-- **A generic message is read inside its bytes**: the decoder stays inside the vector and
lets no exception escape, and what it accepts is read inside its own data. -/
structure ReadsInside (v : ByteVec) (offset : Nat) (fds : List Fd) : Prop where
  decodes : ∀ fault, decode v.strict fds offset ≠ some (.error fault)
  contained : ∀ msg rest, decode v.strict fds offset = some (.ok (msg, rest)) → msg.len ≠ 0 →
    Contained v offset msg

/-- No length prefix is negative, when the elements end with an `END`. -/
def EndsUnsigned (v : ByteVec) (offset : Nat) (fds : List Fd) : Prop :=
  ∀ i left, ElementStart v.strict offset fds.length i left →
    v.strict.checkedAt (wrap (offset + i)) = .ok EMessageMagic.endMark.code →
    Unsigned v.strict offset fds

/-- **A generic message is read inside its bytes** when they are whole and no length prefix
is negative, for every vector, offset and queue, and every object, its listeners, methods
and method. Bytes that are not whole are read past. -/
theorem generic_reads_inside (v : ByteVec) (offset : Nat) (fds : List Fd)
    (inside : offset < v.data.length) :
    (Whole v offset fds.length ∧ EndsUnsigned v offset fds → ReadsInside v offset fds) ∧
      (ReadsInside v offset fds → Whole v offset fds.length) := by
  refine ⟨?_, fun reads => (decode_reads_iff inside).mp reads.decodes⟩
  rintro ⟨whole, ends⟩
  refine ⟨(decode_reads_iff inside).mpr whole, fun msg rest accepted length => ?_⟩
  obtain ⟨object, method, last, header, reaches, mark, -, message⟩ :=
    decode_accepts.mp ⟨accepted, length⟩
  have unsigned := ends _ _ (.of_reaches reaches) mark
  have filled : Filled v.strict := by
    rw [← v.viewIn_none]
    exact filled_viewIn v _
  obtain ⟨tokens, madeOf, -, bound⟩ := accepted_madeOf filled v.length_lt accepted length unsigned
  refine ⟨⟨msg.dataSpan.size, ?_, bound⟩, called_reads madeOf⟩
  cases message
  rfl

/-- A message without elements. -/
def bare : ByteVec := ⟨[100, 0x22, 5, 0, 0, 0, 0x10, 0, 0, 0, 0, 0], by decide⟩

/-- It is read inside its bytes. -/
theorem generic_reads_inside_bare : ReadsInside bare 0 [] := by
  have header : decodeHeader bare.strict 0 = .ok (some (5, 0)) := rfl
  have mark : bare.strict.checkedAt (wrap (0 + 11)) = .ok EMessageMagic.endMark.code := rfl
  have ends : ∀ s, ¬ Next (elementTurn bare.strict 0) (firstElement []) s := by
    intro s next
    rw [next_iff, elementStep_eq_done.mpr ⟨mark, rfl⟩] at next
    cases next
  have first : ∀ s, Reaches (elementTurn bare.strict 0) (firstElement []) s →
      s = firstElement [] := by
    intro s reaches
    rcases Relation.ReflTransGen.cases_head reaches with same | ⟨t, next, -⟩
    · exact same.symm
    · exact absurd next (ends t)
  have tagged : ∀ {byte}, bare.strict.checkedAt (wrap (0 + 11)) = .ok byte →
      byte = EMessageMagic.endMark.code := by
    intro byte tag
    exact Except.ok.inj (tag.symm.trans mark)
  refine (generic_reads_inside bare 0 [] (by decide)).1 ⟨⟨?_, ?_⟩, ?_⟩
  · exact decodeHeader_fits.mp ⟨_, header⟩
  · intro _ i left start index len place
    obtain ⟨s, reaches, rfl, -⟩ := @ElementStart.reached _ _ [] _ _ start
    rw [first s reaches] at place
    cases place with
    | varchar tag => exact absurd (tagged tag) (by decide)
    | array tag _ => exact absurd (tagged tag) (by decide)
    | string tag _ _ _ _ _ => exact absurd (tagged tag) (by decide)
  · intro _ _ _ _ s bytes reaches read
    rw [first s reaches] at read
    cases read with
    | varchar tag _ => exact absurd (tagged tag) (by decide)
    | array tag _ _ => exact absurd (tagged tag) (by decide)
    | string tag _ _ _ _ _ => exact absurd (tagged tag) (by decide)

/-- A message that is cut off behind the magic of a string is read past. -/
theorem cut_string_read_past :
    ¬ ReadsInside ⟨[100, 0x22, 5, 0, 0, 0, 0x10, 0, 0, 0, 0, 0x20], by decide⟩ 0 [] := by
  intro reads
  exact reads.decodes .outOfBounds rfl

end Hyprwire.Object
