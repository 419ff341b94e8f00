import Hyprwire.Object.Called
import Hyprwire.Wire.Token

/-!
# The walks of a received call

Over data made of tokens both walks of `called` go from token to token, as the
decoder does. `typeCheck_token` takes the first walk past a token whose type the
method asks for, and `demarshalItem_token` takes the second past any token and gives
its values. So a method that asks for the types of the tokens is listened to with
their values (`callListener_tokens`).
-/

set_option autoImplicit false

namespace Hyprwire.Wire

open Cpp Object

namespace Token

/-- The magics a method asks for a token with. -/
def params : Token → List UInt8
  | .word magic _ => [magic.val.code]
  | .varchar _ => [EMessageMagic.typeVarchar.code]
  | .words magic _ _ _ => [EMessageMagic.typeArray.code, magic.val.code]
  | .varchars _ _ _ => [EMessageMagic.typeArray.code, EMessageMagic.typeVarchar.code]
  | .fds _ _ _ => [EMessageMagic.typeArray.code, EMessageMagic.typeFd.code]
  | .fd _ => [EMessageMagic.typeFd.code]

/-- The type of a word. -/
def wordType : EMessageMagic → FfiType
  | .typeInt => .sint32
  | .typeF32 => .float
  | _ => .uint32

/-- The types a listener takes for a token. -/
def types : Token → List FfiType
  | .word magic _ => [wordType magic.val]
  | .varchar _ => [.pointer]
  | .fd _ => [.sint32]
  | _ => [.pointer, .uint32]

/-- The values a listener is given for a token. -/
def values : Token → List Value
  | .word _ bits => [.word bits]
  | .varchar string => [.string string.string]
  | .words _ _ elements _ => arrayValues (.words elements) elements.length
  | .varchars _ elements _ => arrayValues (.strings (elements.map (·.string))) elements.length
  | .fds _ elements _ => arrayValues (.words elements) elements.length
  | .fd number => [.word number]

theorem length_pos (token : Token) : 0 < token.bytes.length := by
  cases token <;> exact Nat.succ_pos _

/-- Arrays take two magics and at least two bytes. -/
theorem length_params_le (token : Token) : token.params.length ≤ token.bytes.length := by
  cases token <;> simp [params, bytes]

end Token

end Hyprwire.Wire

namespace Hyprwire.Object

open Cpp Wire

/-! ## The first walk -/

theorem checkStrings_of_holds {data : View} {dataI start : Nat} {elements : List WireString}
    (holds : data.Holds (dataI + start) (elements.flatMap WireString.bytes))
    (inside : dataI + start + (elements.flatMap WireString.bytes).length ≤ data.size)
    (small : data.size < 2 ^ 63) :
    checkStrings data dataI elements.length start =
      .ok (some (start + (elements.flatMap WireString.bytes).length)) := by
  induction elements generalizing start with
  | nil => rfl
  | cons s rest ih =>
      rw [List.flatMap_cons, WireString.bytes, List.append_assoc] at holds
      simp only [List.flatMap_cons, List.length_append, WireString.bytes, List.length_cons] at inside ⊢
      obtain ⟨prefixHeld, afterPrefix⟩ := View.holds_append.mp holds
      have lies : PrefixAt data (dataI + start) (wrapSub (wrapSub data.size dataI) start)
          s.length.bytes := by
        refine s.length.prefixAt prefixHeld ?_
        rw [wrapSub_of_le (show dataI ≤ data.size by omega) (by omega),
          wrapSub_of_le (by omega) (by omega)]
        omega
      have within : ¬ data.size < wrap (dataI + start) := by
        rw [wrap_of_lt (by omega)]
        omega
      have next : wrap (start + prefixLength s.length.bytes + s.length.bytes.length) =
          start + (s.length.bytes.length + s.string.length) := by
        rw [show prefixLength s.length.bytes = s.string.length from s.fits.symm,
          wrap_of_lt (by omega)]
        omega
      rw [checkStrings, if_neg within, lies.parseVarInt, ok_bind]
      simp only [next]
      rw [ih]
      · simp only [Nat.add_assoc]
      · have tail := (View.holds_append.mp afterPrefix).2
        rwa [Nat.add_assoc, Nat.add_assoc] at tail
      · omega

/-- A parameter of one magic. -/
theorem checkParam_word {magic : EMessageMagic} (primitive : magic.IsWord) {data : View}
    {id : UInt32} {following : Option UInt8} {i dataI : Nat} {bits : UInt32}
    (holds : data.Holds dataI (magic.code :: u32Bytes bits)) (small : dataI + 5 < 2 ^ 64) :
    checkParam data id magic.code following i dataI =
      .ok (.next [some (Token.wordType magic)] (dataI + 5)) := by
  have first := View.rawAt_of_holds holds
  rw [wrap_of_lt (by omega)] at first
  cases magic <;> first
    | exact absurd primitive (by decide)
    | simp [checkParam, wrap_of_lt small, wrap_of_lt (show dataI < 2 ^ 64 by omega), first,
        ffiTypeFrom, Token.wordType]

theorem checkParam_fd {data : View} {id : UInt32} {following : Option UInt8} {i dataI : Nat}
    (holds : data.Holds dataI [EMessageMagic.typeFd.code]) (small : dataI + 1 < 2 ^ 64) :
    checkParam data id EMessageMagic.typeFd.code following i dataI =
      .ok (.next [some .sint32] (dataI + 1)) := by
  have first := View.rawAt_of_holds holds
  simp [checkParam, first, wrap_of_lt small, ffiTypeFrom]

theorem checkParam_varchar {string : WireString} {data : View} {id : UInt32}
    {following : Option UInt8} {i dataI : Nat}
    (holds : data.Holds dataI (Token.varchar string).bytes)
    (inside : dataI + (Token.varchar string).bytes.length ≤ data.size)
    (small : data.size < 2 ^ 63) :
    checkParam data id EMessageMagic.typeVarchar.code following i dataI =
      .ok (.next [some .pointer] (dataI + (Token.varchar string).bytes.length)) := by
  have first := View.rawAt_of_holds holds
  have tail := (View.holds_cons.mp holds).2
  have length := Token.size_varchar string
  rw [length] at inside
  have lies : PrefixAt data (dataI + 1) (wrapSub data.size dataI) string.length.bytes := by
    refine string.length.prefixAt (View.holds_append.mp tail).1 ?_
    rw [wrapSub_of_le (by omega) (by omega)]
    omega
  have next : wrap (dataI + prefixLength string.length.bytes + string.length.bytes.length + 1) =
      dataI + (Token.varchar string).bytes.length := by
    rw [show prefixLength string.length.bytes = string.string.length from string.fits.symm,
      wrap_of_lt (by omega), length]
    omega
  simp [checkParam, first, lies.parseVarInt, next, ffiTypeFrom]

/-- The two magics of an array are read before the rest. -/
theorem read_array {data : View} {i : Nat} {first second : UInt8} {rest : List UInt8}
    (holds : data.Holds i (first :: second :: rest)) :
    data.rawAt (wrap i) = .ok first ∧ data.rawAt (wrap (i + 1)) = .ok second ∧
      data.Holds (i + 2) rest := by
  have tail := (View.holds_cons.mp holds).2
  exact ⟨View.rawAt_of_holds holds, View.rawAt_of_holds tail, (View.holds_cons.mp tail).2⟩

/-- The prefix of an array lies in the span the first walk gives it. -/
theorem prefixAt_array {length : Length} {data : View} {i dataI : Nat} {rest : List UInt8}
    (holds : data.Holds (dataI + 2) (length.bytes ++ rest))
    (inside : dataI + 2 + length.bytes.length ≤ data.size) (small : data.size < 2 ^ 63)
    (order : i ≤ dataI + 1) :
    PrefixAt data (dataI + 2) (wrapSub data.size i) length.bytes := by
  refine length.prefixAt (View.holds_append.mp holds).1 ?_
  rw [wrapSub_of_le (by omega) (by omega)]
  omega

/-- A parameter of an array, with the magic of its elements. -/
theorem checkParam_array {token : Token} {magic : EMessageMagic}
    (params : token.params = [EMessageMagic.typeArray.code, magic.code]) {data : View}
    {id : UInt32} {i dataI : Nat} (holds : data.Holds dataI token.bytes)
    (inside : dataI + token.bytes.length ≤ data.size) (small : data.size < 2 ^ 63)
    (order : i ≤ dataI) :
    checkParam data id EMessageMagic.typeArray.code (some magic.code) i dataI =
      .ok (.skip (token.types.map some) (dataI + token.bytes.length)) := by
  have start : wrap dataI = dataI := wrap_of_lt (by omega)
  cases token with
  | word _ _ => simp [Token.params] at params
  | varchar _ => simp [Token.params] at params
  | fd _ => simp [Token.params] at params
  | words element length elements counted =>
      obtain ⟨element, primitive⟩ := element
      obtain rfl : element = magic := EMessageMagic.code_injective (by simpa [Token.params] using params)
      obtain ⟨first, second, payload⟩ := read_array holds
      have count : elements.length = prefixLength length.bytes := counted
      rw [Token.size_words, count] at inside ⊢
      have lies := prefixAt_array payload (by omega) small
        (show i + 1 ≤ dataI + 1 by omega)
      have next : wrap (dataI + wrap (2 + length.bytes.length + 4 * prefixLength length.bytes)) =
          dataI + (2 + length.bytes.length + 4 * prefixLength length.bytes) := by
        have inner : wrap (2 + length.bytes.length + 4 * prefixLength length.bytes) =
            2 + length.bytes.length + 4 * prefixLength length.bytes := wrap_of_lt (by omega)
        rw [inner, wrap_of_lt (by omega)]
      cases element <;> first
        | exact absurd primitive (by decide)
        | simp [checkParam, first, second, lies.parseVarInt, next, Token.types, ffiTypeFrom]
  | varchars length elements counted =>
      obtain rfl : EMessageMagic.typeVarchar = magic :=
        EMessageMagic.code_injective (by simpa [Token.params] using params)
      obtain ⟨first, second, payload⟩ := read_array holds
      rw [Token.size_varchars] at inside ⊢
      have lies := prefixAt_array payload (by omega) small (show i + 1 ≤ dataI + 1 by omega)
      have strings : checkStrings data dataI (prefixLength length.bytes)
          (2 + length.bytes.length) = .ok (some (2 + length.bytes.length +
            (elements.flatMap WireString.bytes).length)) := by
        rw [show prefixLength length.bytes = elements.length from counted.symm]
        refine checkStrings_of_holds ?_ (by omega) small
        rw [← Nat.add_assoc dataI]
        exact (View.holds_append.mp payload).2
      have next : wrap (dataI + (2 + length.bytes.length +
          (elements.flatMap WireString.bytes).length)) =
          dataI + (2 + length.bytes.length + (elements.flatMap WireString.bytes).length) :=
        wrap_of_lt (by omega)
      simp only [checkParam, first, second, lies.parseVarInt, ok_bind, EMessageMagic.ofByte_code,
        ne_eq, not_true_eq_false, if_false, strings, next, Token.types, ffiTypeFrom, pure_eq_ok,
        List.map_cons, List.map_nil]
  | fds length elements counted =>
      obtain rfl : EMessageMagic.typeFd = magic :=
        EMessageMagic.code_injective (by simpa [Token.params] using params)
      obtain ⟨first, second, payload⟩ := read_array holds
      rw [Token.size_fds] at inside ⊢
      rw [← List.append_nil length.bytes] at payload
      have lies := prefixAt_array payload (by omega) small (show i + 1 ≤ dataI + 1 by omega)
      have next : wrap (dataI + (2 + length.bytes.length)) = dataI + (2 + length.bytes.length) :=
        wrap_of_lt (by omega)
      simp [checkParam, first, second, lies.parseVarInt, next, Token.types, ffiTypeFrom]

/-- The first walk after a token that has the type the method asks for. -/
def past (types : List FfiType) : Except Fault Checked → Except Fault Checked :=
  Except.map (Checked.after (types.map some))

theorem bind_after (x : Except Fault Checked) (types : List FfiType) :
    (x >>= fun rest => pure (rest.after (types.map some))) = past types x := by
  cases x <;> rfl

/-- **The turn for a token that is asked for**: an array takes the magic of its elements along,
and another parameter does not look at what follows. -/
theorem checkParam_token (token : Token) {data : View} {id : UInt32} {i dataI : Nat}
    (holds : data.Holds dataI token.bytes) (inside : dataI + token.bytes.length ≤ data.size)
    (small : data.size < 2 ^ 63) (order : i ≤ dataI) :
    (∃ param, token.params = [param] ∧ ∀ following,
        checkParam data id param following i dataI =
          .ok (.next (token.types.map some) (dataI + token.bytes.length))) ∨
      ∃ param arrType, token.params = [param, arrType] ∧
        checkParam data id param (some arrType) i dataI =
          .ok (.skip (token.types.map some) (dataI + token.bytes.length)) := by
  have array : ∀ magic : EMessageMagic,
      token.params = [EMessageMagic.typeArray.code, magic.code] →
      ∃ param arrType, token.params = [param, arrType] ∧
        checkParam data id param (some arrType) i dataI =
          .ok (.skip (token.types.map some) (dataI + token.bytes.length)) :=
    fun magic two => ⟨_, _, two, checkParam_array two holds inside small order⟩
  cases token with
  | word magic bits =>
      have room : dataI + 5 < 2 ^ 64 := by
        simp only [Token.bytes, List.length_cons, length_u32Bytes] at inside
        omega
      exact .inl ⟨_, rfl, fun _ => checkParam_word magic.property holds room⟩
  | fd number =>
      have room : dataI + 1 < 2 ^ 64 := by
        simp only [Token.bytes, List.length_singleton] at inside
        omega
      exact .inl ⟨_, rfl, fun _ => checkParam_fd holds room⟩
  | varchar string => exact .inl ⟨_, rfl, fun _ => checkParam_varchar holds inside small⟩
  | words magic length elements counted => exact .inr (array magic.val rfl)
  | varchars length elements counted => exact .inr (array .typeVarchar rfl)
  | fds length elements counted => exact .inr (array .typeFd rfl)

/-- **The first walk goes past a token of the type that is asked for.** -/
theorem typeCheck_token (token : Token) {data : View} {id : UInt32} {params : List UInt8}
    {i dataI : Nat} (holds : data.Holds dataI token.bytes)
    (inside : dataI + token.bytes.length ≤ data.size) (small : data.size < 2 ^ 63)
    (order : i ≤ dataI) :
    typeCheck data id (token.params ++ params) i dataI =
      past token.types
        (typeCheck data id params (i + token.params.length) (dataI + token.bytes.length)) := by
  rcases @checkParam_token token data id i dataI holds inside small order with
    ⟨param, one, turn⟩ | ⟨param, arrType, two, turn⟩
  · rw [one, List.singleton_append, typeCheck, turn]
    exact bind_after _ _
  · rw [two, List.cons_append, List.singleton_append, typeCheck, List.head?_cons, turn]
    exact bind_after _ _

/-- **The first walk finds the types of the tokens** when the method asks for them. -/
theorem typeCheck_tokens {data : View} {id : UInt32} {tokens : List Token} {i dataI : Nat}
    (holds : data.Holds dataI (tokens.flatMap Token.bytes))
    (inside : dataI + (tokens.flatMap Token.bytes).length ≤ data.size) (small : data.size < 2 ^ 63)
    (order : i ≤ dataI) :
    typeCheck data id (tokens.flatMap Token.params) i dataI =
      .ok (.ok ((tokens.flatMap Token.types).map some)) := by
  induction tokens generalizing i dataI with
  | nil => rfl
  | cons token tokens ih =>
      simp only [List.flatMap_cons, List.length_append] at holds inside ⊢
      obtain ⟨head, tail⟩ := View.holds_append.mp holds
      have shorter := token.length_params_le
      rw [typeCheck_token token head (by omega) small order,
        ih tail (by omega) (by omega), List.map_append]
      rfl

/-! ## The second walk -/

theorem copyWords_of_holds {data : View} {start : Nat} {elements : List UInt32}
    (holds : data.Holds start (elements.flatMap u32Bytes)) :
    copyWords data elements.length start = .ok elements := by
  induction elements generalizing start with
  | nil => rfl
  | cons value rest ih =>
      rw [List.flatMap_cons] at holds
      have tail : copyWords data rest.length (start + 4) = .ok rest :=
        ih (View.holds_append.mp holds).2
      rw [List.length_cons, copyWords, View.rawU32_of_holds holds, ok_bind, tail]
      rfl

/-- A string after its length is copied. -/
theorem copyString_wireString {data : View} {start : Nat} {s : WireString}
    (holds : data.Holds (start + s.length.bytes.length) s.string) :
    data.copyString .ample (start + s.length.bytes.length) (prefixLength s.length.bytes) =
      .ok s.string := by
  have bound := s.length.value_lt
  rw [← s.fits] at bound
  rw [show prefixLength s.length.bytes = s.string.length from s.fits.symm]
  exact View.copyString_of_holds holds (by omega)

theorem copyStrings_of_holds {data : View} {i start : Nat} {elements : List WireString}
    (holds : data.Holds (i + start) (elements.flatMap WireString.bytes))
    (inside : i + start + (elements.flatMap WireString.bytes).length ≤ data.size)
    (small : data.size < 2 ^ 63) :
    copyStrings data i elements.length start =
      .ok (elements.map (·.string), start + (elements.flatMap WireString.bytes).length) := by
  induction elements generalizing start with
  | nil => rfl
  | cons s rest ih =>
      rw [List.flatMap_cons, WireString.bytes, List.append_assoc] at holds
      simp only [List.flatMap_cons, List.length_append, WireString.bytes, List.length_cons]
        at inside ⊢
      obtain ⟨prefixHeld, afterPrefix⟩ := View.holds_append.mp holds
      have lies : PrefixAt data (i + start) (wrapSub data.size i) s.length.bytes := by
        refine s.length.prefixAt prefixHeld ?_
        rw [wrapSub_of_le (by omega) (by omega)]
        omega
      have copied := copyString_wireString (View.holds_append.mp afterPrefix).1
      have next : wrap (start + s.length.bytes.length + prefixLength s.length.bytes) =
          start + (s.length.bytes.length + s.string.length) := by
        rw [show prefixLength s.length.bytes = s.string.length from s.fits.symm,
          wrap_of_lt (by omega), Nat.add_assoc]
      rw [copyStrings, lies.parseVarInt, ok_bind]
      simp only [copied, ok_bind, next]
      rw [ih]
      · simp only [ok_bind, pure_eq_ok, List.map_cons, Nat.add_assoc]
      · have tail := (View.holds_append.mp afterPrefix).2
        rwa [Nat.add_assoc, Nat.add_assoc] at tail
      · omega

/-- Elements of a queue that has some before it and some after it. -/
theorem queue_slice {before elements after : List Fd} :
    ((before ++ (elements ++ after)).drop before.length).take elements.length = elements := by
  rw [List.drop_left, List.take_left]

/-- **The second walk goes past a token** and gives its values. -/
theorem demarshalItem_token (token : Token) {data : View} {i : Nat} {used left : List Fd}
    (holds : data.Holds i token.bytes) (inside : i + token.bytes.length ≤ data.size)
    (small : data.size < 2 ^ 63) :
    demarshalItem data (used ++ (token.descriptors ++ left)) i used.length =
      .ok (.next (i + token.bytes.length) (used ++ token.descriptors).length token.values) := by
  cases token with
  | word magic bits =>
      obtain ⟨magic, primitive⟩ := magic
      have first := View.rawAt_of_holds holds
      have value := View.rawU32_of_holds
        (by rw [List.append_nil]; exact (View.holds_cons.mp holds).2 :
          data.Holds (i + 1) (u32Bytes bits ++ []))
      simp only [Token.bytes, List.length_cons, length_u32Bytes] at inside
      have next : wrap (i + 4 + 1) = i + 5 := wrap_of_lt (by omega)
      cases magic <;> first
        | exact absurd primitive (by decide)
        | simp [demarshalItem, first, value, next, Token.bytes, Token.descriptors, Token.values]
  | fd number =>
      have first := View.rawAt_of_holds holds
      simp only [Token.bytes, List.length_singleton] at inside
      have next : wrap (i + 1) = i + 1 := wrap_of_lt (by omega)
      simp [demarshalItem, first, next, Token.bytes, Token.descriptors, Token.values]
  | varchar string =>
      have first := View.rawAt_of_holds holds
      have tail := View.holds_append.mp (View.holds_cons.mp holds).2
      rw [Token.size_varchar] at inside ⊢
      have lies : PrefixAt data (i + 1) (wrapSub (wrapSub data.size i) 1) string.length.bytes := by
        refine string.length.prefixAt tail.1 ?_
        rw [wrapSub_of_le (show i ≤ data.size by omega) (by omega),
          wrapSub_of_le (by omega) (by omega)]
        omega
      have copied := copyString_wireString tail.2
      rw [Nat.add_right_comm] at copied
      have next : wrap (i + (prefixLength string.length.bytes + string.length.bytes.length) + 1) =
          i + (string.length.bytes.length + string.string.length + 1) := by
        rw [show prefixLength string.length.bytes = string.string.length from string.fits.symm,
          wrap_of_lt (by omega)]
        omega
      simp [demarshalItem, first, lies.parseVarInt, copied, next, Token.descriptors, Token.values]
  | words magic length elements counted =>
      obtain ⟨magic, primitive⟩ := magic
      obtain ⟨first, second, payload⟩ := read_array holds
      have count : prefixLength length.bytes = elements.length := counted.symm
      rw [Token.size_words] at inside ⊢
      have lies := prefixAt_array payload (by omega) small (show i ≤ i + 1 by omega)
      have copied : copyWords data elements.length (i + (2 + length.bytes.length)) =
          .ok elements := by
        rw [← Nat.add_assoc]
        exact copyWords_of_holds (View.holds_append.mp payload).2
      have next : wrap (i + (2 + length.bytes.length + 4 * elements.length)) =
          i + (2 + length.bytes.length + 4 * elements.length) := wrap_of_lt (by omega)
      cases magic <;> first
        | exact absurd primitive (by decide)
        | simp [demarshalItem, first, second, lies.parseVarInt, count, copied, next,
            Token.descriptors, Token.values]
  | varchars length elements counted =>
      obtain ⟨first, second, payload⟩ := read_array holds
      have count : prefixLength length.bytes = elements.length := counted.symm
      rw [Token.size_varchars] at inside ⊢
      have lies := prefixAt_array payload (by omega) small (show i ≤ i + 1 by omega)
      have copied : copyStrings data i elements.length (2 + length.bytes.length) =
          .ok (elements.map (·.string),
            2 + length.bytes.length + (elements.flatMap WireString.bytes).length) := by
        refine copyStrings_of_holds ?_ (by omega) small
        rw [← Nat.add_assoc i]
        exact (View.holds_append.mp payload).2
      have next : wrap (i + (2 + length.bytes.length +
          (elements.flatMap WireString.bytes).length)) =
          i + (2 + length.bytes.length + (elements.flatMap WireString.bytes).length) :=
        wrap_of_lt (by omega)
      simp only [demarshalItem, first, second, lies.parseVarInt, ok_bind, EMessageMagic.ofByte_code,
        count, copied, next, Token.descriptors, Token.values, List.append_nil, pure_eq_ok]
  | fds length elements counted =>
      obtain ⟨first, second, payload⟩ := read_array holds
      rw [← List.append_nil length.bytes] at payload
      have count : prefixLength length.bytes = elements.length := counted.symm
      rw [Token.size_fds] at inside ⊢
      have lies := prefixAt_array payload (by omega) small (show i ≤ i + 1 by omega)
      have next : wrap (i + (2 + length.bytes.length)) = i + (2 + length.bytes.length) :=
        wrap_of_lt (by omega)
      have enough : used.length + elements.length ≤ (used ++ (elements ++ left)).length := by
        rw [List.length_append, List.length_append, ← Nat.add_assoc]
        exact Nat.le_add_right _ _
      simp only [demarshalItem, first, second, lies.parseVarInt, ok_bind, EMessageMagic.ofByte_code,
        count, next, Token.descriptors, Token.values, if_pos enough, queue_slice, pure_eq_ok]
      rw [List.length_append]

/-- The turn of the second walk at a token. -/
theorem next_demarshalTurn (token : Token) {data : View} {i : Nat} {used left : List Fd}
    {values : List Value} (holds : data.Holds i token.bytes)
    (inside : i + token.bytes.length ≤ data.size) (small : data.size < 2 ^ 63) :
    Next (demarshalTurn data (used ++ (token.descriptors ++ left)))
      { i, fdNo := used.length, values }
      { i := i + token.bytes.length, fdNo := (used ++ token.descriptors).length,
        values := values ++ token.values } := by
  have positive := token.length_pos
  simp only [Next, demarshalTurn, if_pos (show i < data.size by omega),
    @demarshalItem_token token data i used left holds inside small]

/-- The turn of the second walk at an `END`. -/
theorem demarshalTurn_endMark {data : View} {fds : List Fd} {s : ValueState}
    (mark : data.Holds s.i [EMessageMagic.endMark.code]) (inside : s.i < data.size) :
    demarshalTurn data fds s = some (.leave (.ok (.ok s.values))) := by
  simp [demarshalTurn, inside, demarshalItem, View.rawAt_of_holds mark]

/-- The turns of the second walk over tokens. -/
theorem loop_demarshalTurn {data : View} {i : Nat} {tokens : List Token} {used : List Fd}
    {values : List Value}
    (holds : data.Holds i (tokens.flatMap Token.bytes ++ [EMessageMagic.endMark.code]))
    (inside : i + (tokens.flatMap Token.bytes).length < data.size) (small : data.size < 2 ^ 63) :
    loop (demarshalTurn data (used ++ tokens.flatMap Token.descriptors)) (tokens.length + 1)
        { i, fdNo := used.length, values } =
      some (.ok (.ok (values ++ tokens.flatMap Token.values))) := by
  induction tokens generalizing i used values with
  | nil =>
      simp only [List.flatMap_nil, List.append_nil]
      exact loop_leave (demarshalTurn_endMark holds inside) 0
  | cons token tokens ih =>
      simp only [List.flatMap_cons, List.length_append] at inside holds ⊢
      rw [List.append_assoc] at holds
      obtain ⟨head, tail⟩ := View.holds_append.mp holds
      rw [List.length_cons, loop_again (next_demarshalTurn token head (by omega) small),
        ← List.append_assoc used, ih tail (by omega), List.append_assoc]

theorem length_le_flatMap (tokens : List Token) :
    tokens.length ≤ (tokens.flatMap Token.bytes).length := by
  induction tokens with
  | nil => exact Nat.le_refl 0
  | cons token tokens ih =>
      have positive := token.length_pos
      rw [List.flatMap_cons, List.length_append, List.length_cons]
      omega

/-- **The second walk over tokens gives their values.** -/
theorem demarshal_tokens {data : View} {tokens : List Token}
    (holds : data.Holds 0 (tokens.flatMap Token.bytes ++ [EMessageMagic.endMark.code]))
    (inside : (tokens.flatMap Token.bytes).length < data.size) (small : data.size < 2 ^ 63) :
    demarshal data (tokens.flatMap Token.descriptors) =
      some (.ok (.ok (tokens.flatMap Token.values))) := by
  have few := length_le_flatMap tokens
  have run := @loop_demarshalTurn data 0 tokens [] [] holds (by omega) small
  rw [List.nil_append] at run
  refine loop_mono ?_ run
  calc tokens.length + 1 ≤ 2 ^ 64 * 1 := by omega
    _ ≤ 2 ^ 64 * ((tokens.flatMap Token.descriptors).length + 1) :=
        Nat.mul_le_mul_left _ (Nat.succ_le_succ (Nat.zero_le _))

theorem ffiPrepCif_map_some (types : List FfiType) :
    ffiPrepCif (types.map some) = .ok (some types) := by
  have all : pointees (types.map some) = some types := by
    induction types with
    | nil => rfl
    | cons type types ih => rw [List.map_cons, pointees, ih]; rfl
  rw [ffiPrepCif, all]

/-- **A listener whose method asks for the types of the tokens is called with their
values.** -/
theorem callListener_tokens {method : SMethod} {fn : Callback} {id : UInt32} {data : View}
    {tokens : List Token} (params : method.wireParams = tokens.flatMap Token.params)
    (holds : data.Holds 0 (tokens.flatMap Token.bytes ++ [EMessageMagic.endMark.code]))
    (inside : (tokens.flatMap Token.bytes).length < data.size) (small : data.size < 2 ^ 63) :
    callListener method fn id data (tokens.flatMap Token.descriptors) =
      some (.ok (.invoke fn (tokens.flatMap Token.types) (tokens.flatMap Token.values))) := by
  have checked := @typeCheck_tokens data id tokens 0 0 (View.holds_append.mp holds).1 (by omega)
    small (Nat.le_refl 0)
  rw [callListener, params, checked]
  simp only [ffiPrepCif_map_some, demarshal_tokens holds inside small]
  rfl

end Hyprwire.Object
