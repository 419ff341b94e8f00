import Hyprwire.Object.TypeCheck
import Hyprwire.Wire.Accepted

/-!
# The three walks over a message

The elements of a generic message are walked over three times: by the decoder, and twice by
`called`. Each walk has steps of its own for every kind of element. `checkTurn` is the body
of the loop over the parameters, and `typeCheck_exits` says that `typeCheck` is that loop.

Over the tokens of an accepted message the `n`th turn of each walk begins where the first `n`
tokens end (`decoder_states`, `value_states`, `check_states`). The decoder and the second walk
go as far as the `END`, and the first walk as far as the parameters are on the wire. So the
types that it finds are those of the first tokens, and `walks_agree` gives for each type the
token that the value at its place comes from.
-/

set_option autoImplicit false

namespace Hyprwire.Object

open Cpp Wire CGenericProtocolMessage

/-! ## The loop over the parameters -/

/-- The first walk before a parameter: the parameters that are left, the index of the next
one and that of its element, and the types found so far. -/
structure CheckState where
  params : List UInt8
  i : Nat
  dataI : Nat
  types : List (Option FfiType)
  deriving DecidableEq, Repr

/-- One turn of the `for` loop over the parameters. -/
def checkTurn (data : View) (id : UInt32) (s : CheckState) :
    Option (Turn CheckState (Except Fault Checked)) :=
  match s.params with
  | [] => some (.leave (.ok (.ok s.types)))
  | param :: params =>
      match checkParam data id param params.head? s.i s.dataI with
      | .ok (.next types dataI) =>
          some (.again { params, i := s.i + 1, dataI, types := s.types ++ types })
      | .ok (.skip types dataI) =>
          some (.again { params := params.tail, i := s.i + 2, dataI, types := s.types ++ types })
      | .ok (.failed message) => some (.leave (.ok (.error message)))
      | .error fault => some (.leave (.error fault))

/-- The first walk before the first parameter. -/
def firstCheck (method : SMethod) : CheckState :=
  { params := method.wireParams, i := 0, dataI := 0, types := [] }

section Turns

variable {data : View} {id : UInt32} {param : UInt8} {params : List UInt8} {i dataI dataI' : Nat}
  {types more : List (Option FfiType)}

theorem checkTurn_next
    (turn : checkParam data id param params.head? i dataI = .ok (.next more dataI')) :
    Next (checkTurn data id) ⟨param :: params, i, dataI, types⟩
      ⟨params, i + 1, dataI', types ++ more⟩ := by
  simp only [Next, checkTurn, turn]

theorem checkTurn_skip
    (turn : checkParam data id param params.head? i dataI = .ok (.skip more dataI')) :
    Next (checkTurn data id) ⟨param :: params, i, dataI, types⟩
      ⟨params.tail, i + 2, dataI', types ++ more⟩ := by
  simp only [Next, checkTurn, turn]

theorem checkTurn_failed {message : String}
    (turn : checkParam data id param params.head? i dataI = .ok (.failed message)) :
    checkTurn data id ⟨param :: params, i, dataI, types⟩ =
      some (.leave (.ok (.error message))) := by
  simp only [checkTurn, turn]

theorem checkTurn_error {fault : Fault}
    (turn : checkParam data id param params.head? i dataI = .error fault) :
    checkTurn data id ⟨param :: params, i, dataI, types⟩ = some (.leave (.error fault)) := by
  simp only [checkTurn, turn]

end Turns

/-- Types are put before others one after the other. -/
theorem map_after_after (first second : List (Option FfiType)) (run : Except Fault Checked) :
    (run >>= fun rest => pure (rest.after second)).map (Checked.after first) =
      run.map (Checked.after (first ++ second)) := by
  cases run with
  | error fault => rfl
  | ok checked =>
      cases checked with
      | error message => rfl
      | ok types => simp [Except.map, Checked.after]

/-- **The loop over the parameters is `typeCheck`.** -/
theorem typeCheck_exits (data : View) (id : UInt32) (s : CheckState) :
    Exits (checkTurn data id) s
      ((typeCheck data id s.params s.i s.dataI).map (Checked.after s.types)) := by
  obtain ⟨params, i, dataI, types⟩ := s
  have finished : ∀ i dataI types, Exits (checkTurn data id) ⟨[], i, dataI, types⟩
      (.ok (.ok types)) := fun _ _ _ => .leave rfl
  induction params using List.twoStepInduction generalizing i dataI types with
  | nil =>
      have all := finished i dataI types
      simpa [typeCheck, Except.map, Checked.after] using all
  | singleton param =>
      rw [typeCheck]
      cases turn : checkParam data id param [].head? i dataI with
      | error fault => exact .leave (checkTurn_error turn)
      | ok found =>
          cases found with
          | failed message => exact .leave (checkTurn_failed turn)
          | next more dataI' =>
              have all := Exits.again (checkTurn_next turn)
                (finished (i + 1) dataI' (types ++ more))
              simpa [typeCheck, Except.map, Checked.after] using all
          | skip more dataI' =>
              exact Exits.again (checkTurn_skip turn) (finished (i + 2) dataI' (types ++ more))
  | cons_cons param following params ih ih' =>
      rw [typeCheck]
      cases turn : checkParam data id param (following :: params).head? i dataI with
      | error fault => exact .leave (checkTurn_error turn)
      | ok found =>
          cases found with
          | failed message => exact .leave (checkTurn_failed turn)
          | next more dataI' =>
              have rest := ih' following (i + 1) dataI' (types ++ more)
              rw [← map_after_after] at rest
              exact Exits.again (checkTurn_next turn) rest
          | skip more dataI' =>
              have rest := ih (i + 2) dataI' (types ++ more)
              rw [← map_after_after] at rest
              exact Exits.again (checkTurn_skip turn) rest

/-! ## Where the tokens begin -/

/-- Where the first `n` tokens end. -/
def boundary (tokens : List Token) (n : Nat) : Nat := ((tokens.take n).flatMap Token.bytes).length

/-- What some more tokens add to the first ones. -/
theorem flatMap_take_succ {β : Type} (f : Token → List β) {tokens : List Token} {n : Nat}
    {token : Token} (has : tokens[n]? = some token) :
    (tokens.take (n + 1)).flatMap f = (tokens.take n).flatMap f ++ f token := by
  rw [List.take_add_one, has, Option.toList_some, List.flatMap_append, List.flatMap_singleton]

theorem flatMap_drop {β : Type} (f : Token → List β) {tokens : List Token} {n : Nat}
    {token : Token} (has : tokens[n]? = some token) :
    (tokens.drop n).flatMap f = f token ++ (tokens.drop (n + 1)).flatMap f := by
  obtain ⟨inside, rfl⟩ := List.getElem?_eq_some_iff.mp has
  rw [List.drop_eq_getElem_cons inside, List.flatMap_cons]

theorem boundary_succ {tokens : List Token} {n : Nat} {token : Token}
    (has : tokens[n]? = some token) :
    boundary tokens (n + 1) = boundary tokens n + token.bytes.length := by
  rw [boundary, flatMap_take_succ _ has, List.length_append, boundary]

theorem boundary_le (tokens : List Token) (n : Nat) :
    boundary tokens n ≤ (tokens.flatMap Token.bytes).length := by
  have all := congrArg (fun tokens => (tokens.flatMap Token.bytes).length)
    (List.take_append_drop n tokens)
  simp only [List.flatMap_append, List.length_append] at all
  rw [boundary]
  omega

/-- The tokens from the `n`th on lie where the ones before it end. -/
theorem holds_drop {data : View} {start : Nat} {tokens : List Token} {last : List UInt8}
    (holds : data.Holds start (tokens.flatMap Token.bytes ++ last)) (n : Nat) :
    data.Holds (start + boundary tokens n) ((tokens.drop n).flatMap Token.bytes ++ last) := by
  rw [← List.take_append_drop n tokens, List.flatMap_append, List.append_assoc] at holds
  exact (View.holds_append.mp holds).2

theorem holds_token {data : View} {start : Nat} {tokens : List Token} {last : List UInt8}
    (holds : data.Holds start (tokens.flatMap Token.bytes ++ last)) {n : Nat} {token : Token}
    (has : tokens[n]? = some token) : data.Holds (start + boundary tokens n) token.bytes := by
  have here := holds_drop holds n
  rw [flatMap_drop _ has, List.append_assoc] at here
  exact (View.holds_append.mp here).1

theorem exists_token_of_lt {tokens : List Token} {n : Nat} (lt : n < tokens.length) :
    ∃ token, tokens[n]? = some token :=
  ⟨tokens[n], List.getElem?_eq_getElem lt⟩

/-! ## The decoder and the second walk -/

section Tokens

variable {data : View} {tokens : List Token}

/-- The decoder before the `n`th token. -/
def decoderAt (tokens : List Token) (left : List Fd) (n : Nat) : ElementState where
  i := 11 + boundary tokens n
  taken := (tokens.take n).flatMap Token.descriptors
  fds := (tokens.drop n).flatMap Token.descriptors ++ left

/-- **The turns of the decoder** begin where the tokens do. -/
theorem decoder_states {offset : Nat} {left : List Fd}
    (holds : data.Holds (offset + 11)
      (tokens.flatMap Token.bytes ++ [EMessageMagic.endMark.code]))
    (inside : offset + 11 + (tokens.flatMap Token.bytes).length < data.size)
    (small : data.size < 2 ^ 63) {n : Nat} {s : ElementState} :
    stateAfter (elementTurn data offset) n
        (firstElement (tokens.flatMap Token.descriptors ++ left)) = some s ↔
      n ≤ tokens.length ∧ s = decoderAt tokens left n := by
  have goes : ∀ n < tokens.length,
      Next (elementTurn data offset) (decoderAt tokens left n) (decoderAt tokens left (n + 1)) := by
    intro n lt
    obtain ⟨token, has⟩ := exists_token_of_lt lt
    have here := holds_token holds has
    have stop := boundary_le tokens (n + 1)
    rw [boundary_succ has] at stop
    have next := @Token.next token data offset (11 + boundary tokens n)
      ((tokens.take n).flatMap Token.descriptors)
      ((tokens.drop (n + 1)).flatMap Token.descriptors ++ left)
      (by rwa [← Nat.add_assoc]) (by omega) small
    simp only [decoderAt, boundary_succ has, flatMap_take_succ _ has, flatMap_drop _ has,
      List.append_assoc, ← Nat.add_assoc 11]
    exact next
  have leaves : elementTurn data offset (decoderAt tokens left tokens.length) =
      some (.leave (.ok (.done (decoderAt tokens left tokens.length)))) := by
    have mark := holds_drop holds tokens.length
    rw [List.drop_length, List.flatMap_nil, List.nil_append, Nat.add_assoc] at mark
    have place := boundary_le tokens tokens.length
    have tag : data.checkedAt (wrap (offset + (11 + boundary tokens tokens.length))) =
        .ok EMessageMagic.endMark.code := by
      refine View.checkedAt_of_holds mark ?_
      rw [wrap_of_lt (by omega)]
      omega
    change data.checkedAt (wrap (offset + (decoderAt tokens left tokens.length).i)) = _ at tag
    have done := elementStep_eq_done.mpr ⟨tag, rfl⟩
    simp only [elementTurn, done]
  exact stateAfter_path_iff goes leaves

/-- The second walk before the `n`th token. -/
def valueAt (tokens : List Token) (n : Nat) : ValueState where
  i := boundary tokens n
  fdNo := ((tokens.take n).flatMap Token.descriptors).length
  values := (tokens.take n).flatMap Token.values

/-- **The turns of the second walk** begin where the tokens do. -/
theorem value_states (holds : data.Holds 0
      (tokens.flatMap Token.bytes ++ [EMessageMagic.endMark.code]))
    (inside : (tokens.flatMap Token.bytes).length < data.size) (small : data.size < 2 ^ 63)
    {n : Nat} {t : ValueState} :
    stateAfter (demarshalTurn data (tokens.flatMap Token.descriptors)) n firstValue = some t ↔
      n ≤ tokens.length ∧ t = valueAt tokens n := by
  have goes : ∀ n < tokens.length, Next (demarshalTurn data (tokens.flatMap Token.descriptors))
      (valueAt tokens n) (valueAt tokens (n + 1)) := by
    intro n lt
    obtain ⟨token, has⟩ := exists_token_of_lt lt
    have here := holds_token holds has
    rw [Nat.zero_add] at here
    have stop := boundary_le tokens (n + 1)
    rw [boundary_succ has] at stop
    have queue : tokens.flatMap Token.descriptors = (tokens.take n).flatMap Token.descriptors ++
        (token.descriptors ++ (tokens.drop (n + 1)).flatMap Token.descriptors) := by
      rw [← flatMap_drop _ has, ← List.flatMap_append, List.take_append_drop]
    rw [queue]
    simp only [valueAt, boundary_succ has, flatMap_take_succ _ has]
    exact next_demarshalTurn token here (by omega) small
  have leaves : demarshalTurn data (tokens.flatMap Token.descriptors)
        (valueAt tokens tokens.length) =
      some (.leave (.ok (.ok (valueAt tokens tokens.length).values))) := by
    have mark := holds_drop holds tokens.length
    rw [List.drop_length, List.flatMap_nil, List.nil_append, Nat.zero_add] at mark
    have place := boundary_le tokens tokens.length
    exact demarshalTurn_endMark mark (Nat.lt_of_le_of_lt place inside)
  exact stateAfter_path_iff goes leaves

end Tokens

/-! ## The first walk -/

/-- The parameters of a method over the supported types. -/
inductive Supported : List UInt8 → Prop
  | nil : Supported []
  | plain {magic : EMessageMagic} {params : List UInt8} (plain : magic.IsPlain = true)
      (rest : Supported params) : Supported (magic.code :: params)
  | array {kind : EMessageMagic} {params : List UInt8} (plain : kind.IsPlain = true)
      (rest : Supported params) :
      Supported (EMessageMagic.typeArray.code :: kind.code :: params)

/-- The sequence is supported. -/
theorem Supported.wireParams {method : SMethod} (supported : Supported method.params) :
    Supported method.wireParams := by
  rw [SMethod.wireParams]
  split
  · exact @Supported.plain .typeSeq _ rfl supported
  · exact supported

section Check

variable {data : View} {id : UInt32}

/-- A turn of the first walk from one state to another goes past a token. -/
structure GoesPast (s c : CheckState) (token : Token) : Prop where
  params : s.params = token.params ++ c.params
  i : c.i = s.i + token.params.length
  dataI : c.dataI = s.dataI + token.bytes.length
  types : c.types = s.types ++ token.types.map some

/-- **The first walk goes past a token** that is asked for in one turn. -/
theorem next_checkTurn (token : Token) {s : CheckState} {params : List UInt8}
    (asks : s.params = token.params ++ params) (holds : data.Holds s.dataI token.bytes)
    (inside : s.dataI + token.bytes.length ≤ data.size) (small : data.size < 2 ^ 63)
    (order : s.i ≤ s.dataI) :
    Next (checkTurn data id) s
      { params, i := s.i + token.params.length, dataI := s.dataI + token.bytes.length,
        types := s.types ++ token.types.map some } := by
  obtain ⟨all, i, dataI, types⟩ := s
  change all = token.params ++ params at asks
  subst asks
  rcases @checkParam_token token data id i dataI holds inside small order with
    ⟨param, one, turn⟩ | ⟨param, arrType, two, turn⟩
  · rw [one]
    exact checkTurn_next (turn _)
  · rw [two]
    exact @checkTurn_skip data id param (arrType :: params) i dataI _ types _ turn

/-- There is no turn after a parameter that is refused. -/
theorem not_next_of_failed {s c : CheckState} {param : UInt8} {params : List UInt8}
    {message : String} (begins : s.params = param :: params)
    (failed : checkParam data id param params.head? s.i s.dataI = .ok (.failed message)) :
    ¬ Next (checkTurn data id) s c := by
  intro next
  obtain ⟨all, i, dataI, types⟩ := s
  cases begins
  cases (checkTurn_failed failed).symm.trans next

/-- **A turn of the first walk over tokens goes past a token** that is asked for. -/
theorem token_of_next {tokens : List Token} {s c : CheckState}
    (holds : data.Holds s.dataI (tokens.flatMap Token.bytes ++ [EMessageMagic.endMark.code]))
    (inside : s.dataI + (tokens.flatMap Token.bytes).length < data.size)
    (small : data.size < 2 ^ 63) (order : s.i ≤ s.dataI) (supported : Supported s.params)
    (next : Next (checkTurn data id) s c) :
    ∃ token rest, tokens = token :: rest ∧ GoesPast s c token ∧ Supported c.params := by
  -- It is enough that the parameters begin with those of a token.
  have enough : ∀ token rest params, tokens = token :: rest → Supported params →
      s.params = token.params ++ params →
        ∃ token rest, tokens = token :: rest ∧ GoesPast s c token ∧ Supported c.params := by
    intro token rest params begins supported asks
    subst begins
    simp only [List.flatMap_cons, List.length_append, List.append_assoc] at holds inside
    have turn := @next_checkTurn data id token s params asks (View.holds_append.mp holds).1
      (by omega) small order
    cases Option.some.inj (next.symm.trans turn)
    exact ⟨token, rest, rfl, ⟨asks, rfl, rfl, rfl⟩, supported⟩
  obtain ⟨params, asked⟩ : ∃ params, s.params = params := ⟨_, rfl⟩
  rw [asked] at supported
  cases supported with
  | nil =>
      simp only [Next, checkTurn, asked] at next
      cases next
  | @plain magic params plain supported =>
      cases tokens with
      | nil =>
          refine absurd next (not_next_of_failed asked (checkParam_mismatch ?_ holds))
          exact EMessageMagic.ne_endMark_of_isPlain plain
      | cons token rest =>
          rw [List.flatMap_cons, List.append_assoc] at holds
          have head := (View.holds_append.mp holds).1
          rcases token.params_shape with
            ⟨tag, bytes, -, one, begins⟩ | ⟨kind, bytes, -, two, begins⟩
          · rw [begins] at head
            by_cases same : magic.code = tag.code
            · refine enough token rest params rfl supported ?_
              rw [asked, one, same, List.singleton_append]
            · exact absurd next (not_next_of_failed asked (checkParam_mismatch same head))
          · rw [begins] at head
            exact absurd next (not_next_of_failed asked
              (checkParam_mismatch (EMessageMagic.ne_typeArray_of_isPlain plain) head))
  | @array kind params plain supported =>
      cases tokens with
      | nil =>
          exact absurd next (not_next_of_failed asked (checkParam_mismatch (by decide) holds))
      | cons token rest =>
          rw [List.flatMap_cons, List.append_assoc] at holds
          have head := (View.holds_append.mp holds).1
          rcases token.params_shape with
            ⟨tag, bytes, other, one, begins⟩ | ⟨tag, bytes, -, two, begins⟩
          · rw [begins] at head
            exact absurd next (not_next_of_failed asked
              (checkParam_mismatch (EMessageMagic.ne_typeArray_of_isPlain other).symm head))
          · rw [begins] at head
            by_cases same : kind.code = tag.code
            · refine enough token rest params rfl supported ?_
              rw [asked, two, same]
              rfl
            · exact absurd next (not_next_of_failed asked
                (checkParam_array_mismatch same head))

/-- **The turns of the first walk** begin where the tokens do, and go past those that are asked
for. -/
theorem check_states {tokens : List Token} {s c : CheckState} {n : Nat}
    (holds : data.Holds s.dataI (tokens.flatMap Token.bytes ++ [EMessageMagic.endMark.code]))
    (inside : s.dataI + (tokens.flatMap Token.bytes).length < data.size)
    (small : data.size < 2 ^ 63) (order : s.i ≤ s.dataI) (supported : Supported s.params)
    (running : stateAfter (checkTurn data id) n s = some c) :
    n ≤ tokens.length ∧ s.params = (tokens.take n).flatMap Token.params ++ c.params ∧
      c.dataI = s.dataI + boundary tokens n ∧
      c.types = s.types ++ ((tokens.take n).flatMap Token.types).map some := by
  induction n generalizing tokens s with
  | zero =>
      cases running
      exact ⟨Nat.zero_le _, rfl, rfl, (List.append_nil _).symm⟩
  | succ n ih =>
      simp only [stateAfter] at running
      split at running
      · next s' next =>
        obtain ⟨token, rest, rfl, past, supported⟩ :=
          token_of_next holds inside small order supported next
        have shorter := token.length_params_le
        simp only [List.flatMap_cons, List.length_append, List.append_assoc] at holds inside
        obtain ⟨-, tail⟩ := View.holds_append.mp holds
        rw [← past.dataI] at tail
        obtain ⟨le, params, dataI, types⟩ := ih tail (by rw [past.dataI]; omega)
          (by rw [past.i, past.dataI]; omega) supported running
        refine ⟨Nat.succ_le_succ le, ?_, ?_, ?_⟩
        · rw [past.params, params, List.take_succ_cons, List.flatMap_cons, List.append_assoc]
        · rw [dataI, past.dataI, Nat.add_assoc]
          simp only [boundary, List.take_succ_cons, List.flatMap_cons, List.length_append]
        · rw [types, past.types, List.take_succ_cons, List.flatMap_cons, List.map_append,
            List.append_assoc]
      · cases running

end Check

/-! ## The types and the values -/

/-- The C type of a value is the one described. Words of the three four-byte types are alike. -/
inductive HasType : Value → FfiType → Prop
  | uint32 (bits : UInt32) : HasType (.word bits) .uint32
  | sint32 (bits : UInt32) : HasType (.word bits) .sint32
  | float (bits : UInt32) : HasType (.word bits) .float
  | string (bytes : Str) : HasType (.string bytes) .pointer
  | words (elements : List UInt32) : HasType (.words elements) .pointer
  | strings (elements : List Str) : HasType (.strings elements) .pointer

theorem hasType_word (magic : EMessageMagic) (bits : UInt32) :
    HasType (.word bits) (Token.wordType magic) := by
  cases magic with
  | typeInt => exact .sint32 bits
  | typeF32 => exact .float bits
  | _ => exact .uint32 bits

/-- The values of a token have its types. -/
theorem token_typed (token : Token) : List.Forall₂ HasType token.values token.types := by
  cases token with
  | word magic bits => exact .cons (hasType_word magic.val bits) .nil
  | varchar string => exact .cons (.string _) .nil
  | fd number => exact .cons (.sint32 number) .nil
  | words magic length elements counted => exact .cons (.words elements) (.cons (.uint32 _) .nil)
  | varchars length elements counted => exact .cons (.strings _) (.cons (.uint32 _) .nil)
  | fds length elements counted => exact .cons (.words elements) (.cons (.uint32 _) .nil)

/-- So the values of some tokens are as many as their types. -/
theorem length_flatMap_values (tokens : List Token) :
    (tokens.flatMap Token.values).length = (tokens.flatMap Token.types).length := by
  induction tokens with
  | nil => rfl
  | cons token tokens ih =>
      rw [List.flatMap_cons, List.flatMap_cons, List.length_append, List.length_append, ih,
        (token_typed token).length_eq]

/-- What is at a place of the first tokens belongs to one of them. -/
theorem exists_token_at {β : Type} {f : Token → List β} {tokens : List Token} {last k : Nat}
    {x : β} (has : ((tokens.take last).flatMap f)[k]? = some x) :
    ∃ n token, n < last ∧ tokens[n]? = some token ∧
      ((tokens.take n).flatMap f).length ≤ k ∧
      (f token)[k - ((tokens.take n).flatMap f).length]? = some x := by
  induction last with
  | zero => cases has
  | succ last ih =>
      cases is : tokens[last]? with
      | none =>
          rw [List.take_add_one, is, Option.toList_none, List.append_nil] at has
          obtain ⟨n, token, lt, rest⟩ := ih has
          exact ⟨n, token, Nat.lt_succ_of_lt lt, rest⟩
      | some token =>
          rw [flatMap_take_succ _ is, List.getElem?_append] at has
          split at has
          · obtain ⟨n, token, lt, rest⟩ := ih has
            exact ⟨n, token, Nat.lt_succ_of_lt lt, rest⟩
          · next behind =>
              exact ⟨last, token, Nat.lt_succ_self _, is, Nat.le_of_not_lt behind, has⟩

/-- What a token has is at its place of what all of them have. -/
theorem getElem?_flatMap {β : Type} {f : Token → List β} {tokens : List Token} {n k : Nat}
    {token : Token} (has : tokens[n]? = some token)
    (before : ((tokens.take n).flatMap f).length ≤ k) {x : β}
    (own : (f token)[k - ((tokens.take n).flatMap f).length]? = some x) :
    (tokens.flatMap f)[k]? = some x := by
  have split : tokens.flatMap f =
      (tokens.take n).flatMap f ++ (f token ++ (tokens.drop (n + 1)).flatMap f) := by
    rw [← flatMap_drop _ has, ← List.flatMap_append, List.take_append_drop]
  rw [split, List.getElem?_append_right before]
  obtain ⟨inside, -⟩ := List.getElem?_eq_some_iff.mp own
  rwa [List.getElem?_append_left inside]

/-- A type of a token is the one of the value at its place. -/
theorem exists_value {token : Token} {k : Nat} {type : FfiType}
    (has : token.types[k]? = some type) :
    ∃ value, token.values[k]? = some value ∧ HasType value type := by
  obtain ⟨inside, rfl⟩ := List.getElem?_eq_some_iff.mp has
  obtain ⟨same, each⟩ := List.forall₂_iff_get.mp (token_typed token)
  have within : k < token.values.length := by rwa [same]
  exact ⟨token.values[k], List.getElem?_eq_getElem within, each k within inside⟩

theorem pointees_eq_some {types : List (Option FfiType)} {found : List FfiType}
    (all : pointees types = some found) : types = found.map some := by
  induction types generalizing found with
  | nil =>
      cases all
      rfl
  | cons type types ih =>
      cases type with
      | none => cases all
      | some type =>
          rw [pointees, Option.map_eq_some_iff] at all
          obtain ⟨rest, behind, rfl⟩ := all
          rw [ih behind, List.map_cons]

/-- **A listener is called after both walks**: the first one has found the types, and the second
one has given the values. -/
theorem checked_of_invoke {method : SMethod} {fn fn' : Callback} {id : UInt32} {data : View}
    {fds : List Fd} {types : List FfiType} {values : List Value}
    (called : callListener method fn id data fds = some (.ok (.invoke fn' types values))) :
    typeCheck data id method.wireParams 0 0 = .ok (.ok (types.map some)) ∧
      demarshal data fds = some (.ok (.ok values)) := by
  rw [callListener] at called
  split at called
  · cases called
  · cases called
  · next checked found =>
    rw [ffiPrepCif] at called
    cases all : pointees checked with
    | none =>
        rw [all] at called
        cases called
    | some known =>
        rw [all] at called
        simp only [Option.map_eq_some_iff] at called
        obtain ⟨result, walked, called⟩ := called
        cases result with
        | error fault => cases called
        | ok result =>
            cases result with
            | error message => cases called
            | ok values =>
                cases called
                rw [found, pointees_eq_some all]
                exact ⟨rfl, walked⟩

/-- The first walk has gone through the parameters then. -/
theorem walks_of_invoke {method : SMethod} {fn fn' : Callback} {id : UInt32} {data : View}
    {fds : List Fd} {types : List FfiType} {values : List Value}
    (called : callListener method fn id data fds = some (.ok (.invoke fn' types values))) :
    (∃ n c, stateAfter (checkTurn data id) n (firstCheck method) = some c ∧
        c.types = types.map some) ∧
      demarshal data fds = some (.ok (.ok values)) := by
  obtain ⟨checked, walked⟩ := checked_of_invoke called
  have exits := typeCheck_exits data id (firstCheck method)
  change Exits _ _ ((typeCheck data id method.wireParams 0 0).map _) at exits
  rw [checked] at exits
  obtain ⟨⟨params, i, dataI, ends⟩, reaches, leaves⟩ := exits_iff.mp exits
  obtain ⟨n, running⟩ := reaches_iff_stateAfter.mp reaches
  refine ⟨⟨n, _, running, ?_⟩, walked⟩
  rw [checkTurn] at leaves
  split at leaves
  · cases leaves
    rfl
  · split at leaves <;> cases leaves

/-! ## Agreement -/

/-- Every length prefix that the decoder reads ends within four bytes. -/
def EndsInFour (data : View) (offset : Nat) (fds : List Fd) : Prop :=
  ∀ s bytes, Reaches (elementTurn data offset) (firstElement fds) s →
    ReadPrefix data offset s.i bytes → bytes.length ≤ 4

/-- Such a prefix is not negative. -/
theorem EndsInFour.unsigned {data : View} {offset : Nat} {fds : List Fd}
    (short : EndsInFour data offset fds) : Unsigned data offset fds := by
  intro s bytes reaches read
  rw [signedLength_eq (short s bytes reaches read)]
  exact Int.natCast_nonneg _

/-- The turns of the walks over a message begin at the same places of its data, which the
decoder has at index 11 of the message. -/
structure SameBoundaries (data : View) (offset : Nat) (fds : List Fd)
    (msg : CGenericProtocolMessage) (id : UInt32) (method : SMethod) : Prop where
  /-- the decoder stays inside the data -/
  inside : ∀ n s, stateAfter (elementTurn data offset) n (firstElement fds) = some s →
    s.i < 11 + msg.dataSpan.size
  /-- the second walk goes as far as the decoder -/
  value : ∀ n s, stateAfter (elementTurn data offset) n (firstElement fds) = some s →
    ∃ t, stateAfter (demarshalTurn msg.dataSpan msg.fds) n firstValue = some t ∧ s.i = 11 + t.i
  /-- and no further -/
  value_only : ∀ n t, stateAfter (demarshalTurn msg.dataSpan msg.fds) n firstValue = some t →
    ∃ s, stateAfter (elementTurn data offset) n (firstElement fds) = some s ∧ s.i = 11 + t.i
  /-- nor does the first -/
  check_only : ∀ n c, stateAfter (checkTurn msg.dataSpan id) n (firstCheck method) = some c →
    ∃ s, stateAfter (elementTurn data offset) n (firstElement fds) = some s ∧
      s.i = 11 + c.dataI

/-- The types from position `before` on are found at an element on the wire: there is a turn of
the first walk that finds them, and the decoder has the bytes and the descriptors of the
element before it in that turn. -/
def Matched (data : View) (offset : Nat) (fds : List Fd) (msg : CGenericProtocolMessage)
    (id : UInt32) (method : SMethod) (token : Token) (before : Nat) : Prop :=
  ∃ n s c c', stateAfter (elementTurn data offset) n (firstElement fds) = some s ∧
    stateAfter (checkTurn msg.dataSpan id) n (firstCheck method) = some c ∧
    stateAfter (checkTurn msg.dataSpan id) (n + 1) (firstCheck method) = some c' ∧
    s.i = 11 + c.dataI ∧ msg.dataSpan.Holds c.dataI token.bytes ∧ token.descriptors <+: s.fds ∧
    c.types.length = before ∧ c'.types = c.types ++ token.types.map some

/-- Each type has the value at its place: of that type, and given by the element on the wire
that the type was found at. -/
structure Passed (data : View) (offset : Nat) (fds : List Fd) (msg : CGenericProtocolMessage)
    (id : UInt32) (method : SMethod) (types : List FfiType) (values : List Value) : Prop where
  enough : types.length ≤ values.length
  each : ∀ k type, types[k]? = some type → ∃ value token before,
    values[k]? = some value ∧ HasType value type ∧
      Matched data offset fds msg id method token before ∧ before ≤ k ∧
      token.types[k - before]? = some type ∧ token.values[k - before]? = some value

section Agree

variable {data : View} {offset : Nat} {rest : List Fd} {msg : CGenericProtocolMessage}
  {tokens : List Token} {id : UInt32} {method : SMethod}

/-- A message of tokens in its buffer. -/
structure LiesIn (msg : CGenericProtocolMessage) (tokens : List Token) (data : View)
    (offset : Nat) : Prop where
  madeOf : MadeOf msg tokens
  holds : data.Holds (offset + 11) (tokens.flatMap Token.bytes ++ [EMessageMagic.endMark.code])
  inside : offset + 11 + (tokens.flatMap Token.bytes).length < data.size
  small : data.size < 2 ^ 63

/-- The turns of the first walk over a message. -/
theorem LiesIn.check (lies : LiesIn msg tokens data offset) (supported : Supported method.params)
    {n : Nat} {c : CheckState}
    (running : stateAfter (checkTurn msg.dataSpan id) n (firstCheck method) = some c) :
    n ≤ tokens.length ∧ c.dataI = boundary tokens n ∧
      c.types = ((tokens.take n).flatMap Token.types).map some := by
  have madeOf := lies.madeOf
  obtain ⟨le, -, dataI, types⟩ := check_states madeOf.payload
    (by rw [madeOf.size]; exact Nat.lt_succ_of_le (Nat.le_of_eq (Nat.zero_add _))) madeOf.small
    (Nat.le_refl 0) supported.wireParams running
  exact ⟨le, dataI.trans (Nat.zero_add _), types.trans (List.nil_append _)⟩

theorem LiesIn.sameBoundaries (lies : LiesIn msg tokens data offset)
    (supported : Supported method.params) :
    SameBoundaries data offset (tokens.flatMap Token.descriptors ++ rest) msg id method := by
  have madeOf := lies.madeOf
  have decoder := fun n s => @decoder_states data tokens offset rest lies.holds lies.inside
    lies.small n s
  have value := fun n t => @value_states msg.dataSpan tokens madeOf.payload madeOf.inside
    madeOf.small n t
  rw [← madeOf.fds] at value
  refine ⟨?_, ?_, ?_, ?_⟩
  · intro n s running
    obtain ⟨-, rfl⟩ := (decoder n s).mp running
    have place := boundary_le tokens n
    have size := madeOf.size
    simp only [decoderAt]
    omega
  · intro n s running
    obtain ⟨le, rfl⟩ := (decoder n s).mp running
    exact ⟨valueAt tokens n, (value n _).mpr ⟨le, rfl⟩, rfl⟩
  · intro n t running
    obtain ⟨le, rfl⟩ := (value n t).mp running
    exact ⟨decoderAt tokens rest n, (decoder n _).mpr ⟨le, rfl⟩, rfl⟩
  · intro n c running
    obtain ⟨le, dataI, -⟩ := lies.check supported running
    exact ⟨decoderAt tokens rest n, (decoder n _).mpr ⟨le, rfl⟩, by rw [dataI, decoderAt]⟩

/-- The tokens that the first walk goes past are matched to their types. -/
theorem LiesIn.matched (lies : LiesIn msg tokens data offset) (supported : Supported method.params)
    {last n : Nat} {c : CheckState}
    (running : stateAfter (checkTurn msg.dataSpan id) last (firstCheck method) = some c)
    (lt : n < last) {token : Token} (is : tokens[n]? = some token) :
    Matched data offset (tokens.flatMap Token.descriptors ++ rest) msg id method token
      ((tokens.take n).flatMap Token.types).length := by
  obtain ⟨first, running₁, -⟩ := exists_stateAfter_of_le (Nat.le_of_lt lt) running
  obtain ⟨second, running₂, -⟩ := exists_stateAfter_of_le (Nat.succ_le_of_lt lt) running
  obtain ⟨le, dataI, types₁⟩ := lies.check supported running₁
  obtain ⟨-, -, types₂⟩ := lies.check supported running₂
  have decoder := (@decoder_states data tokens offset rest lies.holds lies.inside lies.small n
    _).mpr ⟨le, rfl⟩
  refine ⟨n, _, first, second, decoder, running₁, running₂, ?_, ?_, ?_, ?_, ?_⟩
  · rw [dataI, decoderAt]
  · have here := holds_token lies.madeOf.payload is
    rwa [Nat.zero_add, ← dataI] at here
  · simp only [decoderAt, flatMap_drop _ is, List.append_assoc]
    exact List.prefix_append _ _
  · rw [types₁, List.length_map]
  · rw [types₂, types₁, flatMap_take_succ _ is, List.map_append]

/-- **What is passed to the listener** is what lies on the wire. -/
theorem LiesIn.passed (lies : LiesIn msg tokens data offset) (supported : Supported method.params)
    {fn fn' : Callback} {types : List FfiType} {values : List Value}
    (called : callListener method fn id msg.dataSpan msg.fds =
      some (.ok (.invoke fn' types values))) :
    Passed data offset (tokens.flatMap Token.descriptors ++ rest) msg id method types values := by
  have madeOf := lies.madeOf
  obtain ⟨⟨last, c, running, found⟩, walked⟩ := walks_of_invoke called
  rw [madeOf.fds, demarshal_tokens madeOf.payload madeOf.inside madeOf.small] at walked
  cases walked
  obtain ⟨-, -, all⟩ := lies.check supported running
  obtain rfl : types = (tokens.take last).flatMap Token.types :=
    List.map_injective_iff.mpr (Option.some_injective _) (found.symm.trans all)
  have split : tokens.flatMap Token.values = (tokens.take last).flatMap Token.values ++
      (tokens.drop last).flatMap Token.values := by
    rw [← List.flatMap_append, List.take_append_drop]
  refine ⟨?_, ?_⟩
  · rw [split, List.length_append, length_flatMap_values]
    exact Nat.le_add_right _ _
  · intro k type has
    obtain ⟨n, token, lt, is, before, own⟩ := exists_token_at has
    have matched := @LiesIn.matched data offset rest msg tokens id method lies supported last n c
      running lt token is
    obtain ⟨value, given, typed⟩ := exists_value own
    have place : (tokens.flatMap Token.values)[k]? = some value := by
      rw [← length_flatMap_values] at before given
      exact getElem?_flatMap is before given
    exact ⟨value, token, _, place, typed, matched, before, own, given⟩

end Agree

/-- An accepted message whose prefixes end within four bytes lies in its buffer. -/
theorem exists_liesIn {v : ByteVec} {outside : Nat → Option UInt8} {offset : Nat}
    {fds rest : List Fd} {msg : CGenericProtocolMessage}
    (accepted : decode (v.viewIn outside) fds offset = some (.ok (msg, rest)))
    (length : msg.len ≠ 0) (short : EndsInFour (v.viewIn outside) offset fds) :
    ∃ tokens, fds = tokens.flatMap Token.descriptors ++ rest ∧
      LiesIn msg tokens (v.viewIn outside) offset := by
  obtain ⟨tokens, madeOf, queue, room⟩ :=
    accepted_madeOf (filled_viewIn v outside) v.length_lt accepted length short.unsigned
  obtain ⟨object, method, last, -, -, -, -, message⟩ := decode_accepts.mp ⟨accepted, length⟩
  have size := madeOf.size
  refine ⟨tokens, queue, madeOf, ?_, by omega, v.length_lt⟩
  have payload := madeOf.payload
  cases message
  exact (@View.holds_span _ (offset + 11) _ 0 _).mp payload

/-- **The three walks over a generic message agree**: for every message that the decoder accepts
and whose length prefixes end within four bytes, and every method over the supported types, they
begin their turns at the same places, the second walk uses no descriptor that is not there, and
a listener is called with values of the types that were found, each given by the element that
its type was found at. -/
theorem walks_agree {v : ByteVec} {outside : Nat → Option UInt8} {offset : Nat}
    {fds rest : List Fd} {msg : CGenericProtocolMessage}
    (accepted : decode (v.viewIn outside) fds offset = some (.ok (msg, rest)))
    (length : msg.len ≠ 0) (short : EndsInFour (v.viewIn outside) offset fds)
    (object : IWireObject) (methods : List SMethod) (id : UInt32) {method : SMethod}
    (found : methods[id.toNat]? = some method) (supported : Supported method.params) :
    SameBoundaries (v.viewIn outside) offset fds msg id method ∧
      (∃ values, demarshal msg.dataSpan msg.fds = some (.ok (.ok values))) ∧
      ∀ fn types values,
        object.called methods id msg.dataSpan msg.fds = some (.ok (.invoke fn types values)) →
          Passed (v.viewIn outside) offset fds msg id method types values := by
  obtain ⟨tokens, rfl, lies⟩ := exists_liesIn accepted length short
  refine ⟨lies.sameBoundaries supported, ?_, ?_⟩
  · rw [lies.madeOf.fds]
    exact ⟨_, demarshal_tokens lies.madeOf.payload lies.madeOf.inside lies.madeOf.small⟩
  · intro fn types values called
    rw [IWireObject.called, found] at called
    dsimp only at called
    split at called
    · cases called
    · split at called
      · cases called
      · exact lies.passed supported called

/-- A call of method 0 of object 5 with the string `h`, and the word 7 behind it. -/
def greeting : ByteVec :=
  ⟨[100, 0x22, 5, 0, 0, 0, 0x10, 0, 0, 0, 0, 0x20, 1, 104, 0x10, 7, 0, 0, 0, 0], by decide⟩

theorem one_short : 1 < 2 ^ 28 := by decide

theorem letter_fits : ([104] : Str).length = (Length.ofNat 1 one_short).value := rfl

theorem typeUint_isWord : EMessageMagic.typeUint.IsWord = true := rfl

/-- The elements of the call. -/
def greetingTokens : List Token :=
  [.varchar ⟨.ofNat 1 one_short, [104], letter_fits⟩, .word ⟨.typeUint, typeUint_isWord⟩ 7]

/-- The message it is. -/
def greetingMessage : CGenericProtocolMessage where
  object := 5
  method := 0
  len := 20
  dataSpan := greeting.strict.span 11 9

/-- A method that takes a string, and an object that listens to it. -/
def greeted : SMethod where
  params := [0x20]

def greeter : IWireObject where
  listeners := [some 3]

theorem greeting_holds : greeting.strict.Holds (0 + 11)
    (greetingTokens.flatMap Token.bytes ++ [EMessageMagic.endMark.code]) :=
  @ByteVec.holds_strict greeting (greeting.data.take 11) _ [] rfl

/-- The prefix of the string is one byte. -/
theorem greeting_endsInFour : EndsInFour greeting.strict 0 [] := by
  intro s bytes reaches read
  obtain ⟨n, running⟩ := reaches_iff_stateAfter.mp reaches
  obtain ⟨le, rfl⟩ := (@decoder_states _ greetingTokens 0 [] greeting_holds (by decide) (by decide)
    n s).mp running
  have place : n = 0 ∨ n = 1 ∨ n = 2 := by
    change n ≤ 2 at le
    omega
  rcases place with rfl | rfl | rfl
  · have tagged : greeting.strict.checkedAt (wrap (0 + 11)) =
        .ok EMessageMagic.typeVarchar.code := rfl
    cases read with
    | varchar tag lies =>
        have one : PrefixAt greeting.strict 12 (wrapSub greeting.strict.size 12)
            (encodeVarInt 1) :=
          (Length.ofNat 1 one_short).prefixAt
            (@ByteVec.holds_strict greeting (greeting.data.take 12) _ (greeting.data.drop 13) rfl)
            (by decide)
        have same := congrArg Prod.snd
          (Except.ok.inj (lies.parseVarInt.symm.trans one.parseVarInt))
        exact same.le.trans (length_encodeVarInt one_short)
    | array tag _ _ => cases tag.symm.trans tagged
    | string tag _ _ _ _ _ => cases tag.symm.trans tagged
  · have tagged : greeting.strict.checkedAt (wrap (0 + 14)) = .ok EMessageMagic.typeUint.code := rfl
    cases read with
    | varchar tag _ => cases tag.symm.trans tagged
    | array tag _ _ => cases tag.symm.trans tagged
    | string tag _ _ _ _ _ => cases tag.symm.trans tagged
  · have tagged : greeting.strict.checkedAt (wrap (0 + 19)) = .ok EMessageMagic.endMark.code := rfl
    cases read with
    | varchar tag _ => cases tag.symm.trans tagged
    | array tag _ _ => cases tag.symm.trans tagged
    | string tag _ _ _ _ _ => cases tag.symm.trans tagged

/-- The string is passed, and the word after it as well. -/
theorem walks_agree_greeting : ∃ types values,
    greeter.called [greeted] 0 greetingMessage.dataSpan greetingMessage.fds =
        some (.ok (.invoke 3 types values)) ∧
      Passed greeting.strict 0 [] greetingMessage 0 greeted types values := by
  have holds := greeting_holds
  have accepted : decode greeting.strict [] 0 = some (.ok (greetingMessage, [])) :=
    @decode_tokens _ 0 5 0 greetingTokens [] rfl holds (by decide) (by decide)
  have short := greeting_endsInFour
  rw [← ByteVec.viewIn_none] at accepted short ⊢
  have agree := walks_agree accepted (by decide) short greeter [greeted] 0
    (show [greeted][(0 : UInt32).toNat]? = some greeted from rfl)
    (@Supported.plain .typeVarchar [] rfl .nil)
  have payload : greetingMessage.dataSpan.Holds 0
      (greetingTokens.flatMap Token.bytes ++ [EMessageMagic.endMark.code]) :=
    View.holds_span.mpr holds
  have checked := @typeCheck_tokens greetingMessage.dataSpan 0 (greetingTokens.take 1) 0 0
    (@View.holds_append _ 0 _ [0x10, 7, 0, 0, 0, 0] |>.mp payload).1 (by decide) (by decide)
    (Nat.le_refl 0)
  have values := @demarshal_tokens greetingMessage.dataSpan greetingTokens payload (by decide)
    (by decide)
  have called : greeter.called [greeted] 0 greetingMessage.dataSpan greetingMessage.fds =
      some (.ok (.invoke 3 [.pointer] (greetingTokens.flatMap Token.values))) := by
    change callListener greeted 3 0 greetingMessage.dataSpan
      (greetingTokens.flatMap Token.descriptors) = _
    have asks : greeted.wireParams = (greetingTokens.take 1).flatMap Token.params := rfl
    rw [callListener, asks, checked]
    simp only [ffiPrepCif_map_some, values]
    rfl
  exact ⟨_, _, called, agree.2.2 _ _ _ called⟩

end Hyprwire.Object
