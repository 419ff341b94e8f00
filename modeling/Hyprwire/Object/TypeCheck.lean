import Hyprwire.Object.Walks

/-!
# What the first walk refuses

The first walk of `called` follows the parameters of the method, and stops with the last of
them. So it finds a parameter that is not on the wire, but nothing that is there behind the
parameters. `differs` compares the parameters with the magics on the wire in this way, and
`typeCheck_finds` says that the walk raises an error exactly there, and never leaves the
data. `callListener_error_iff` is the same for the whole call: behind the first walk no
error is raised over data made of tokens.
-/

set_option autoImplicit false

namespace Hyprwire.Wire

/-- The magics of the parameters that are not arrays, which the elements of arrays have too. -/
def EMessageMagic.IsPlain : EMessageMagic → Bool
  | .typeVarchar | .typeFd => true
  | magic => magic.IsWord

theorem EMessageMagic.isPlain_of_isWord {magic : EMessageMagic} (primitive : magic.IsWord = true) :
    magic.IsPlain = true := by
  cases magic <;> first | exact primitive | rfl

theorem EMessageMagic.ne_typeArray_of_isPlain {magic : EMessageMagic}
    (plain : magic.IsPlain = true) :
    magic.code ≠ EMessageMagic.typeArray.code := by
  cases magic <;> first | exact absurd plain (by decide) | decide

theorem EMessageMagic.ne_endMark_of_isPlain {magic : EMessageMagic}
    (plain : magic.IsPlain = true) :
    magic.code ≠ EMessageMagic.endMark.code := by
  cases magic <;> first | exact absurd plain (by decide) | decide

/-- An element begins with the magics it is asked for with: one, or the two of an array. -/
theorem Token.params_shape (token : Token) :
    (∃ (magic : EMessageMagic) (rest : List UInt8), magic.IsPlain = true ∧
        token.params = [magic.code] ∧
        token.bytes = magic.code :: rest) ∨
      ∃ (kind : EMessageMagic) (rest : List UInt8), kind.IsPlain = true ∧
        token.params = [EMessageMagic.typeArray.code, kind.code] ∧
        token.bytes = EMessageMagic.typeArray.code :: kind.code :: rest := by
  cases token with
  | word magic bits => exact .inl ⟨_, _, EMessageMagic.isPlain_of_isWord magic.property, rfl, rfl⟩
  | varchar string => exact .inl ⟨.typeVarchar, _, rfl, rfl, rfl⟩
  | fd number => exact .inl ⟨.typeFd, _, rfl, rfl, rfl⟩
  | words magic length elements counted =>
      exact .inr ⟨_, _, EMessageMagic.isPlain_of_isWord magic.property, rfl, rfl⟩
  | varchars length elements counted => exact .inr ⟨.typeVarchar, _, rfl, rfl, rfl⟩
  | fds length elements counted => exact .inr ⟨.typeFd, _, rfl, rfl, rfl⟩

end Hyprwire.Wire

namespace Hyprwire.Object

open Cpp Wire

/-- The parameters differ from the magics on the wire, at a place where there is a parameter.
Behind the magics comes `END`, which the walk does not go past; a parameter that is `END`
itself takes the next one with it. -/
def differs : List UInt8 → List UInt8 → Bool
  | [], _ => false
  | [param], [] => param != EMessageMagic.endMark.code
  | param :: _ :: params, [] => param != EMessageMagic.endMark.code || differs params []
  | param :: params, wire :: wires => param != wire || differs params wires

@[simp] theorem differs_nil (wires : List UInt8) : differs [] wires = false := by
  cases wires <;> rfl

@[simp] theorem differs_cons_cons (param wire : UInt8) (params wires : List UInt8) :
    differs (param :: params) (wire :: wires) = (param != wire || differs params wires) := by
  cases params <;> rfl

/-- What the walk finds over data made of tokens: an error exactly where the parameters
differ, the types, or an array without the kind of its elements. -/
inductive Finds : Bool → Except Fault Checked → Prop
  | error (message : String) : Finds true (.ok (.error message))
  | types (types : List (Option FfiType)) : Finds false (.ok (.ok types))
  | last : Finds false (.error .outOfRange)

namespace Finds

variable {differ : Bool} {run : Except Fault Checked}

/-- The types before the rest of the walk do not matter. -/
theorem after (finds : Finds differ run) (types : List (Option FfiType)) :
    Finds differ (run >>= fun rest => pure (rest.after types)) := by
  cases finds with
  | error message => exact .error message
  | types rest => exact .types (types ++ rest)
  | last => exact .last

theorem error_iff (finds : Finds differ run) :
    (∃ message, run = .ok (.error message)) ↔ differ = true := by
  cases finds with
  | error message => exact iff_of_true ⟨message, rfl⟩ rfl
  | types rest =>
      refine iff_of_false ?_ Bool.false_ne_true
      rintro ⟨message, ⟨⟩⟩
  | last =>
      refine iff_of_false ?_ Bool.false_ne_true
      rintro ⟨message, ⟨⟩⟩

end Finds

section Walk

variable {data : View} {id : UInt32} {i dataI : Nat}

/-- Another magic than the parameter's is refused. -/
theorem checkParam_mismatch {param wire : UInt8} (other : param ≠ wire)
    {following : Option UInt8} {rest : List UInt8} (holds : data.Holds dataI (wire :: rest)) :
    checkParam data id param following i dataI = .ok (.failed (mismatch id i param wire)) := by
  rw [checkParam, View.rawAt_of_holds holds, ok_bind, if_pos other]
  rfl

/-- Another magic than the one of the parameter's elements is refused. -/
theorem checkParam_array_mismatch {param wire : UInt8} (other : param ≠ wire)
    {rest : List UInt8} (holds : data.Holds dataI (EMessageMagic.typeArray.code :: wire :: rest)) :
    checkParam data id EMessageMagic.typeArray.code (some param) i dataI =
      .ok (.failed (mismatch id (i + 1) EMessageMagic.typeArray.code
        EMessageMagic.typeArray.code)) := by
  have second := View.rawAt_of_holds (View.holds_cons.mp holds).2
  rw [checkParam, View.rawAt_of_holds holds, ok_bind, if_neg (not_not.mpr rfl),
    EMessageMagic.ofByte_code]
  simp only [second, ok_bind, if_pos other]
  rfl

/-- An array is not the last parameter. -/
theorem checkParam_array_last {rest : List UInt8}
    (holds : data.Holds dataI (EMessageMagic.typeArray.code :: rest)) :
    checkParam data id EMessageMagic.typeArray.code none i dataI = .error .outOfRange := by
  rw [checkParam, View.rawAt_of_holds holds, ok_bind, if_neg (not_not.mpr rfl),
    EMessageMagic.ofByte_code]
  rfl

/-- An `END` that is asked for takes the next parameter with it. -/
theorem checkParam_endMark {following : Option UInt8}
    (holds : data.Holds dataI [EMessageMagic.endMark.code]) :
    checkParam data id EMessageMagic.endMark.code following i dataI = .ok (.skip [none] dataI) := by
  rw [checkParam, View.rawAt_of_holds holds, ok_bind, if_neg (not_not.mpr rfl),
    EMessageMagic.ofByte_code]
  rfl

/-- A parameter that is refused differs. -/
theorem finds_of_failed {param wire : UInt8} {params : List UInt8} {message : String} {more : Bool}
    (failed : checkParam data id param params.head? i dataI = .ok (.failed message))
    (other : param ≠ wire) :
    Finds (param != wire || more) (typeCheck data id (param :: params) i dataI) := by
  rw [bne_iff_ne.mpr other, typeCheck, failed]
  exact .error message

/-- A parameter that is there does not differ. -/
theorem same_or (param : UInt8) (more : Bool) : (param != param || more) = more := by
  rw [bne_self_eq_false, Bool.false_or]

/-- The walk at the `END` of the data. -/
theorem typeCheck_finds_end {params : List UInt8}
    (holds : data.Holds dataI [EMessageMagic.endMark.code]) :
    Finds (differs params []) (typeCheck data id params i dataI) := by
  induction params using List.twoStepInduction generalizing i with
  | nil => exact .types []
  | singleton param =>
      by_cases same : param = EMessageMagic.endMark.code
      · subst same
        rw [typeCheck, checkParam_endMark holds]
        exact .types [none]
      · rw [differs, ← Bool.or_false (param != _)]
        exact finds_of_failed (checkParam_mismatch same holds) same
  | cons_cons param next params ih _ =>
      rw [differs]
      by_cases same : param = EMessageMagic.endMark.code
      · subst same
        rw [same_or, typeCheck, checkParam_endMark holds]
        exact ih.after [none]
      · exact finds_of_failed (checkParam_mismatch same holds) same

/-- What the parameters are to a token at which the walk is. -/
inductive AtToken (token : Token) (params : List UInt8) (run : Except Fault Checked) : Prop
  | finished (none : params = [])
  | asked (rest : List UInt8) (begins : params = token.params ++ rest)
  | refused (differ : ∀ wires, differs params (token.params ++ wires) = true) (message : String)
      (failed : run = .ok (.error message))
  | last (same : ∀ wires, differs params (token.params ++ wires) = false)
      (failed : run = .error .outOfRange)

/-- A parameter that is refused at a token. -/
theorem AtToken.of_failed {token : Token} {param wire : UInt8} {params wires : List UInt8}
    {message : String} (magics : token.params = wire :: wires) (other : param ≠ wire)
    (failed : checkParam data id param params.head? i dataI = .ok (.failed message)) :
    AtToken token (param :: params) (typeCheck data id (param :: params) i dataI) := by
  refine .refused (fun others => ?_) message ?_
  · rw [magics, List.cons_append, differs_cons_cons, bne_iff_ne.mpr other, Bool.true_or]
  · rw [typeCheck, failed]
    rfl

/-- **The walk at a token.** -/
theorem typeCheck_atToken (token : Token) {params : List UInt8}
    (holds : data.Holds dataI token.bytes) :
    AtToken token params (typeCheck data id params i dataI) := by
  cases params with
  | nil => exact .finished rfl
  | cons param params =>
      rcases token.params_shape with ⟨tag, rest, -, one, bytes⟩ | ⟨kind, rest, -, two, bytes⟩
      · rw [bytes] at holds
        by_cases same : param = tag.code
        · exact .asked params (by rw [one, same, List.singleton_append])
        · exact .of_failed one same (checkParam_mismatch same holds)
      · rw [bytes] at holds
        by_cases same : param = EMessageMagic.typeArray.code
        · subst same
          cases params with
          | nil =>
              refine .last (fun wires => ?_) ?_
              · rw [two, List.cons_append, differs_cons_cons, same_or, differs_nil]
              · rw [typeCheck, List.head?_nil, checkParam_array_last holds]
                rfl
          | cons param params =>
              by_cases same : param = kind.code
              · exact .asked params (by rw [two, same]; rfl)
              · refine .refused (fun wires => ?_) (mismatch id (i + 1)
                  EMessageMagic.typeArray.code EMessageMagic.typeArray.code) ?_
                · rw [two, List.cons_append, List.cons_append, differs_cons_cons, same_or,
                    differs_cons_cons, bne_iff_ne.mpr same, Bool.true_or]
                · rw [typeCheck, List.head?_cons, checkParam_array_mismatch same holds]
                  rfl
        · exact .of_failed two same (checkParam_mismatch same holds)

/-- The magics of a token do not differ from themselves. -/
theorem differs_append (magics params wires : List UInt8) :
    differs (magics ++ params) (magics ++ wires) = differs params wires := by
  induction magics with
  | nil => rfl
  | cons magic magics ih =>
      rw [List.cons_append, List.cons_append, differs_cons_cons, same_or, ih]

/-- **What the first walk finds** over data made of tokens, whatever the parameters. -/
theorem typeCheck_finds {tokens : List Token} {params : List UInt8}
    (holds : data.Holds dataI (tokens.flatMap Token.bytes ++ [EMessageMagic.endMark.code]))
    (inside : dataI + (tokens.flatMap Token.bytes).length < data.size) (small : data.size < 2 ^ 63)
    (order : i ≤ dataI) :
    Finds (differs params (tokens.flatMap Token.params)) (typeCheck data id params i dataI) := by
  induction tokens generalizing params i dataI with
  | nil => exact typeCheck_finds_end holds
  | cons token tokens ih =>
      simp only [List.flatMap_cons, List.append_assoc, List.length_append] at holds inside ⊢
      obtain ⟨head, tail⟩ := View.holds_append.mp holds
      have shorter := token.length_params_le
      cases @typeCheck_atToken data id i dataI token params head with
      | finished none =>
          rw [none, differs_nil]
          exact .types []
      | asked rest begins =>
          rw [begins, differs_append, typeCheck_token token head (by omega) small order,
            ← bind_after]
          exact (ih tail (by omega) (by omega)).after _
      | refused differ message failed =>
          rw [differ, failed]
          exact .error message
      | last same failed =>
          rw [same, failed]
          exact .last

end Walk

/-! ## The call -/

/-- **A listener is not called, and an error is raised,** exactly when the parameters of the
method differ from the magics on the wire. -/
theorem callListener_error_iff {method : SMethod} {fn : Callback} {id : UInt32} {data : View}
    {tokens : List Token}
    (holds : data.Holds 0 (tokens.flatMap Token.bytes ++ [EMessageMagic.endMark.code]))
    (inside : (tokens.flatMap Token.bytes).length < data.size) (small : data.size < 2 ^ 63) :
    (∃ message, callListener method fn id data (tokens.flatMap Token.descriptors) =
        some (.ok (.error message))) ↔
      differs method.wireParams (tokens.flatMap Token.params) = true := by
  have finds := @typeCheck_finds data id 0 0 tokens method.wireParams holds (by omega) small
    (Nat.le_refl 0)
  rw [← finds.error_iff]
  constructor
  · rintro ⟨message, called⟩
    rw [callListener] at called
    split at called
    · cases called
    · next message raised => exact ⟨message, raised⟩
    · next types _ =>
      split at called
      · cases called
      · cases called
      · rw [demarshal_tokens holds inside small] at called
        cases called
  · rintro ⟨message, raised⟩
    exact ⟨message, by rw [callListener, raised]⟩

end Hyprwire.Object
