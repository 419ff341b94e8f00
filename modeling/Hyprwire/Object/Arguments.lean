import Hyprwire.Object.Agree

/-!
# The descriptors that a listener is given

A descriptor is passed on as an argument of a listener: a single one as an `int`, those of
an array as its elements. `arguments` is the second walk of `called`, with the descriptors
that each value holds; `demarshal_eq_arguments` says that it is the same walk, and
`Carries` what holding means. `ffi_call` takes as many arguments as the first walk has found
types, and leaves the values behind them (`passedFds`, `passedFds_carried`).

What is passed on are always the first descriptors of the message, each once and in order
(`passedFds_first`). They are all of them exactly when the message `Lands`: a listener takes
it, and its parameters go as far as the descriptors (`passedFds_eq_iff`).
-/

set_option autoImplicit false

namespace Hyprwire.Object

open Cpp Wire CGenericProtocolMessage

/-! ## Arguments -/

/-- A value that a listener is called with, and the descriptors it holds. -/
structure Holding where
  value : Value
  fds : List Fd
  deriving DecidableEq, Repr

/-- A value holds no descriptors, or it is one, or an array of them. -/
inductive Carries : Value → List Fd → Prop
  | nothing (value : Value) : Carries value []
  | single (fd : Fd) : Carries (.word fd) [fd]
  | array (fds : List Fd) : Carries (.words fds) fds

/-- The values of an element, with its descriptors in the first one. -/
def holdings (fds : List Fd) : List Value → List Holding
  | [] => []
  | value :: values => ⟨value, fds⟩ :: values.map fun value => ⟨value, []⟩

/-- The second walk before an element, with the descriptors in the values. -/
structure HoldState where
  i : Nat
  fdNo : Nat
  args : List Holding
  deriving DecidableEq, Repr

/-- One turn of the second walk. The descriptors of an element are those that `fdNo` has
gone past. -/
def holdTurn (data : View) (fds : List Fd) (s : HoldState) :
    Option (Turn HoldState (Except Fault (Except String (List Holding)))) :=
  if s.i < data.size then
    match demarshalItem data fds s.i s.fdNo with
    | .ok (.next i fdNo values) =>
        let held := (fds.drop s.fdNo).take (fdNo - s.fdNo)
        some (.again { i, fdNo, args := s.args ++ holdings held values })
    | .ok .stop => some (.leave (.ok (.ok s.args)))
    | .ok (.failed message) => some (.leave (.ok (.error message)))
    | .error fault => some (.leave (.error fault))
  else
    some (.leave (.ok (.ok s.args)))

def firstHolding : HoldState := { i := 0, fdNo := 0, args := [] }

/-- The second walk, with the descriptors in the values. -/
def arguments (data : View) (fds : List Fd) :
    Option (Except Fault (Except String (List Holding))) :=
  loop (holdTurn data fds) (2 ^ 64 * (fds.length + 1)) firstHolding

/-- The descriptors in the arguments that `ffi_call` takes. -/
def passedFds (object : IWireObject) (methods : List SMethod) (id : UInt32) (data : View)
    (fds : List Fd) : List Fd :=
  match object.called methods id data fds, arguments data fds with
  | some (.ok (.invoke _ types _)), some (.ok (.ok args)) =>
      (args.take types.length).flatMap Holding.fds
  | _, _ => []

/-! ## What the values hold -/

@[simp] theorem map_value_holdings (fds : List Fd) (values : List Value) :
    (holdings fds values).map Holding.value = values := by
  cases values with
  | nil => rfl
  | cons value values => simp [holdings, Function.comp_def]

theorem flatMap_fds_holdings {fds : List Fd} {values : List Value}
    (some_ : values = [] → fds = []) : (holdings fds values).flatMap Holding.fds = fds := by
  cases values with
  | nil => rw [some_ rfl]; rfl
  | cons value values => simp [holdings, List.flatMap_map]

/-- An element that is walked over takes the next descriptors, if any, and has a value that
holds them. -/
theorem demarshalItem_carries {data : View} {fds : List Fd} {i fdNo i' fdNo' : Nat}
    {values : List Value} (item : demarshalItem data fds i fdNo = .ok (.next i' fdNo' values)) :
    ∃ count, fdNo' = fdNo + count ∧ (values = [] → count = 0) ∧
      ∀ value ∈ values.head?, Carries value ((fds.drop fdNo).take count) := by
  have nothing : fdNo' = fdNo → ∃ count, fdNo' = fdNo + count ∧ (values = [] → count = 0) ∧
      ∀ value ∈ values.head?, Carries value ((fds.drop fdNo).take count) := by
    rintro rfl
    exact ⟨0, rfl, fun _ => rfl, fun value _ => .nothing value⟩
  obtain ⟨param, -, rest⟩ := bind_eq_ok.mp item
  cases known : EMessageMagic.ofByte param with
  | none =>
      simp only [known, pure_eq_ok, Except.ok.injEq, Item.next.injEq] at rest
      exact nothing rest.2.1.symm
  | some magic =>
      simp only [known] at rest
      cases magic with
      | endMark => cases rest
      | typeObjectId => cases rest
      | typeVarchar =>
          obtain ⟨⟨strLen, len⟩, -, rest⟩ := bind_eq_ok.mp rest
          obtain ⟨str, -, rest⟩ := bind_eq_ok.mp rest
          cases rest
          exact nothing rfl
      | typeFd =>
          cases next : fds[fdNo]? with
          | none => simp [next] at rest
          | some fd =>
              simp only [next, pure_eq_ok, Except.ok.injEq, Item.next.injEq] at rest
              obtain ⟨-, rfl, rfl⟩ := rest
              have taken : (fds.drop fdNo).take 1 = [fd] := by
                obtain ⟨within, rfl⟩ := List.getElem?_eq_some_iff.mp next
                rw [List.drop_eq_getElem_cons within, List.take_succ_cons, List.take_zero]
              refine ⟨1, rfl, nofun, ?_⟩
              rintro value ⟨⟩
              rw [taken]
              exact .single fd
      | typeArray =>
          obtain ⟨arrType, -, rest⟩ := bind_eq_ok.mp rest
          obtain ⟨⟨arrLen, lenLen⟩, -, rest⟩ := bind_eq_ok.mp rest
          cases kind : EMessageMagic.ofByte arrType with
          | none => simp [kind] at rest
          | some magic =>
              simp only [kind] at rest
              cases magic with
              | endMark => cases rest
              | typeObjectId => cases rest
              | typeArray => cases rest
              | typeVarchar =>
                  obtain ⟨⟨elements, arrMessageLen⟩, -, rest⟩ := bind_eq_ok.mp rest
                  cases rest
                  exact nothing rfl
              | typeFd =>
                  by_cases enough : fdNo + arrLen ≤ fds.length
                  · rw [if_pos enough] at rest
                    cases rest
                    refine ⟨arrLen, rfl, nofun, ?_⟩
                    rintro value ⟨⟩
                    exact .array _
                  · rw [if_neg enough] at rest
                    cases rest
              | _ =>
                  obtain ⟨elements, -, rest⟩ := bind_eq_ok.mp rest
                  cases rest
                  exact nothing rfl
      | _ =>
          obtain ⟨value, -, rest⟩ := bind_eq_ok.mp rest
          cases rest
          exact nothing rfl

/-! ## The walk -/

section Walk

variable {data : View} {fds : List Fd}

/-- **The second walk and the one with descriptors are the same.** -/
theorem demarshal_eq_arguments (data : View) (fds : List Fd) :
    demarshal data fds =
      (arguments data fds).map (Except.map (Except.map (List.map Holding.value))) := by
  refine @loop_map _ _ (holdTurn data fds) _ _ (demarshalTurn data fds)
    (fun s => ⟨s.i, s.fdNo, s.args.map Holding.value⟩) _ (fun s => ?_) _ firstHolding
  simp only [demarshalTurn, holdTurn]
  split
  · cases demarshalItem data fds s.i s.fdNo with
    | error fault => rfl
    | ok item =>
        cases item with
        | stop => rfl
        | failed message => rfl
        | next i fdNo values => simp [Turn.map]
  · rfl

/-- The values that have been collected hold the first descriptors. -/
structure Collects (fds : List Fd) (s : HoldState) : Prop where
  all : s.args.flatMap Holding.fds = fds.take s.fdNo
  carry : ∀ arg ∈ s.args, Carries arg.value arg.fds

theorem Collects.next {s s' : HoldState} (collects : Collects fds s)
    (next : Next (holdTurn data fds) s s') : Collects fds s' := by
  simp only [Next, holdTurn] at next
  split at next
  · split at next
    · next i fdNo values item =>
      cases next
      obtain ⟨count, counted, none, first⟩ := demarshalItem_carries item
      have held : fdNo - s.fdNo = count := by omega
      rw [held]
      refine ⟨?_, ?_⟩
      · rw [List.flatMap_append, collects.all, flatMap_fds_holdings, counted, List.take_add]
        intro empty
        rw [none empty, List.take_zero]
      · refine List.forall_mem_append.mpr ⟨collects.carry, ?_⟩
        cases values with
        | nil => exact List.forall_mem_nil _
        | cons value values =>
            refine List.forall_mem_cons.mpr ⟨first value rfl, ?_⟩
            intro arg listed
            obtain ⟨other, -, rfl⟩ := List.mem_map.mp listed
            exact .nothing other
    · cases next
    · cases next
    · cases next
  · cases next

/-- **What the arguments hold** are the first descriptors, each once and in order. -/
theorem arguments_collect {args : List Holding}
    (walked : arguments data fds = some (.ok (.ok args))) :
    ∃ count, args.flatMap Holding.fds = fds.take count ∧
      ∀ arg ∈ args, Carries arg.value arg.fds := by
  obtain ⟨s, reaches, leaves⟩ := exits_iff.mp ⟨_, walked⟩
  have collects : Collects fds s := by
    refine reaches.invariant (fun s s' collects next => collects.next next) ⟨rfl, ?_⟩
    exact List.forall_mem_nil _
  have args_eq : args = s.args := by
    simp only [holdTurn] at leaves
    split at leaves
    · split at leaves
      · cases leaves
      · cases leaves
        rfl
      · cases leaves
      · cases leaves
    · cases leaves
      rfl
  rw [args_eq]
  exact ⟨s.fdNo, collects.all, collects.carry⟩

theorem flatMap_take_first {α β : Type} (f : α → List β) (n : Nat) (l : List α) :
    (l.take n).flatMap f <+: l.flatMap f := by
  refine ⟨(l.drop n).flatMap f, ?_⟩
  rw [← List.flatMap_append, List.take_append_drop]

/-- Nothing is passed on, or a listener is called and takes the first arguments. -/
theorem passedFds_cases (object : IWireObject) (methods : List SMethod) (id : UInt32)
    (data : View) (fds : List Fd) :
    passedFds object methods id data fds = [] ∨
      ∃ fn types values args,
        object.called methods id data fds = some (.ok (.invoke fn types values)) ∧
        arguments data fds = some (.ok (.ok args)) ∧
        passedFds object methods id data fds = (args.take types.length).flatMap Holding.fds := by
  rw [passedFds]
  split
  · next fn types values args called walked =>
    exact .inr ⟨fn, types, values, args, called, walked, rfl⟩
  · exact .inl rfl

/-- **What is passed on are the first descriptors of a message**, each once and in order. -/
theorem passedFds_first (object : IWireObject) (methods : List SMethod) (id : UInt32)
    (data : View) (fds : List Fd) : passedFds object methods id data fds <+: fds := by
  obtain none | ⟨_, types, _, args, -, walked, passed⟩ := passedFds_cases object methods id data fds
  · rw [none]
    exact List.nil_prefix
  · obtain ⟨count, all, -⟩ := arguments_collect walked
    rw [passed]
    refine (flatMap_take_first Holding.fds types.length args).trans ?_
    rw [all]
    exact List.take_prefix count fds

end Walk

/-! ## Over tokens -/

/-- The arguments that a token is passed as. -/
def Token.holdings (token : Token) : List Holding := Object.holdings token.descriptors token.values

theorem values_ne_nil (token : Token) : token.values ≠ [] := by
  cases token <;> exact List.cons_ne_nil _ _

theorem flatMap_fds_token (token : Token) :
    (Token.holdings token).flatMap Holding.fds = token.descriptors :=
  flatMap_fds_holdings fun empty => absurd empty (values_ne_nil token)

theorem flatMap_fds_tokens (tokens : List Token) :
    (tokens.flatMap Token.holdings).flatMap Holding.fds = tokens.flatMap Token.descriptors := by
  rw [List.flatMap_assoc]
  congr 1
  funext token
  exact flatMap_fds_token token

theorem length_holdings (token : Token) : (Token.holdings token).length = token.types.length := by
  have values := congrArg List.length (map_value_holdings token.descriptors token.values)
  rw [List.length_map] at values
  rw [Token.holdings, values]
  exact (token_typed token).length_eq

theorem length_flatMap_holdings (tokens : List Token) :
    (tokens.flatMap Token.holdings).length = (tokens.flatMap Token.types).length := by
  induction tokens with
  | nil => rfl
  | cons token tokens ih =>
      rw [List.flatMap_cons, List.flatMap_cons, List.length_append, List.length_append, ih,
        length_holdings]

section Tokens

variable {data : View}

/-- The turn at a token. -/
theorem next_holdTurn (token : Token) {i : Nat} {used left : List Fd} {args : List Holding}
    (holds : data.Holds i token.bytes) (inside : i + token.bytes.length ≤ data.size)
    (small : data.size < 2 ^ 63) :
    Next (holdTurn data (used ++ (token.descriptors ++ left)))
      { i, fdNo := used.length, args }
      { i := i + token.bytes.length, fdNo := (used ++ token.descriptors).length,
        args := args ++ Token.holdings token } := by
  have positive := token.length_pos
  simp only [Next, holdTurn, if_pos (show i < data.size by omega),
    @demarshalItem_token token data i used left holds inside small]
  rw [List.length_append, Nat.add_sub_cancel_left, queue_slice]
  rfl

/-- The turns over tokens. -/
theorem loop_holdTurn {i : Nat} {tokens : List Token} {used : List Fd} {args : List Holding}
    (holds : data.Holds i (tokens.flatMap Token.bytes ++ [EMessageMagic.endMark.code]))
    (inside : i + (tokens.flatMap Token.bytes).length < data.size) (small : data.size < 2 ^ 63) :
    Exits (holdTurn data (used ++ tokens.flatMap Token.descriptors))
      { i, fdNo := used.length, args } (.ok (.ok (args ++ tokens.flatMap Token.holdings))) := by
  induction tokens generalizing i used args with
  | nil =>
      refine .leave ?_
      simp [holdTurn, demarshalItem, View.rawAt_of_holds holds]
  | cons token tokens ih =>
      simp only [List.flatMap_cons, List.length_append] at inside holds ⊢
      rw [List.append_assoc] at holds
      obtain ⟨head, tail⟩ := View.holds_append.mp holds
      have rest := @ih (i + token.bytes.length) (used ++ token.descriptors)
        (args ++ Token.holdings token) tail (by omega)
      rw [List.append_assoc, List.append_assoc] at rest
      exact .again (next_holdTurn token head (by omega) small) rest

/-- **The arguments of tokens.** -/
theorem arguments_tokens {tokens : List Token}
    (holds : data.Holds 0 (tokens.flatMap Token.bytes ++ [EMessageMagic.endMark.code]))
    (inside : (tokens.flatMap Token.bytes).length < data.size) (small : data.size < 2 ^ 63) :
    arguments data (tokens.flatMap Token.descriptors) =
      some (.ok (.ok (tokens.flatMap Token.holdings))) := by
  have exits := @loop_holdTurn data 0 tokens [] [] holds (by omega) small
  have walked := demarshal_tokens holds inside small
  rw [demarshal_eq_arguments] at walked
  obtain ⟨result, run, -⟩ := Option.map_eq_some_iff.mp walked
  rw [run, Exits.unique ⟨_, run⟩ exits]
  rfl

/-- There is no type for an `END`. -/
theorem none_of_endMark {id : UInt32} {param : UInt8} {params : List UInt8} {i dataI : Nat}
    {types : List (Option FfiType)} (holds : data.Holds dataI [EMessageMagic.endMark.code])
    (checked : typeCheck data id (param :: params) i dataI = .ok (.ok types)) : none ∈ types := by
  by_cases same : param = EMessageMagic.endMark.code
  · rw [same, typeCheck, checkParam_endMark holds, ok_bind] at checked
    cases params with
    | nil =>
        cases checked
        exact List.mem_singleton_self none
    | cons following params =>
        obtain ⟨rest, -, after⟩ := bind_eq_ok.mp checked
        cases rest with
        | error message => cases after
        | ok rest =>
            cases after
            exact List.mem_cons_self
  · rw [typeCheck, checkParam_mismatch same holds] at checked
    cases checked

/-- **What the first walk has found are the types of the first tokens.** -/
theorem tokens_of_checked {id : UInt32} {tokens : List Token} {params : List UInt8} {i dataI : Nat}
    {types : List FfiType}
    (holds : data.Holds dataI (tokens.flatMap Token.bytes ++ [EMessageMagic.endMark.code]))
    (inside : dataI + (tokens.flatMap Token.bytes).length < data.size) (small : data.size < 2 ^ 63)
    (order : i ≤ dataI) (checked : typeCheck data id params i dataI = .ok (.ok (types.map some))) :
    ∃ front back, tokens = front ++ back ∧ params = front.flatMap Token.params ∧
      types = front.flatMap Token.types := by
  induction tokens generalizing params i dataI types with
  | nil =>
      cases params with
      | nil =>
          cases types with
          | nil => exact ⟨[], [], rfl, rfl, rfl⟩
          | cons type types => cases checked
      | cons param params =>
          obtain ⟨type, -, same⟩ := List.mem_map.mp (none_of_endMark holds checked)
          cases same
  | cons token tokens ih =>
      simp only [List.flatMap_cons, List.append_assoc, List.length_append] at holds inside
      obtain ⟨head, tail⟩ := View.holds_append.mp holds
      have shorter := token.length_params_le
      cases @typeCheck_atToken data id i dataI token params head with
      | finished none =>
          subst none
          cases types with
          | nil => exact ⟨[], _, rfl, rfl, rfl⟩
          | cons type types => cases checked
      | asked rest begins =>
          subst begins
          rw [typeCheck_token token head (by omega) small order] at checked
          obtain ⟨found, run, after⟩ := map_eq_ok.mp checked
          cases found with
          | error message => cases after
          | ok found =>
              have split : token.types.map some ++ found = types.map some := Except.ok.inj after
              obtain ⟨first, others, rfl, same, rfl⟩ := List.append_eq_map_iff.mp split
              obtain rfl := List.map_injective_iff.mpr (Option.some_injective _) same
              obtain ⟨front, back, rfl, rfl, rfl⟩ := ih tail (by omega) (by omega) run
              exact ⟨token :: front, back, rfl, rfl, rfl⟩
      | refused differ message failed => cases failed.symm.trans checked
      | last same failed => cases failed.symm.trans checked

end Tokens

/-! ## A call -/

section Call

variable {object : IWireObject} {methods : List SMethod} {msg : CGenericProtocolMessage}

/-- A listener that is called listens to a method, which is not too new. -/
theorem listening_of_invoke {id : UInt32} {data : View} {fds : List Fd} {fn' : Callback}
    {types : List FfiType} {values : List Value}
    (called : object.called methods id data fds = some (.ok (.invoke fn' types values))) :
    ∃ method fn, methods[id.toNat]? = some method ∧
      (object.listeners[id.toNat]?).join = some fn ∧ method.since ≤ object.version ∧
      callListener method fn id data fds = some (.ok (.invoke fn' types values)) := by
  simp only [IWireObject.called] at called
  split at called
  · cases called
  · next method is =>
    split at called
    · cases called
    · next fn listens =>
      split at called
      · cases called
      · next since => exact ⟨method, fn, is, listens, UInt32.not_lt.mp since, called⟩

/-- **What is passed on is in the arguments of a listener.** -/
theorem passedFds_carried {id : UInt32} {data : View} {fds : List Fd}
    (some_ : passedFds object methods id data fds ≠ []) :
    ∃ (fn : Callback) (types : List FfiType) (args : List Holding),
      object.called methods id data fds =
        some (.ok (.invoke fn types (args.map Holding.value))) ∧
      (∀ arg ∈ args, Carries arg.value arg.fds) ∧
      passedFds object methods id data fds = (args.take types.length).flatMap Holding.fds := by
  obtain ⟨fn, types, values, args, called, walked, passed⟩ :=
    (passedFds_cases object methods id data fds).resolve_left some_
  obtain ⟨-, -, carry⟩ := arguments_collect walked
  have same : values = args.map Holding.value := by
    obtain ⟨method, _, -, -, -, listened⟩ := listening_of_invoke called
    obtain ⟨-, given⟩ := checked_of_invoke listened
    rw [demarshal_eq_arguments, walked] at given
    cases given
    rfl
  exact ⟨fn, types, args, same ▸ called, carry, passed⟩

/-- A listener of the object takes a message with all its descriptors: the parameters of the
method are the first elements of the message, and no other element has descriptors. -/
inductive Lands (object : IWireObject) (methods : List SMethod) (msg : CGenericProtocolMessage) :
    Prop
  | intro {method : SMethod} {fn : Callback} {front back : List Token}
      (is : methods[msg.method.toNat]? = some method)
      (listens : (object.listeners[msg.method.toNat]?).join = some fn)
      (since : method.since ≤ object.version) (madeOf : MadeOf msg (front ++ back))
      (params : front.flatMap Token.params = method.wireParams)
      (others : back.flatMap Token.descriptors = [])

/-- A listener is called when the parameters are the first elements of the message. -/
theorem called_of_front {method : SMethod} {fn : Callback} {front back : List Token}
    (is : methods[msg.method.toNat]? = some method)
    (listens : (object.listeners[msg.method.toNat]?).join = some fn)
    (since : method.since ≤ object.version) (madeOf : MadeOf msg (front ++ back))
    (params : front.flatMap Token.params = method.wireParams) :
    object.called methods msg.method msg.dataSpan msg.fds =
      some (.ok (.invoke fn (front.flatMap Token.types) ((front ++ back).flatMap Token.values))) := by
  have payload := madeOf.payload
  have inside := madeOf.inside
  have values := demarshal_tokens payload inside madeOf.small
  rw [← madeOf.fds] at values
  rw [List.flatMap_append, List.append_assoc] at payload
  rw [List.flatMap_append, List.length_append] at inside
  have checked := @typeCheck_tokens msg.dataSpan msg.method front 0 0 (View.holds_append.mp payload).1
    (by omega) madeOf.small (Nat.le_refl 0)
  rw [IWireObject.called, is]
  simp only [listens, if_neg (UInt32.not_lt.mpr since)]
  rw [callListener, ← params, checked]
  simp only [ffiPrepCif_map_some, values]
  rfl

/-- What a listener is passed when the parameters are the first elements of the message. -/
theorem passedFds_of_front {method : SMethod} {fn : Callback} {front back : List Token}
    (is : methods[msg.method.toNat]? = some method)
    (listens : (object.listeners[msg.method.toNat]?).join = some fn)
    (since : method.since ≤ object.version) (madeOf : MadeOf msg (front ++ back))
    (params : front.flatMap Token.params = method.wireParams) :
    passedFds object methods msg.method msg.dataSpan msg.fds =
      front.flatMap Token.descriptors := by
  have walked := arguments_tokens madeOf.payload madeOf.inside madeOf.small
  rw [← madeOf.fds] at walked
  rw [passedFds, called_of_front is listens since madeOf params, walked]
  dsimp only
  rw [List.flatMap_append, ← length_flatMap_holdings front, List.take_left, flatMap_fds_tokens]

/-- A message that lands passes its descriptors on. -/
theorem Lands.passedFds_eq (lands : Lands object methods msg) :
    passedFds object methods msg.method msg.dataSpan msg.fds = msg.fds := by
  obtain ⟨is, listens, since, madeOf, params, others⟩ := lands
  rw [passedFds_of_front is listens since madeOf params, madeOf.fds, List.flatMap_append, others,
    List.append_nil]

/-- A listener that is called takes the first elements. -/
theorem front_of_invoke {tokens : List Token} (madeOf : MadeOf msg tokens) {fn' : Callback}
    {types : List FfiType} {values : List Value}
    (called : object.called methods msg.method msg.dataSpan msg.fds =
      some (.ok (.invoke fn' types values))) :
    ∃ method fn front back, methods[msg.method.toNat]? = some method ∧
      (object.listeners[msg.method.toNat]?).join = some fn ∧ method.since ≤ object.version ∧
      tokens = front ++ back ∧ front.flatMap Token.params = method.wireParams := by
  obtain ⟨method, fn, is, listens, since, listened⟩ := listening_of_invoke called
  obtain ⟨checked, -⟩ := checked_of_invoke listened
  obtain ⟨front, back, split, params, -⟩ := tokens_of_checked madeOf.payload
    (by rw [Nat.zero_add]; exact madeOf.inside) madeOf.small (Nat.le_refl 0) checked
  exact ⟨method, fn, front, back, is, listens, since, split, params.symm⟩

/-- **All the descriptors of a message are passed on exactly when it lands**, if it has any. -/
theorem passedFds_eq_iff {tokens : List Token} (madeOf : MadeOf msg tokens)
    (some_ : msg.fds ≠ []) :
    passedFds object methods msg.method msg.dataSpan msg.fds = msg.fds ↔
      Lands object methods msg := by
  constructor
  · intro all
    obtain ⟨fn', types, values, -, called, -, -⟩ :=
      (passedFds_cases object methods msg.method msg.dataSpan msg.fds).resolve_left (by rwa [all])
    obtain ⟨method, fn, front, back, is, listens, since, rfl, params⟩ :=
      front_of_invoke madeOf called
    rw [passedFds_of_front is listens since madeOf params, madeOf.fds,
      List.flatMap_append] at all
    exact ⟨is, listens, since, madeOf, params, List.self_eq_append_right.mp all⟩
  · exact Lands.passedFds_eq

end Call

end Hyprwire.Object
