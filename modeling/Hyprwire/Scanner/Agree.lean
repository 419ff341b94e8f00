import Hyprwire.Object.Agree
import Hyprwire.Object.RoundTrip
import Hyprwire.Object.Signature
import Hyprwire.Scanner.Generate

/-!
# Stubs and the marshaller

A method is described three times in generated code: by the arguments that its sending stub
passes to `call`, by the parameters of its receiving stub, and by the magics in its entry, from
which `call` knows what to ask `va_arg` for and `called` what to tell `libffi`. Nothing compares
the three when the code is compiled.

`begins_of_marshal` and `marshal_of_begins` say that the marshaller reads arguments of the types
that it asks for and no others, `passed_eq` that the sending stub passes them, and `received_eq`
that the receiving stub has parameters of the types that are built. `stubs_agree` puts this
together for a method of a supported document.
-/

set_option autoImplicit false

namespace Hyprwire.Scanner

open Cpp
open Wire (EMessageMagic Fd)
open Object (SMethod Arg FfiType VaType Begins marshal marshalParam marshalArray pointedWords
  pointedStrings vaWord vaPointer vaTypes typeCheck builtTypes ffiTypeFrom callListener)

/-! ## Supported types -/

namespace BaseType

/-- The type that an argument is passed at. -/
def passed : BaseType → VaType
  | varchar => .constCharPtr
  | uint | enum => .uint32
  | int | fd => .int32
  | f32 => .double

/-- The type that the elements of an array are passed at. -/
def pointed : BaseType → VaType
  | varchar => .stringPtr
  | _ => .wordPtr

theorem vaTypes_cons (type : BaseType) (params : List UInt8) :
    vaTypes (type.magic.code :: params) = type.passed :: vaTypes params := by
  cases type <;> rfl

theorem vaTypes_array (elements : BaseType) (params : List UInt8) :
    vaTypes (EMessageMagic.typeArray.code :: elements.magic.code :: params) =
      elements.pointed :: .uint32 :: vaTypes params := by
  cases elements <;> rfl

end BaseType

/-! ## What the marshaller reads -/

/-- A turn of the marshaller reads an argument of the type of its parameter. -/
theorem marshalParam_base (type : BaseType) {following : Option UInt8} {args : List Arg}
    {turn : Object.Marshalled}
    (ran : marshalParam type.magic.code following args = .ok turn) :
    ∃ arg rest bytes fds, args = arg :: rest ∧ type.passed.Reads arg ∧
      turn = .next bytes fds rest := by
  cases args with
  | nil => cases type <;> cases ran
  | cons arg rest =>
      cases type <;> cases arg <;> cases ran
      all_goals exact ⟨_, _, _, _, rfl, by constructor, rfl⟩

theorem marshalParam_reads (type : BaseType) {arg : Arg} (reads : type.passed.Reads arg)
    (following : Option UInt8) (rest : List Arg) :
    ∃ bytes fds, marshalParam type.magic.code following (arg :: rest) =
      .ok (.next bytes fds rest) := by
  cases type <;> cases reads <;> exact ⟨_, _, rfl⟩

/-- The elements of an array are read behind a pointer of their type. -/
theorem marshalArray_base (elements : BaseType) {pointer : Arg} {n : Nat}
    {result : Option (List UInt8 × List Fd)}
    (ran : marshalArray elements.magic.code pointer n = .ok result) :
    elements.pointed.Reads pointer ∧ ∃ bytes fds, result = some (bytes, fds) := by
  cases elements
  case varchar =>
    obtain ⟨strings, behind, given⟩ := bind_eq_ok.mp ran
    cases given
    cases pointer with
    | strings elements => exact ⟨.stringPtr _, _, _, rfl⟩
    | _ => cases behind
  all_goals
    obtain ⟨words, behind, given⟩ := bind_eq_ok.mp ran
    cases given
    cases pointer with
    | words elements => exact ⟨.wordPtr _, _, _, rfl⟩
    | _ => cases behind

theorem marshalArray_reads (elements : BaseType) {pointer : Arg}
    (reads : elements.pointed.Reads pointer) (n : Nat) :
    (∃ bytes fds, marshalArray elements.magic.code pointer n = .ok (some (bytes, fds))) ∨
      marshalArray elements.magic.code pointer n = .error .outOfBounds := by
  cases elements <;> cases reads
  all_goals
    simp only [BaseType.magic, marshalArray, EMessageMagic.ofByte_code, pointedWords,
      pointedStrings]
    split
    · exact .inl ⟨_, _, rfl⟩
    · exact .inr rfl

/-- A turn for an array reads a pointer to its elements and their number. -/
theorem marshalParam_array_base (elements : BaseType) {args : List Arg} {turn : Object.Marshalled}
    (ran : marshalParam EMessageMagic.typeArray.code (some elements.magic.code) args = .ok turn) :
    ∃ pointer bits rest bytes fds, args = pointer :: .word bits :: rest ∧
      elements.pointed.Reads pointer ∧ turn = .skip bytes fds rest := by
  obtain ⟨⟨pointer, behind⟩, first, ran⟩ := bind_eq_ok.mp ran
  obtain ⟨⟨bits, rest⟩, second, ran⟩ := bind_eq_ok.mp ran
  obtain ⟨result, read, ran⟩ := bind_eq_ok.mp ran
  obtain ⟨reads, bytes, fds, rfl⟩ := marshalArray_base elements read
  cases ran
  obtain rfl := Object.vaPointer_eq_ok first
  obtain rfl := Object.vaWord_eq_ok second
  exact ⟨pointer, bits, rest, _, fds, rfl, reads, rfl⟩

theorem marshalParam_array_reads (elements : BaseType) {pointer : Arg}
    (reads : elements.pointed.Reads pointer) (bits : UInt32) (rest : List Arg) :
    (∃ bytes fds, marshalParam EMessageMagic.typeArray.code (some elements.magic.code)
        (pointer :: .word bits :: rest) = .ok (.skip bytes fds rest)) ∨
      marshalParam EMessageMagic.typeArray.code (some elements.magic.code)
        (pointer :: .word bits :: rest) = .error .outOfBounds := by
  have points : vaPointer (pointer :: .word bits :: rest) = .ok (pointer, .word bits :: rest) := by
    cases elements <;> cases reads <;> rfl
  rcases marshalArray_reads elements reads bits.toNat with ⟨bytes, fds, read⟩ | fault
  · left
    refine ⟨EMessageMagic.typeArray.code :: elements.magic.code ::
      (Wire.encodeVarInt bits.toNat ++ bytes), fds, ?_⟩
    simp only [marshalParam, EMessageMagic.ofByte_code, points, ok_bind, vaWord, read]
    rfl
  · right
    simp only [marshalParam, EMessageMagic.ofByte_code, points, ok_bind, vaWord, fault]
    rfl

/-- The magics of an argument of a supported type. -/
theorem magics_base {arg : SRequestArgument} {type : BaseType} (magic : arg.magic = type.magic) :
    arg.magics = [type.magic] := by
  rw [SRequestArgument.magics, magic, if_neg type.magic_ne_typeArray]

theorem magics_array {arg : SRequestArgument} {elements : BaseType}
    (magic : arg.magic = .typeArray) (arrType : arg.arrType = elements.magic) :
    arg.magics = [.typeArray, elements.magic] := by
  rw [SRequestArgument.magics, magic, arrType, if_pos rfl]

section Marshal

variable {args : List SRequestArgument}

/-- **The marshaller asks for the types**: it returns only when the arguments begin with them. -/
theorem begins_of_marshal (scanned : ∀ arg ∈ args, Scanned arg) {given : List Arg}
    {result : Option (List UInt8 × List Fd)}
    (ran : marshal (paramCodes args) given = .ok result) :
    Begins (vaTypes (paramCodes args)) given := by
  induction args generalizing given result with
  | nil => exact .nil given
  | cons arg args ih =>
      have tail := fun arg has => scanned arg (List.mem_cons_of_mem _ has)
      rw [paramCodes_cons] at ran ⊢
      cases scanned arg List.mem_cons_self with
      | base type magic arrType =>
          rw [magics_base magic, List.map_singleton, List.singleton_append] at ran ⊢
          rw [marshal] at ran
          obtain ⟨turn, read, ran⟩ := bind_eq_ok.mp ran
          obtain ⟨first, behind, bytes, fds, rfl, reads, rfl⟩ := marshalParam_base type read
          obtain ⟨after, ran, -⟩ := bind_eq_ok.mp ran
          rw [type.vaTypes_cons]
          exact .cons reads (ih tail ran)
      | array elements magic arrType =>
          rw [magics_array magic arrType] at ran ⊢
          change marshal (_ :: _ :: paramCodes args) _ = _ at ran
          rw [marshal] at ran
          obtain ⟨turn, read, ran⟩ := bind_eq_ok.mp ran
          obtain ⟨pointer, bits, behind, bytes, fds, rfl, reads, rfl⟩ :=
            marshalParam_array_base elements read
          obtain ⟨after, ran, -⟩ := bind_eq_ok.mp ran
          change Begins (vaTypes (_ :: _ :: paramCodes args)) _
          rw [elements.vaTypes_array]
          exact .cons reads (.cons (.uint32 bits) (ih tail ran))

/-- **The marshaller asks for no others**: no argument is read at another type than it was passed
at when they begin with the types. -/
theorem marshal_of_begins (scanned : ∀ arg ∈ args, Scanned arg) {given : List Arg}
    (begins : Begins (vaTypes (paramCodes args)) given) :
    marshal (paramCodes args) given ≠ .error .badVararg := by
  induction args generalizing given with
  | nil =>
      intro fault
      cases fault
  | cons arg args ih =>
      have tail := fun arg has => scanned arg (List.mem_cons_of_mem _ has)
      have later : ∀ {given : List Arg} {bytes : List UInt8} {fds : List Fd},
          Begins (vaTypes (paramCodes args)) given →
          (marshal (paramCodes args) given).map (Object.before bytes fds) ≠ .error .badVararg := by
        intro given bytes fds begins
        cases ran : marshal (paramCodes args) given with
        | error fault =>
            intro same
            cases same
            exact ih tail begins ran
        | ok result =>
            intro same
            cases same
      rw [paramCodes_cons] at begins ⊢
      cases scanned arg List.mem_cons_self with
      | base type magic arrType =>
          rw [magics_base magic, List.map_singleton, List.singleton_append] at begins ⊢
          rw [type.vaTypes_cons] at begins
          cases begins with
          | cons reads begins =>
              obtain ⟨bytes, fds, turn⟩ := marshalParam_reads type reads _ _
              rw [Object.marshal_next turn]
              exact later begins
      | array elements magic arrType =>
          rw [magics_array magic arrType] at begins ⊢
          change Begins (vaTypes (_ :: _ :: paramCodes args)) _ at begins
          change marshal (_ :: _ :: paramCodes args) _ ≠ _
          rw [elements.vaTypes_array] at begins
          rcases begins with _ | ⟨reads, _ | ⟨counts, begins⟩⟩
          cases counts with
          | uint32 bits =>
              rcases marshalParam_array_reads elements reads bits _ with ⟨bytes, fds, turn⟩ | fault
              · rw [Object.marshal_skip turn]
                exact later begins
              · rw [marshal, List.head?_cons, fault]
                intro same
                cases same

end Marshal

/-! ## What a sending stub passes -/

/-- The type that a value of a type is passed at: a `float` becomes a `double`, and an
enumeration its underlying type. -/
def CType.promoted : CType → Option VaType
  | constCharPtr => some .constCharPtr
  | uint32 | enum _ => some .uint32
  | int32 | int => some .int32
  | float => some .double
  | _ => none

/-- The type that a pointer to elements of a type is passed at. -/
def CType.pointed : CType → Option VaType
  | constCharPtr => some .stringPtr
  | uint32 | int32 | int | float | enum _ => some .wordPtr
  | _ => none

/-- The type that an expression is passed at. -/
def Item.passed : Item → Option VaType
  | use written _ => written.promoted
  | data elements _ => elements.pointed
  | size _ _ => some .uint32
  | _ => none

/-- An expression is over some of the parameters, and these have the types that it has them at. -/
def Item.IsOver (params : List Item) : Item → Prop
  | use written name => param written name ∈ params
  | data elements name => param (.vectorRef elements) name ∈ params
  | size elements name => param (.vectorRef elements) name ∈ params
  | _ => False

/-- An argument that is not an array is written with the type of its magic, or as an
enumeration. -/
theorem argToC_base {arg : SRequestArgument} {type : BaseType} (magic : arg.magic = type.magic)
    (nameOriginal : Text) :
    arg.argToC nameOriginal = argToC type.magic ∨
      ∃ name, type.magic = .typeUint ∧ arg.argToC nameOriginal = .enum name := by
  rw [SRequestArgument.argToC, magic]
  cases type with
  | uint | enum =>
      dsimp only [BaseType.magic]
      split
      · exact .inr ⟨_, rfl, rfl⟩
      · exact .inl rfl
  | _ => exact .inl rfl

theorem promoted_base {arg : SRequestArgument} {type : BaseType} (magic : arg.magic = type.magic)
    (nameOriginal : Text) :
    (arg.argToC nameOriginal).promoted = some type.passed := by
  rcases argToC_base magic nameOriginal with written | ⟨name, uint, written⟩
  · rw [written]
    cases type <;> rfl
  · rw [written]
    cases type <;> first | rfl | cases uint

theorem pointed_base (elements : BaseType) :
    (argToC elements.magic).pointed = some elements.pointed := by
  cases elements <;> rfl

section Arguments

variable {args : List SRequestArgument} (nameOriginal : Text)

theorem callItems_base {arg : SRequestArgument} (arrType : arg.arrType = .endMark) :
    arg.items nameOriginal callFlags = [.use (arg.argToC nameOriginal) arg.name] := by
  simp [SRequestArgument.items, callFlags, arrType]

theorem callItems_array {arg : SRequestArgument} {elements : BaseType}
    (arrType : arg.arrType = elements.magic) :
    arg.items nameOriginal callFlags =
      [.data (argToC elements.magic) arg.name, .size (argToC elements.magic) arg.name] := by
  simp [SRequestArgument.items, callFlags, arrType, elements.magic_ne_endMark]

/-- **The arguments of a sending stub** have the types that the marshaller asks for. -/
theorem passed_eq (scanned : ∀ arg ∈ args, Scanned arg) :
    (argItems nameOriginal args callFlags).map Item.passed =
      (vaTypes (paramCodes args)).map some := by
  change (args.flatMap (SRequestArgument.items nameOriginal callFlags)).map Item.passed = _
  induction args with
  | nil => rfl
  | cons arg args ih =>
      have tail := fun arg has => scanned arg (List.mem_cons_of_mem _ has)
      rw [List.flatMap_cons, List.map_append, ih tail, paramCodes_cons]
      cases scanned arg List.mem_cons_self with
      | base type magic arrType =>
          rw [magics_base magic, List.map_singleton, List.singleton_append, type.vaTypes_cons,
            callItems_base nameOriginal arrType, List.map_singleton, Item.passed,
            promoted_base magic]
          rfl
      | array elements magic arrType =>
          rw [magics_array magic arrType]
          change _ = (vaTypes (_ :: _ :: paramCodes args)).map some
          rw [elements.vaTypes_array, callItems_array nameOriginal arrType, List.map_cons,
            List.map_singleton, Item.passed, Item.passed, pointed_base]
          rfl

/-- They are over the parameters of the stub. -/
theorem isOver_params (scanned : ∀ arg ∈ args, Scanned arg) :
    ∀ item ∈ argItems nameOriginal args callFlags,
      item.IsOver (argItems nameOriginal args {}) := by
  intro item has
  change item ∈ args.flatMap (SRequestArgument.items nameOriginal callFlags) at has
  obtain ⟨arg, member, has⟩ := List.mem_flatMap.mp has
  have declared : Item.param (arg.argToC nameOriginal) arg.name ∈
      argItems nameOriginal args {} := by
    refine List.mem_flatMap.mpr ⟨arg, member, ?_⟩
    simp [SRequestArgument.items]
  cases scanned arg member with
  | base type magic arrType =>
      rw [callItems_base nameOriginal arrType] at has
      cases List.mem_singleton.mp has
      exact declared
  | array elements magic arrType =>
      have vector : arg.argToC nameOriginal = .vectorRef (argToC arg.arrType) := by
        rw [SRequestArgument.argToC, magic]
      rw [vector, arrType] at declared
      rw [callItems_array nameOriginal arrType] at has
      rcases List.mem_pair.mp has with rfl | rfl
      · exact declared
      · exact declared

end Arguments

/-! ## What a receiving stub is called with -/

/-- The type that `libffi` knows a C++ type by. -/
def CType.ffi : CType → Option FfiType
  | uint32 | enum _ => some .uint32
  | int32 | int => some .sint32
  | float => some .float
  | constCharPtr | pointer _ => some .pointer
  | _ => none

/-- The type of a parameter. -/
def Item.received : Item → Option FfiType
  | param written _ => written.ffi
  | type written => written.ffi
  | _ => none

theorem BaseType.builtTypes_cons (type : BaseType) (params : List UInt8) :
    builtTypes (type.magic.code :: params) = ffiTypeFrom type.magic :: builtTypes params := by
  cases params <;> cases type <;> rfl

theorem builtTypes_array (arrType : UInt8) (params : List UInt8) :
    builtTypes (EMessageMagic.typeArray.code :: arrType :: params) =
      some .pointer :: some .uint32 :: builtTypes params := rfl

theorem builtTypes_seq (params : List UInt8) :
    builtTypes (EMessageMagic.typeSeq.code :: params) = some .uint32 :: builtTypes params := by
  cases params <;> rfl

section Parameters

variable {args : List SRequestArgument} (nameOriginal : Text) (direction : Direction)
  (method : SMethodSpec)

theorem receiveItems_base {arg : SRequestArgument} (arrType : arg.arrType = .endMark) :
    arg.items nameOriginal (method.receiveFlags direction) =
      [.param (arg.argToC nameOriginal) arg.name] := by
  simp [SRequestArgument.items, SMethodSpec.receiveFlags, arrType]

theorem receiveItems_array {arg : SRequestArgument} {elements : BaseType}
    (arrType : arg.arrType = elements.magic) :
    arg.items nameOriginal (method.receiveFlags direction) =
      [.param (.pointer (argToC elements.magic)) arg.name,
        .param .uint32 (arg.name ++ lit "_len")] := by
  simp [SRequestArgument.items, SMethodSpec.receiveFlags, arrType, elements.magic_ne_endMark]

theorem ffi_base {arg : SRequestArgument} {type : BaseType} (magic : arg.magic = type.magic) :
    (arg.argToC nameOriginal).ffi = ffiTypeFrom type.magic := by
  rcases argToC_base magic nameOriginal with written | ⟨name, uint, written⟩
  · rw [written]
    cases type <;> rfl
  · rw [written, uint]
    rfl

/-- The parameters of a receiving stub for the arguments have the types that are built for
them. -/
theorem received_args (scanned : ∀ arg ∈ args, Scanned arg) :
    (args.flatMap (SRequestArgument.items nameOriginal (method.receiveFlags direction))).map
      Item.received = builtTypes (paramCodes args) := by
  induction args with
  | nil => rfl
  | cons arg args ih =>
      have tail := fun arg has => scanned arg (List.mem_cons_of_mem _ has)
      rw [List.flatMap_cons, List.map_append, ih tail, paramCodes_cons]
      cases scanned arg List.mem_cons_self with
      | base type magic arrType =>
          rw [magics_base magic, List.map_singleton, List.singleton_append, type.builtTypes_cons,
            receiveItems_base nameOriginal direction method arrType,
            ← ffi_base nameOriginal magic]
          rfl
      | array elements magic arrType =>
          rw [magics_array magic arrType,
            receiveItems_array nameOriginal direction method arrType]
          exact (builtTypes_array _ _).symm

/-- The stub has a sequence exactly when the entry has a type to return. -/
theorem returnsType_entry :
    (method.entry direction).returnsType ≠ [] ↔ method.receivesSequence direction = true := by
  rw [SMethodSpec.receivesSequence, decide_eq_true_iff]
  cases direction with
  | s2c => simp [SMethodSpec.entry]
  | c2s =>
      have empty : Text.bytes method.returns = [] ↔ method.returns = [] := by
        cases method.returns with
        | nil => simp [Text.bytes]
        | cons c rest => simp [Text.bytes, String.utf8EncodeChar_ne_nil]
      simp [SMethodSpec.entry, empty]

/-- **The parameters of a receiving stub** have the types that are built for its method. -/
theorem received_eq (scanned : ∀ arg ∈ method.args, Scanned arg) :
    (method.receivingStub nameOriginal direction).params.map Item.received =
      builtTypes (method.entry direction).wireParams := by
  have own := received_args nameOriginal direction method scanned
  have params : (method.entry direction).params = paramCodes method.args := rfl
  rw [SMethod.wireParams, params]
  change ((method.receiveFlags direction).sequence ++ method.args.flatMap _).map _ = _
  rw [List.map_append, own]
  by_cases sequence : method.receivesSequence direction = true
  · rw [if_pos ((returnsType_entry direction method).mpr sequence)]
    have added : (method.receiveFlags direction).sequence = [.param .uint32 (lit "seq")] := by
      simp [Flags.sequence, SMethodSpec.receiveFlags, sequence]
    rw [added]
    exact (builtTypes_seq _).symm
  · rw [if_neg fun returns => sequence ((returnsType_entry direction method).mp returns)]
    have added : (method.receiveFlags direction).sequence = [] := by
      simp [Flags.sequence, SMethodSpec.receiveFlags, sequence]
    rw [added]
    rfl

end Parameters

/-! ## Agreement -/

/-- What is generated for a method of some rank agrees with its entry, and the entry with what
the two ends make of it. Numbers are those of a `uint32_t`. -/
structure StubsAgree (nameOriginal : Text) (direction : Direction) (rank : Nat)
    (method : SMethodSpec) (entry : UInt32 × SMethod) : Prop where
  callIdx : (method.sendingStub nameOriginal).idx.toNat = rank % 2 ^ 32
  listenIdx : (method.receivingStub nameOriginal direction).idx.toNat = rank % 2 ^ 32
  entryIdx : entry.1.toNat = rank % 2 ^ 32
  /-- The sending stub uses its own parameters. -/
  isOver : ∀ item ∈ (method.sendingStub nameOriginal).args,
    item.IsOver (method.sendingStub nameOriginal).params
  /-- It passes what `call` asks for. -/
  passed : (method.sendingStub nameOriginal).args.map Item.passed =
    (vaTypes entry.2.params).map some
  /-- `call` asks for these types, and for no others. -/
  asked : ∀ given result, marshal entry.2.params given = .ok result →
    Begins (vaTypes entry.2.params) given
  only : ∀ given, Begins (vaTypes entry.2.params) given →
    marshal entry.2.params given ≠ .error .badVararg
  /-- The receiving stub takes what `called` builds. -/
  received : (method.receivingStub nameOriginal direction).params.map Item.received =
    builtTypes entry.2.wireParams
  built : ∀ data id types, typeCheck data id entry.2.wireParams 0 0 = .ok (.ok types) →
    types = builtTypes entry.2.wireParams
  invoked : ∀ fn fn' id data fds types values,
    callListener entry.2 fn id data fds = some (.ok (.invoke fn' types values)) →
      (method.receivingStub nameOriginal direction).params.map Item.received = types.map some

/-- **Stubs and entries agree**: for every document over the supported types, the number of a
method is its place in the vector of its direction as a `uint32_t`, its sending stub passes
arguments of the types that `call` asks for, and its receiving stub has parameters of the types
that `called` builds. -/
theorem stubs_agree (asInt : Option Text → UInt32) (nameOriginal : Text) {doc object m : XmlNode}
    (supported : Supported doc) {place : Nat} (listed : (objectNodes doc)[place]? = some object)
    (direction : Direction) {rank : Nat} (is : (methodNodes direction object)[rank]? = some m) :
    ∃ spec method entry, (scanProtocol asInt doc)[place]? = some spec ∧
      method = scanMethod asInt direction (UInt32.ofNat rank) m ∧
      (spec.methods direction)[rank]? = some method ∧
      (spec.vector direction)[rank]? = some entry ∧
      StubsAgree nameOriginal direction rank method entry := by
  obtain ⟨method, made⟩ : ∃ method, method = scanMethod asInt direction (UInt32.ofNat rank) m :=
    ⟨_, rfl⟩
  have found : ((scanObject asInt object).methods direction)[rank]? = some method := by
    rw [methods_getElem?, is, made]
    rfl
  have scanned : ∀ arg ∈ method.args, Scanned arg := by
    rw [made]
    exact supported.scanned (List.mem_of_getElem? listed) (List.mem_of_getElem? is) asInt _
  have idx : method.idx.toNat = rank % 2 ^ 32 := by
    rw [made, idx_scanMethod]
    rfl
  refine ⟨scanObject asInt object, method, (method.idx, method.entry direction), ?_, made, found,
    ?_, ?_⟩
  · rw [scanProtocol, List.getElem?_map, listed]
    rfl
  · rw [SObjectSpec.vector, List.getElem?_map, found]
    rfl
  · have received := received_eq nameOriginal direction method scanned
    refine ⟨idx, idx, idx, isOver_params nameOriginal scanned, passed_eq nameOriginal scanned,
      ?_, ?_, received, ?_, ?_⟩
    · intro given result ran
      exact begins_of_marshal scanned ran
    · intro given begins
      exact marshal_of_begins scanned begins
    · intro data id types ran
      exact Object.typeCheck_built ran
    · intro fn fn' id data fds types values called
      obtain ⟨checked, -⟩ := Object.checked_of_invoke called
      exact received.trans (Object.typeCheck_built checked).symm

/-- An element with attributes. -/
def tagged (name : String) (attributes : List (String × String)) (children : List XmlNode) :
    XmlNode :=
  .element name.toList (attributes.map fun entry => (entry.1.toList, entry.2.toList)) children

def namesArg : XmlNode := tagged "arg" [("name", "names"), ("type", "array varchar")] []

def toneArg : XmlNode :=
  tagged "arg" [("name", "tone"), ("type", "enum"), ("interface", "tone")] []

/-- A method that greets some names and returns an object. -/
def greet : XmlNode :=
  tagged "c2s" [("name", "greet")] [namesArg, tagged "returns" [("iface", "greeting")] [], toneArg]

def ready : XmlNode := tagged "s2c" [("name", "ready")] []

def greetObject : XmlNode := tagged "object" [("name", "greeter")] [ready, greet]

def greetDocument : XmlNode := tagged "" [] [tagged "protocol" [] [greetObject]]

theorem greetDocument_supported : Supported greetDocument := by
  intro object listed direction m member param is
  obtain rfl := List.mem_singleton.mp (show object ∈ [greetObject] from listed)
  cases direction with
  | c2s =>
      obtain rfl := List.mem_singleton.mp (show m ∈ [greet] from member)
      rcases List.mem_pair.mp (show param ∈ [namesArg, toneArg] from is) with rfl | rfl
      · exact ⟨.array .varchar, rfl⟩
      · exact ⟨.base .enum, rfl⟩
  | s2c =>
      obtain rfl := List.mem_singleton.mp (show m ∈ [ready] from member)
      exact absurd (show param ∈ [] from is) List.not_mem_nil

/-- The names are passed as a pointer and a number, and the sequence comes first. -/
theorem stubs_agree_greet : ∃ method entry,
    ((scanObject (fun _ => 1) greetObject).methods .c2s)[0]? = some method ∧
      StubsAgree [] .c2s 0 method entry ∧
      (method.sendingStub []).args.map Item.passed =
        [some .stringPtr, some .uint32, some .uint32] ∧
      (method.receivingStub [] .c2s).params.map Item.received =
        [some .uint32, some .pointer, some .uint32, some .uint32] := by
  obtain ⟨spec, method, entry, scanned, made, found, -, agree⟩ :=
    stubs_agree (fun _ => 1) [] greetDocument_supported
      (show (objectNodes greetDocument)[0]? = some greetObject from rfl) .c2s
      (show (methodNodes .c2s greetObject)[0]? = some greet from rfl)
  cases scanned
  refine ⟨method, entry, found, agree, ?_, ?_⟩
  · rw [made]
    rfl
  · rw [made]
    rfl

/-! ## Many methods -/

/-- A method without anything. -/
def bare : XmlNode := tagged "c2s" [] []

/-- An object with some number of methods. -/
def crowd (n : Nat) : XmlNode := .element "object".toList [] (List.replicate n bare)

def crowdDocument (n : Nat) : XmlNode := tagged "" [] [tagged "protocol" [] [crowd n]]

theorem methodNodes_crowd (n : Nat) (direction : Direction) :
    methodNodes direction (crowd n) = if direction = .c2s then List.replicate n bare else [] := by
  cases direction <;> exact List.filter_replicate

theorem crowdDocument_supported (n : Nat) : Supported (crowdDocument n) := by
  intro object listed direction m member param is
  obtain rfl := List.mem_singleton.mp (show object ∈ [crowd n] from listed)
  obtain rfl : m = bare := by
    rw [methodNodes_crowd] at member
    split at member
    · exact List.eq_of_mem_replicate member
    · cases member
  exact absurd (show param ∈ [] from is) List.not_mem_nil

/-- Methods beyond the numbers of a `uint32_t` have the numbers of others. -/
theorem number_repeats : Supported (crowdDocument (2 ^ 32 + 1)) ∧
    (objectNodes (crowdDocument (2 ^ 32 + 1)))[0]? = some (crowd (2 ^ 32 + 1)) ∧
    (methodNodes .c2s (crowd (2 ^ 32 + 1)))[2 ^ 32]? = some bare ∧
    ∃ method, ((scanObject (fun _ => 0) (crowd (2 ^ 32 + 1))).methods .c2s)[2 ^ 32]? =
        some method ∧
      (method.sendingStub []).idx.toNat ≠ 2 ^ 32 := by
  have last : (methodNodes .c2s (crowd (2 ^ 32 + 1)))[2 ^ 32]? = some bare := by
    rw [methodNodes_crowd, if_pos rfl, List.getElem?_replicate, if_pos (by decide)]
  refine ⟨crowdDocument_supported _, rfl, last, scanMethod (fun _ => 0) .c2s 0 bare, ?_, ?_⟩
  · rw [methods_getElem?, last]
    rfl
  · change (scanMethod (fun _ => 0) .c2s 0 bare).idx.toNat ≠ 2 ^ 32
    rw [idx_scanMethod]
    decide

end Hyprwire.Scanner
