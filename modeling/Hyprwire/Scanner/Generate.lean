import Mathlib.Tactic.SplitIfs
import Hyprwire.Object.Spec
import Hyprwire.Scanner.Scan

/-!
# Generated stubs

The generator writes three things for a method: its entry in the vector of its direction, the
stub that sends it, and the stub that receives it. The arguments of a method are written by
`argsToC` in several forms. `argItems` are the same forms before they are written, with the C
types of the parameters and of the expressions (`argsToC_eq`), and a stub consists of such
items (`callText_eq`, `methodText_eq`). The magics in the vectors are written by their names
(`argArrayStr_eq`).

The texts that are copied from the document, names and interfaces, are taken to be what they
stand for in C++.
-/

set_option autoImplicit false

namespace Hyprwire.Scanner

open Cpp
open Wire (EMessageMagic)
open Object (SMethod)

/-- A text of the generator. -/
@[irreducible] def lit (text : String) : Text := text.toList

/-! ## Lists that are written -/

/-- Texts with a separator behind each. -/
def separated (texts : List Text) : Text := texts.flatMap fun text => text ++ lit ", "

/-- The last separator is taken off, if there is one. -/
def chopped (str : Text) : Text := if str = [] then str else str.take (str.length - 2)

@[simp] theorem separated_cons (text : Text) (rest : List Text) :
    separated (text :: rest) = text ++ lit ", " ++ separated rest := by
  rw [separated, List.flatMap_cons]
  rfl

@[simp] theorem separated_nil : separated [] = [] := rfl

theorem separated_eq {texts : List Text} (some : texts ≠ []) :
    separated texts = List.intercalate (lit ", ") texts ++ lit ", " := by
  induction texts with
  | nil => exact absurd rfl some
  | cons text rest ih =>
      cases rest with
      | nil => simp
      | cons next rest =>
          rw [separated_cons, ih (List.cons_ne_nil _ _), List.intercalate_cons_cons]
          simp only [List.append_assoc]

/-- **Taking the last separator off** leaves those between the texts. -/
theorem chopped_separated (texts : List Text) :
    chopped (separated texts) = List.intercalate (lit ", ") texts := by
  by_cases none : texts = []
  · rw [none]
    rfl
  · have two : (lit ", ").length = 2 := by unfold lit; rfl
    have some : List.intercalate (lit ", ") texts ++ lit ", " ≠ [] :=
      List.append_ne_nil_of_right_ne_nil _ (by unfold lit; decide)
    rw [separated_eq none, chopped, if_neg some, List.length_append, two, Nat.add_sub_cancel]
    exact List.take_left

/-- Texts behind another one are separated from it. -/
theorem intercalate_cons (first : Text) (texts : List Text) :
    List.intercalate (lit ", ") (first :: texts) =
      first ++ if texts = [] then [] else lit ", " ++ List.intercalate (lit ", ") texts := by
  cases texts with
  | nil => simp
  | cons text rest =>
      rw [List.intercalate_cons_cons, if_neg (List.cons_ne_nil _ _)]
      exact List.append_assoc _ _ _

/-! ## Types -/

/-- A C++ type that is written. The empty one is written for a magic without a type. -/
inductive CType where
  | constCharPtr
  | uint32
  | int32
  | float
  | int
  /-- an enumeration of the protocol, whose underlying type is `uint32_t` -/
  | enum (name : Text)
  | pointer (pointee : CType)
  | vectorRef (elements : CType)
  | empty
  deriving DecidableEq, Repr

def CType.text : CType → Text
  | constCharPtr => lit "const char*"
  | uint32 => lit "uint32_t"
  | int32 => lit "int32_t"
  | float => lit "float"
  | int => lit "int"
  | enum name => name
  | pointer pointee => pointee.text ++ lit "*"
  | vectorRef elements => lit "const std::vector<" ++ elements.text ++ lit ">&"
  | empty => []

/-- `argToC` of a magic. -/
def argToC : EMessageMagic → CType
  | .typeVarchar => .constCharPtr
  | .typeUint => .uint32
  | .typeInt => .int32
  | .typeF32 => .float
  | .typeFd => .int
  | _ => .empty

/-- `argToC` of an argument. -/
def SRequestArgument.argToC (nameOriginal : Text) (arg : SRequestArgument) : CType :=
  match arg.magic with
  | .typeVarchar => .constCharPtr
  | .typeUint =>
      if arg.isEnum then .enum (camelize (nameOriginal ++ lit "_" ++ arg.interface)) else .uint32
  | .typeInt => .int32
  | .typeF32 => .float
  | .typeFd => .int
  | .typeArray => .vectorRef (Scanner.argToC arg.arrType)
  | _ => .empty

/-! ## The arguments of a method -/

/-- The flags of `argsToC`. -/
structure Flags where
  noNames : Bool := false
  noTypes : Bool := false
  addSequence : Bool := false
  pureC : Bool := false
  unC : Bool := false

/-- The format of an argument, with what separates it from the next one. -/
def argFormat (nameOriginal : Text) (flags : Flags) (m : SRequestArgument) : Text :=
  if m.arrType ≠ .endMark ∧ flags.pureC then
    if flags.noTypes then
      m.name ++ lit ".data(), (uint32_t)" ++ m.name ++ lit ".size(), "
    else if flags.noNames then
      (argToC m.arrType).text ++ lit "*, uint32_t, "
    else
      (argToC m.arrType).text ++ lit "* " ++ m.name ++ lit ", uint32_t " ++
        (m.name ++ lit "_len") ++ lit ", "
  else if m.arrType ≠ .endMark ∧ flags.unC then
    if flags.noTypes then
      lit "std::vector<" ++ (argToC m.arrType).text ++ lit ">\x7b " ++ m.name ++ lit ", " ++
        m.name ++ lit " + " ++ (m.name ++ lit "_len") ++ lit " \x7d, "
    else if flags.noNames then
      (m.argToC nameOriginal).text ++ lit ", "
    else
      (m.argToC nameOriginal).text ++ lit " " ++ m.name ++ lit ", "
  else if flags.noTypes then
    m.name ++ lit ", "
  else if flags.noNames then
    (m.argToC nameOriginal).text ++ lit ", "
  else
    (m.argToC nameOriginal).text ++ lit " " ++ m.name ++ lit ", "

def argsToC (nameOriginal : Text) (args : List SRequestArgument) (flags : Flags) : Text :=
  let sequence : Text :=
    if flags.addSequence then
      if flags.noTypes then lit "seq, "
      else if flags.noNames then lit "uint32_t, "
      else lit "uint32_t seq, "
    else
      []
  chopped (sequence ++ args.flatMap (argFormat nameOriginal flags))

/-- An item of a list of parameters or of arguments. The expressions are over the parameters of
the stub that they stand in, and go with the types of these. -/
inductive Item where
  | type (written : CType)
  | param (written : CType) (name : Text)
  /-- a parameter -/
  | use (written : CType) (name : Text)
  /-- `data()` of a parameter that is a vector of such elements -/
  | data (elements : CType) (name : Text)
  /-- `size()` of one -/
  | size (elements : CType) (name : Text)
  /-- the vector of the elements behind a pointer -/
  | vector (elements : CType) (name : Text)
  deriving DecidableEq, Repr

def Item.text : Item → Text
  | type written => written.text
  | param written name => written.text ++ lit " " ++ name
  | use _ name => name
  | data _ name => name ++ lit ".data()"
  | size _ name => lit "(uint32_t)" ++ name ++ lit ".size()"
  | vector elements name =>
      lit "std::vector<" ++ elements.text ++ lit ">\x7b " ++ name ++ lit ", " ++ name ++
        lit " + " ++ (name ++ lit "_len") ++ lit " \x7d"

/-- The items of an argument. -/
def SRequestArgument.items (nameOriginal : Text) (flags : Flags) (m : SRequestArgument) :
    List Item :=
  if m.arrType ≠ .endMark ∧ flags.pureC then
    if flags.noTypes then
      [.data (Scanner.argToC m.arrType) m.name, .size (Scanner.argToC m.arrType) m.name]
    else if flags.noNames then
      [.type (.pointer (Scanner.argToC m.arrType)), .type .uint32]
    else
      [.param (.pointer (Scanner.argToC m.arrType)) m.name,
        .param .uint32 (m.name ++ lit "_len")]
  else if m.arrType ≠ .endMark ∧ flags.unC then
    if flags.noTypes then [.vector (Scanner.argToC m.arrType) m.name]
    else if flags.noNames then [.type (m.argToC nameOriginal)]
    else [.param (m.argToC nameOriginal) m.name]
  else if flags.noTypes then
    [.use (m.argToC nameOriginal) m.name]
  else if flags.noNames then
    [.type (m.argToC nameOriginal)]
  else
    [.param (m.argToC nameOriginal) m.name]

/-- The item of the sequence. -/
def Flags.sequence (flags : Flags) : List Item :=
  if flags.addSequence then
    if flags.noTypes then [.use .uint32 (lit "seq")]
    else if flags.noNames then [.type .uint32]
    else [.param .uint32 (lit "seq")]
  else
    []

/-- The items of the arguments of a method. -/
def argItems (nameOriginal : Text) (args : List SRequestArgument) (flags : Flags) : List Item :=
  flags.sequence ++ args.flatMap (SRequestArgument.items nameOriginal flags)

/-- What is written for items. -/
def written (items : List Item) : Text := List.intercalate (lit ", ") (items.map Item.text)

/-- The format of an argument writes its items. -/
theorem argFormat_eq (nameOriginal : Text) (flags : Flags) (m : SRequestArgument) :
    argFormat nameOriginal flags m = separated ((m.items nameOriginal flags).map Item.text) := by
  have starred : lit "*, uint32_t, " =
      lit "*" ++ (lit ", " ++ (lit "uint32_t" ++ lit ", ")) := by unfold lit; rfl
  have named : lit "* " = lit "*" ++ lit " " := by unfold lit; rfl
  have counted : lit ", uint32_t " = lit ", " ++ (lit "uint32_t" ++ lit " ") := by unfold lit; rfl
  have sized : lit ".data(), (uint32_t)" = lit ".data()" ++ (lit ", " ++ lit "(uint32_t)") := by
    unfold lit
    rfl
  have ended : lit ".size(), " = lit ".size()" ++ lit ", " := by unfold lit; rfl
  have closed : lit " \x7d, " = lit " \x7d" ++ lit ", " := by unfold lit; rfl
  rw [argFormat, SRequestArgument.items]
  split_ifs with pure noTypes noNames unC noTypes noNames noTypes noNames
  all_goals
    simp only [List.map_cons, List.map_nil, separated_cons, separated_nil, Item.text, CType.text,
      starred, named, counted, sized, ended, closed, List.append_assoc, List.append_nil]

/-- **`argsToC` writes the items** of the arguments. -/
theorem argsToC_eq (nameOriginal : Text) (args : List SRequestArgument) (flags : Flags) :
    argsToC nameOriginal args flags = written (argItems nameOriginal args flags) := by
  have typed : lit "uint32_t, " = lit "uint32_t" ++ lit ", " := by unfold lit; rfl
  have both : lit "uint32_t seq, " = lit "uint32_t" ++ (lit " " ++ (lit "seq" ++ lit ", ")) := by
    unfold lit
    rfl
  have named : lit "seq, " = lit "seq" ++ lit ", " := by unfold lit; rfl
  have first : separated (flags.sequence.map Item.text) =
      if flags.addSequence then
        if flags.noTypes then lit "seq, "
        else if flags.noNames then lit "uint32_t, "
        else lit "uint32_t seq, "
      else [] := by
    rw [Flags.sequence, typed, both, named]
    split_ifs
    all_goals
      simp only [List.map_cons, List.map_nil, separated_cons, separated_nil, Item.text,
        CType.text, List.append_assoc, List.append_nil]
  have all : separated ((argItems nameOriginal args flags).map Item.text) =
      separated (flags.sequence.map Item.text) ++
        args.flatMap (argFormat nameOriginal flags) := by
    rw [argItems, List.map_append, separated, List.flatMap_append, List.map_flatMap,
      List.flatMap_assoc]
    exact congrArg _ (List.flatMap_congr fun m _ => (argFormat_eq nameOriginal flags m).symm)
  rw [argsToC, ← first, ← all, chopped_separated, written]

/-! ## The vectors -/

/-- The cases of `magicToString` without elements. -/
def plainToString : EMessageMagic → Text
  | .typeVarchar => lit "Hyprwire::HW_MESSAGE_MAGIC_TYPE_VARCHAR"
  | .typeUint => lit "Hyprwire::HW_MESSAGE_MAGIC_TYPE_UINT"
  | .typeInt => lit "Hyprwire::HW_MESSAGE_MAGIC_TYPE_INT"
  | .typeF32 => lit "Hyprwire::HW_MESSAGE_MAGIC_TYPE_F32"
  | .typeFd => lit "Hyprwire::HW_MESSAGE_MAGIC_TYPE_FD"
  | _ => []

/-- `magicToString`. It calls itself for the elements of an array, which have no elements
themselves. -/
def magicToString (m arrType : EMessageMagic) : Text :=
  let array := lit "Hyprwire::HW_MESSAGE_MAGIC_TYPE_ARRAY, "
  if m = .typeArray then
    array ++ (if arrType = .typeArray then array else plainToString arrType)
  else
    plainToString m

/-- The magics in the vector of the parameters, `argArrayStr`. -/
def argArrayStr (args : List SRequestArgument) : Text :=
  chopped (args.flatMap fun p => magicToString p.magic p.arrType ++ lit ", ")

/-- The magics that are written for an argument of a supported type (`argArrayStr_eq`). -/
def SRequestArgument.magics (arg : SRequestArgument) : List EMessageMagic :=
  if arg.magic = .typeArray then [.typeArray, arg.arrType] else [arg.magic]

/-- The parameters that the magics of some arguments are. -/
def paramCodes (args : List SRequestArgument) : List UInt8 :=
  (args.flatMap SRequestArgument.magics).map EMessageMagic.code

theorem paramCodes_cons (arg : SRequestArgument) (args : List SRequestArgument) :
    paramCodes (arg :: args) = arg.magics.map EMessageMagic.code ++ paramCodes args := by
  rw [paramCodes, List.flatMap_cons, List.map_append]
  rfl

/-- The name of a magic. -/
def magicName (m : EMessageMagic) : Text :=
  if m = .typeArray then lit "Hyprwire::HW_MESSAGE_MAGIC_TYPE_ARRAY" else plainToString m

/-- **The magics are written** by their names. -/
theorem argArrayStr_eq {args : List SRequestArgument} (scanned : ∀ arg ∈ args, Scanned arg) :
    argArrayStr args =
      List.intercalate (lit ", ") ((args.flatMap SRequestArgument.magics).map magicName) := by
  have array : lit "Hyprwire::HW_MESSAGE_MAGIC_TYPE_ARRAY, " =
      lit "Hyprwire::HW_MESSAGE_MAGIC_TYPE_ARRAY" ++ lit ", " := by unfold lit; rfl
  have each : ∀ arg ∈ args, magicToString arg.magic arg.arrType ++ lit ", " =
      separated (arg.magics.map magicName) := by
    intro arg has
    cases scanned arg has with
    | base type magic arrType =>
        have plain := type.magic_ne_typeArray
        rw [SRequestArgument.magics, magicToString, magic, if_neg plain, if_neg plain]
        simp [magicName, plain]
    | array elements magic arrType =>
        have plain := elements.magic_ne_typeArray
        rw [SRequestArgument.magics, magicToString, magic, arrType, if_pos rfl, if_pos rfl,
          if_neg plain]
        simp [magicName, plain, array]
  rw [argArrayStr, List.flatMap_congr each, ← chopped_separated, separated, List.map_flatMap,
    List.flatMap_assoc]
  rfl

/-- The bytes of a text. -/
def Text.bytes (text : Text) : Str := text.flatMap String.utf8EncodeChar

/-- The entry of a method in the vector of its direction. The vector of the methods of the
server has no `returnsType`. -/
def SMethodSpec.entry (direction : Direction) (m : SMethodSpec) : SMethod where
  params := paramCodes m.args
  returnsType := if direction = .c2s then m.returns.bytes else []
  since := m.since

/-- `m_c2s` and `m_s2c`: the methods with the numbers in them. -/
def SObjectSpec.vector (direction : Direction) (object : SObjectSpec) : List (UInt32 × SMethod) :=
  (object.methods direction).map fun m => (m.idx, m.entry direction)

/-! ## The stubs -/

/-- The digits of a number. -/
def digits (n : UInt32) : Text := (toString n.toNat).toList

/-- The flags that the arguments of `call` are written with. -/
def callFlags : Flags := { noTypes := true, pureC := true }

/-- The body of a sending stub. -/
def callText (nameOriginal : Text) (m : SMethodSpec) : Text :=
  lit "m_object->call(" ++ digits m.idx ++
    (if m.args = [] then [] else lit ", " ++ argsToC nameOriginal m.args callFlags) ++ lit ");"

/-- A stub that sends: its parameters, and the number and the arguments that it calls `call`
with. -/
structure SendingStub where
  idx : UInt32
  params : List Item
  args : List Item

def SMethodSpec.sendingStub (nameOriginal : Text) (m : SMethodSpec) : SendingStub where
  idx := m.idx
  params := argItems nameOriginal m.args {}
  args := argItems nameOriginal m.args callFlags

/-- The sequence is passed to the listener of a method that returns an object. Only the client
calls such a method. -/
def SMethodSpec.receivesSequence (direction : Direction) (m : SMethodSpec) : Bool :=
  direction = .c2s ∧ m.returns ≠ []

/-- The flags that the parameters of a receiving stub are written with. -/
def SMethodSpec.receiveFlags (direction : Direction) (m : SMethodSpec) : Flags where
  addSequence := m.receivesSequence direction
  pureC := true

/-- The head of a receiving stub. -/
def methodText (nameOriginal nameCamel : Text) (direction : Direction) (m : SMethodSpec) : Text :=
  lit "static void " ++ nameCamel ++ lit "_method" ++ digits m.idx ++ lit "(Hyprwire::IObject* r" ++
    (if m.args = [] ∧ m.receivesSequence direction = false then []
      else lit ", " ++ argsToC nameOriginal m.args (m.receiveFlags direction)) ++ lit ")"

/-- The call that sets a receiving stub as a listener. -/
def listenText (nameCamel : Text) (m : SMethodSpec) : Text :=
  lit "m_object->listen(" ++ digits m.idx ++ lit ", rc<void*>(::" ++ nameCamel ++ lit "_method" ++
    digits m.idx ++ lit "));"

/-- A stub that receives: the number that it is a listener for, and its parameters behind the
object. -/
structure ReceivingStub where
  idx : UInt32
  params : List Item

def SMethodSpec.receivingStub (nameOriginal : Text) (direction : Direction) (m : SMethodSpec) :
    ReceivingStub where
  idx := m.idx
  params := argItems nameOriginal m.args (m.receiveFlags direction)

/-- There is an item for each argument. -/
theorem items_ne_nil (nameOriginal : Text) (flags : Flags) (m : SRequestArgument) :
    m.items nameOriginal flags ≠ [] := by
  rw [SRequestArgument.items]
  split_ifs <;> exact List.cons_ne_nil _ _

theorem argItems_eq_nil (nameOriginal : Text) (args : List SRequestArgument) (flags : Flags) :
    argItems nameOriginal args flags = [] ↔ args = [] ∧ flags.addSequence = false := by
  have sequence : flags.sequence = [] ↔ flags.addSequence = false := by
    rw [Flags.sequence]
    split_ifs with added
    all_goals simp [added]
  have arguments : args.flatMap (SRequestArgument.items nameOriginal flags) = [] ↔ args = [] := by
    cases args with
    | nil => simp
    | cons arg args => simp [items_ne_nil]
  rw [argItems, List.append_eq_nil_iff, sequence, arguments]
  exact and_comm

/-- **A sending stub** calls `call` with its number and its arguments. -/
theorem callText_eq (nameOriginal : Text) (m : SMethodSpec) :
    callText nameOriginal m = lit "m_object->call(" ++
      List.intercalate (lit ", ") (digits (m.sendingStub nameOriginal).idx ::
        (m.sendingStub nameOriginal).args.map Item.text) ++ lit ");" := by
  have none : argItems nameOriginal m.args callFlags = [] ↔ m.args = [] := by
    rw [argItems_eq_nil]
    exact and_iff_left rfl
  rw [callText, intercalate_cons, argsToC_eq]
  simp only [SMethodSpec.sendingStub, List.map_eq_nil_iff, none, written, List.append_assoc]

/-- **A receiving stub** has an object and its parameters. -/
theorem methodText_eq (nameOriginal nameCamel : Text) (direction : Direction) (m : SMethodSpec) :
    methodText nameOriginal nameCamel direction m =
      lit "static void " ++ nameCamel ++ lit "_method" ++ digits m.idx ++ lit "(" ++
        List.intercalate (lit ", ") (lit "Hyprwire::IObject* r" ::
          (m.receivingStub nameOriginal direction).params.map Item.text) ++ lit ")" := by
  have head : lit "(Hyprwire::IObject* r" = lit "(" ++ lit "Hyprwire::IObject* r" := by
    unfold lit
    rfl
  have none : argItems nameOriginal m.args (m.receiveFlags direction) = [] ↔
      m.args = [] ∧ m.receivesSequence direction = false := argItems_eq_nil _ _ _
  rw [methodText, intercalate_cons, argsToC_eq, head]
  simp only [SMethodSpec.receivingStub, List.map_eq_nil_iff, none, written, List.append_assoc]

/-- It is set as the listener of its number. -/
theorem listenText_eq (nameOriginal nameCamel : Text) (direction : Direction) (m : SMethodSpec) :
    listenText nameCamel m =
      lit "m_object->listen(" ++ digits (m.receivingStub nameOriginal direction).idx ++
        lit ", rc<void*>(::" ++ nameCamel ++ lit "_method" ++
        digits (m.receivingStub nameOriginal direction).idx ++ lit "));" := rfl

end Hyprwire.Scanner
