import Hyprwire.Wire.Magic

/-!
# Protocol documents

The scanner reads a protocol from an XML document and generates the C++ code of it. An
`XmlNode` is a node as the XML library gives it: a node that is not an element has no name.
`scanProtocol` collects the objects of a document with their methods. The methods of either
direction are numbered from zero on, in the order of the document, whatever stands between
them (`scanMethods_getElem?`).

`SupportedType` has the types of arguments that there are, and `scanned_of_supported` says what
they are scanned to.
-/

set_option autoImplicit false

namespace Hyprwire.Scanner

open Wire (EMessageMagic)

/-- The characters of a `std::string`. -/
abbrev Text := List Char

/-! ## Documents -/

inductive XmlNode where
  | element (name : Text) (attributes : List (Text × Text)) (children : List XmlNode)

namespace XmlNode

def name : XmlNode → Text
  | element name _ _ => name

def children : XmlNode → List XmlNode
  | element _ _ children => children

/-- `attribute(name)`, if there is one. -/
def attr (key : Text) : XmlNode → Option Text
  | element _ attributes _ => (attributes.find? fun entry => entry.1 = key).map Prod.snd

/-- `attribute(name).as_string()`. -/
def asString (key : Text) (node : XmlNode) : Text := (node.attr key).getD []

/-- The children with a name. -/
def named (key : Text) (node : XmlNode) : List XmlNode :=
  node.children.filter fun child => child.name = key

end XmlNode

/-! ## What is collected -/

/-- `SRequestArgument`. -/
structure SRequestArgument where
  magic : EMessageMagic := .endMark
  arrType : EMessageMagic := .endMark
  interface : Text := []
  name : Text := []
  isEnum : Bool := false

/-- `SMethodSpec`. -/
structure SMethodSpec where
  args : List SRequestArgument := []
  name : Text
  since : UInt32
  returns : Text := []
  idx : UInt32 := 0

/-- `SObjectSpec`. -/
structure SObjectSpec where
  s2c : List SMethodSpec
  c2s : List SMethodSpec
  name : Text
  nameCamel : Text

/-- The direction of a method. -/
inductive Direction where
  | c2s
  | s2c
  deriving DecidableEq, Repr

/-- The name of the elements of a direction. -/
def Direction.text : Direction → Text
  | c2s => "c2s".toList
  | s2c => "s2c".toList

def SObjectSpec.methods (object : SObjectSpec) : Direction → List SMethodSpec
  | .c2s => object.c2s
  | .s2c => object.s2c

/-! ## The scanner -/

/-- The loop of `camelize`, which leaves the first character as it is. -/
def camelizeFrom : Bool → Text → Text
  | _, [] => []
  | _, [c] => [c]
  | first, c :: next :: rest =>
      if c = '_' ∧ first = false ∧ next ≠ '_' then
        next.toUpper :: camelizeFrom false rest
      else
        c :: camelizeFrom false (next :: rest)

def camelize (snake : Text) : Text := camelizeFrom true snake

def strToMagic (sv : Text) : EMessageMagic :=
  if sv = "varchar".toList then .typeVarchar
  else if sv = "uint".toList then .typeUint
  else if sv = "enum".toList then .typeUint
  else if sv = "int".toList then .typeInt
  else if sv = "f32".toList then .typeF32
  else if sv = "fd".toList then .typeFd
  else if "array ".toList.isPrefixOf sv then .typeArray
  else .endMark

/-- An `arg` element. The arguments of the methods of the server have no interface, and are no
enumerations. -/
def scanArg (direction : Direction) (param : XmlNode) : SRequestArgument :=
  let type := param.asString "type".toList
  let magic := strToMagic type
  { magic
    arrType := if magic = .typeArray then strToMagic (type.drop 6) else .endMark
    interface := if direction = .c2s then param.asString "interface".toList else []
    name := param.asString "name".toList
    isEnum := direction = .c2s ∧ type = "enum".toList }

/-- One turn of the loop over the children of a method. -/
def scanParam (direction : Direction) (method : SMethodSpec) (param : XmlNode) : SMethodSpec :=
  if param.name = "arg".toList then
    { method with args := method.args ++ [scanArg direction param] }
  else if param.name = "returns".toList then
    { method with returns := param.asString "iface".toList }
  else
    method

section Numbers

-- `as_int`, which is 0 when there is no attribute
variable (asInt : Option Text → UInt32)

def scanMethod (direction : Direction) (idx : UInt32) (m : XmlNode) : SMethodSpec :=
  m.children.foldl (scanParam direction)
    { name := m.asString "name".toList, since := asInt (m.attr "since".toList), idx }

/-- The loop over the children of an object that collects the methods of one direction. -/
def scanMethods (direction : Direction) : UInt32 → List XmlNode → List SMethodSpec
  | _, [] => []
  | currentIdx, m :: rest =>
      if m.name = direction.text then
        scanMethod asInt direction currentIdx m :: scanMethods direction (currentIdx + 1) rest
      else
        scanMethods direction currentIdx rest

def scanObject (object : XmlNode) : SObjectSpec where
  s2c := scanMethods asInt .s2c 0 object.children
  c2s := scanMethods asInt .c2s 0 object.children
  name := object.asString "name".toList
  nameCamel := camelize (object.asString "name".toList)

end Numbers

/-- The objects of a document: those of its first protocol. -/
def objectNodes (doc : XmlNode) : List XmlNode :=
  match doc.children.find? fun child => child.name = "protocol".toList with
  | some protocol => protocol.named "object".toList
  | none => []

/-- `scanProtocol`: what it makes of the objects. -/
def scanProtocol (asInt : Option Text → UInt32) (doc : XmlNode) : List SObjectSpec :=
  (objectNodes doc).map (scanObject asInt)

/-! ## The methods of a direction -/

/-- The elements of an object that are methods of a direction. -/
def methodNodes (direction : Direction) (object : XmlNode) : List XmlNode :=
  object.named direction.text

/-- **The methods of a direction are numbered** in their order, with the numbers of a
`uint32_t`. -/
theorem scanMethods_getElem? (asInt : Option Text → UInt32) {direction : Direction}
    {children : List XmlNode} {first : UInt32} {rank : Nat} :
    (scanMethods asInt direction first children)[rank]? =
      (children.filter fun child => child.name = direction.text)[rank]?.map
        (scanMethod asInt direction (first + UInt32.ofNat rank)) := by
  induction children generalizing first rank with
  | nil => rfl
  | cons m rest ih =>
      rw [scanMethods, List.filter_cons]
      by_cases method : m.name = direction.text
      · rw [if_pos method, if_pos (decide_eq_true method)]
        cases rank with
        | zero =>
            rw [List.getElem?_cons_zero, List.getElem?_cons_zero, Option.map_some]
            congr 1
            simp
        | succ rank =>
            rw [List.getElem?_cons_succ, List.getElem?_cons_succ, ih]
            congr 2
            rw [UInt32.ofNat_add, UInt32.add_assoc, UInt32.add_comm 1]
            rfl
      · rw [if_neg method, if_neg (by simpa using method), ih]

/-- The methods of an object are those of its elements. -/
theorem methods_getElem? (asInt : Option Text → UInt32) (direction : Direction) (object : XmlNode)
    (rank : Nat) :
    ((scanObject asInt object).methods direction)[rank]? =
      (methodNodes direction object)[rank]?.map
        (scanMethod asInt direction (UInt32.ofNat rank)) := by
  have scanned : (scanObject asInt object).methods direction =
      scanMethods asInt direction 0 object.children := by
    cases direction <;> rfl
  rw [scanned, scanMethods_getElem?, UInt32.zero_add]
  rfl

/-! ## Supported types -/

/-- The types of arguments that are not arrays. -/
inductive BaseType where
  | varchar
  | uint
  | enum
  | int
  | f32
  | fd
  deriving DecidableEq, Repr

namespace BaseType

def text : BaseType → Text
  | varchar => "varchar".toList
  | uint => "uint".toList
  | enum => "enum".toList
  | int => "int".toList
  | f32 => "f32".toList
  | fd => "fd".toList

def magic : BaseType → EMessageMagic
  | varchar => .typeVarchar
  | uint | enum => .typeUint
  | int => .typeInt
  | f32 => .typeF32
  | fd => .typeFd

theorem strToMagic_text (type : BaseType) : strToMagic type.text = type.magic := by
  cases type <;> rfl

end BaseType

/-- The types of arguments. -/
inductive SupportedType where
  | base (type : BaseType)
  | array (elements : BaseType)
  deriving DecidableEq, Repr

def SupportedType.text : SupportedType → Text
  | base type => type.text
  | array elements => "array ".toList ++ elements.text

theorem BaseType.magic_ne_typeArray (type : BaseType) : type.magic ≠ .typeArray := by
  cases type <;> decide

theorem BaseType.magic_ne_endMark (type : BaseType) : type.magic ≠ .endMark := by
  cases type <;> decide

/-- The types of all arguments of a document are supported. -/
def Supported (doc : XmlNode) : Prop :=
  ∀ object ∈ objectNodes doc, ∀ direction, ∀ m ∈ methodNodes direction object,
    ∀ param ∈ m.named "arg".toList,
      ∃ type : SupportedType, param.asString "type".toList = type.text

/-- An argument that was scanned from a supported type. -/
inductive Scanned (arg : SRequestArgument) : Prop
  | base (type : BaseType) (magic : arg.magic = type.magic) (arrType : arg.arrType = .endMark)
  | array (elements : BaseType) (magic : arg.magic = .typeArray)
      (arrType : arg.arrType = elements.magic)

/-- **A supported type is scanned** to its magic, and an array to that of its elements. -/
theorem scanned_of_supported {direction : Direction} {param : XmlNode} {type : SupportedType}
    (is : param.asString "type".toList = type.text) : Scanned (scanArg direction param) := by
  cases type with
  | base type =>
      have magic : strToMagic (param.asString "type".toList) = type.magic :=
        (congrArg strToMagic is).trans type.strToMagic_text
      refine .base type magic ?_
      simp only [scanArg, magic]
      cases type <;> rfl
  | array elements =>
      have magic : strToMagic (param.asString "type".toList) = .typeArray := by
        rw [is]
        cases elements <;> rfl
      refine .array elements magic ?_
      simp only [scanArg, is]
      exact elements.strToMagic_text

/-- The arguments of a method are those of its elements. -/
theorem args_scanMethod (asInt : Option Text → UInt32) (direction : Direction) (idx : UInt32)
    (m : XmlNode) :
    (scanMethod asInt direction idx m).args =
      (m.named "arg".toList).map (scanArg direction) := by
  have loop : ∀ (params : List XmlNode) (method : SMethodSpec),
      (params.foldl (scanParam direction) method).args =
        method.args ++ (params.filter fun child => child.name = "arg".toList).map
          (scanArg direction) := by
    intro params
    let isArg : XmlNode → Bool := fun child => child.name = "arg".toList
    induction params with
    | nil => exact fun method => (List.append_nil _).symm
    | cons param params ih =>
        intro method
        rw [List.foldl_cons, ih, scanParam]
        split
        · next is =>
          rw [@List.filter_cons_of_pos _ isArg _ _ (decide_eq_true is), List.map_cons]
          exact List.append_assoc _ _ _
        · next other =>
          rw [@List.filter_cons_of_neg _ isArg _ _ fun is => other (of_decide_eq_true is)]
          split <;> rfl
  exact loop m.children _

/-- A method keeps its number. -/
theorem idx_scanMethod (asInt : Option Text → UInt32) (direction : Direction) (idx : UInt32)
    (m : XmlNode) : (scanMethod asInt direction idx m).idx = idx := by
  have loop : ∀ (params : List XmlNode) (method : SMethodSpec),
      (params.foldl (scanParam direction) method).idx = method.idx := by
    intro params
    induction params with
    | nil => exact fun method => rfl
    | cons param params ih =>
        intro method
        rw [List.foldl_cons, ih, scanParam]
        split
        · rfl
        · split <;> rfl
  exact loop m.children _

/-- The arguments of the methods of a supported document are scanned from supported types. -/
theorem Supported.scanned {doc : XmlNode} (supported : Supported doc) {object m : XmlNode}
    (listed : object ∈ objectNodes doc) {direction : Direction}
    (member : m ∈ methodNodes direction object) (asInt : Option Text → UInt32) (idx : UInt32) :
    ∀ arg ∈ (scanMethod asInt direction idx m).args, Scanned arg := by
  intro arg has
  rw [args_scanMethod] at has
  obtain ⟨param, is, rfl⟩ := List.mem_map.mp has
  obtain ⟨type, named⟩ := supported object listed direction m member param is
  exact scanned_of_supported named

end Hyprwire.Scanner
