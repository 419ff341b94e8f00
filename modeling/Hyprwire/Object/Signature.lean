import Mathlib.Data.List.Induction
import Hyprwire.Object.Call
import Hyprwire.Object.Called

/-!
# The signature of a method

The C types of a method are found twice from its parameters: `call` asks `va_arg` for some of
them one after the other (`vaTypes`), and the first walk of `called` builds the list that
`libffi` is told (`builtTypes`). `typeCheck_built` says that the walk builds this list whatever
is on the wire, if it does not find an error.
-/

set_option autoImplicit false

namespace Hyprwire.Object

open Cpp Wire

/-! ## Variadic arguments -/

/-- A type that is passed through an ellipsis. -/
inductive VaType where
  | uint32
  | int32
  | double
  | constCharPtr
  /-- a pointer to elements of 32 bits -/
  | wordPtr
  /-- a pointer to strings -/
  | stringPtr
  deriving DecidableEq, Repr

/-- What the elements of an array are behind the pointer that `call` asks for. -/
def pointed (arrType : UInt8) : VaType :=
  if arrType = EMessageMagic.typeVarchar.code then .stringPtr else .wordPtr

/-- The types that `call` asks `va_arg` for, one after the other. -/
def vaTypes : List UInt8 → List VaType
  | [] => []
  | param :: params =>
      match EMessageMagic.ofByte param with
      | some .typeUint | some .typeObject => .uint32 :: vaTypes params
      | some .typeInt | some .typeFd => .int32 :: vaTypes params
      | some .typeF32 => .double :: vaTypes params
      | some .typeVarchar => .constCharPtr :: vaTypes params
      | some .typeArray =>
          match params with
          | [] => []
          | arrType :: params => pointed arrType :: .uint32 :: vaTypes params
      | _ => vaTypes params

/-- An argument was passed at a type. -/
inductive VaType.Reads : VaType → Arg → Prop
  | uint32 (bits : UInt32) : Reads .uint32 (.word bits)
  | int32 (bits : UInt32) : Reads .int32 (.word bits)
  | double (bits : UInt32) : Reads .double (.double bits)
  | constCharPtr (bytes : Str) : Reads .constCharPtr (.string bytes)
  | wordPtr (elements : List UInt32) : Reads .wordPtr (.words elements)
  | stringPtr (elements : List Str) : Reads .stringPtr (.strings elements)

/-- The arguments begin with some of the types. -/
inductive Begins : List VaType → List Arg → Prop
  | nil (args : List Arg) : Begins [] args
  | cons {type : VaType} {types : List VaType} {arg : Arg} {args : List Arg}
      (reads : type.Reads arg) (rest : Begins types args) : Begins (type :: types) (arg :: args)

/-! ## Types of a listener -/

/-- The types that the first walk builds for a parameter. -/
def ownTypes (param : UInt8) : List (Option FfiType) :=
  match EMessageMagic.ofByte param with
  | some .typeArray => [ffiTypeFrom .typeArray, ffiTypeFrom .typeUint]
  | some magic => [ffiTypeFrom magic]
  | none => [none]

/-- The first walk leaves out the parameter behind. -/
def takesNext (param : UInt8) : Bool :=
  param = EMessageMagic.typeArray.code ∨ param = EMessageMagic.endMark.code

/-- The types that `called` builds when nothing is wrong with the message. -/
def builtTypes : List UInt8 → List (Option FfiType)
  | [] => []
  | [param] => ownTypes param
  | param :: following :: params =>
      ownTypes param ++
        if takesNext param then builtTypes params else builtTypes (following :: params)

/-- What a turn of the first walk finds. -/
inductive Found (param : UInt8) : Param → Prop
  | failed (message : String) : Found param (.failed message)
  | next (dataI : Nat) (takes : takesNext param = false) :
      Found param (.next (ownTypes param) dataI)
  | skip (dataI : Nat) (takes : takesNext param = true) :
      Found param (.skip (ownTypes param) dataI)

/-- Types before others come from a walk that has found the others. -/
theorem bind_after_eq_ok {run : Except Fault Checked} {own types : List (Option FfiType)}
    (ran : (run >>= fun rest => pure (rest.after own)) = .ok (.ok types)) :
    ∃ rest, run = .ok (.ok rest) ∧ types = own ++ rest := by
  obtain ⟨rest, rfl, ran⟩ := bind_eq_ok.mp ran
  cases rest with
  | error message => cases ran
  | ok rest =>
      cases ran
      exact ⟨rest, rfl, rfl⟩

section Check

variable {data : View} {id : UInt32}

theorem checkParam_found {param : UInt8} {following : Option UInt8} {i dataI : Nat}
    {found : Param} (ran : checkParam data id param following i dataI = .ok found) :
    Found param found := by
  rw [checkParam] at ran
  obtain ⟨wire, -, ran⟩ := bind_eq_ok.mp ran
  split at ran
  · cases ran
    exact .failed _
  · cases is : EMessageMagic.ofByte param with
    | none =>
        have own : ownTypes param = [none] := by rw [ownTypes, is]
        have takes : takesNext param = false := by
          refine decide_eq_false ?_
          rintro (rfl | rfl) <;> cases is
        rw [is] at ran
        cases ran
        rw [← own]
        exact .next _ takes
    | some magic =>
        obtain rfl := EMessageMagic.ofByte_eq_some.mp is
        rw [is] at ran
        cases magic
        case typeVarchar =>
          obtain ⟨read, -, ran⟩ := bind_eq_ok.mp ran
          cases ran
          exact .next _ rfl
        case typeArray =>
          cases following with
          | none => cases ran
          | some arrType =>
              obtain ⟨wireType, -, ran⟩ := bind_eq_ok.mp ran
              split at ran
              · cases ran
                exact .failed _
              · obtain ⟨⟨arrLen, lenLen⟩, -, ran⟩ := bind_eq_ok.mp ran
                dsimp only at ran
                split at ran
                case h_6 =>
                  -- the strings of an array can leave the data
                  obtain ⟨length, -, ran⟩ := bind_eq_ok.mp ran
                  cases length with
                  | none => cases ran; exact .failed _
                  | some length => cases ran; exact .skip _ rfl
                case h_8 =>
                  cases ran
                  exact .failed _
                all_goals
                  cases ran
                  exact .skip _ rfl
        case endMark =>
          cases ran
          exact .skip _ rfl
        case typeObjectId =>
          cases ran
          exact .failed _
        all_goals
          cases ran
          exact .next _ rfl

/-- **The first walk builds the types**, if it does not find an error. -/
theorem typeCheck_built {params : List UInt8} {i dataI : Nat} {types : List (Option FfiType)}
    (ran : typeCheck data id params i dataI = .ok (.ok types)) : types = builtTypes params := by
  induction params using List.twoStepInduction generalizing i dataI types with
  | nil =>
      cases ran
      rfl
  | singleton param =>
      rw [typeCheck] at ran
      obtain ⟨found, checked, ran⟩ := bind_eq_ok.mp ran
      cases checkParam_found checked with
      | failed message => cases ran
      | next dataI takes =>
          cases ran
          exact List.append_nil _
      | skip dataI takes =>
          cases ran
          rfl
  | cons_cons param following params ih ih' =>
      rw [typeCheck] at ran
      obtain ⟨found, checked, ran⟩ := bind_eq_ok.mp ran
      rw [builtTypes]
      cases checkParam_found checked with
      | failed message => cases ran
      | next dataI takes =>
          obtain ⟨rest, behind, rfl⟩ := bind_after_eq_ok ran
          rw [takes, ih' following behind]
          rfl
      | skip dataI takes =>
          obtain ⟨rest, behind, rfl⟩ := bind_after_eq_ok ran
          rw [takes, ih behind]
          rfl

end Check


end Hyprwire.Object
