import Hyprwire.Client.ClientSocket

/-!
# The specs of a server

`serverSpecs` takes the list of a `HANDSHAKE_PROTOCOLS`. Each string is to be a name, an
`@` and a decimal number, and a list with another string in it is to change nothing.

`std::stoul` takes much more than a decimal number, the strings before one that it
throws at have been appended by then, and the handshake is done in any case. What the
function does is exact for a list of strings that are as they should be. For any other
list it is so only when the first string already ends it, and the handshake was done
before (`takeServerSpecs_exact_iff`).
-/

set_option autoImplicit false

namespace Hyprwire.Client

open Cpp Wire Object

namespace CClientSocket

/-! ## Decimal numbers -/

/-- The value of decimal digits. -/
def decimal (digits : Str) : Nat :=
  digits.foldl (fun value digit => 10 * value + (digit.toNat - 0x30)) 0

/-- A digit is neither a space nor a sign. -/
theorem isDigit_apart {byte : UInt8} (digit : isDigit byte = true) :
    isSpace byte = false ∧ byte ≠ 0x2d ∧ byte ≠ 0x2b := by
  simp only [isDigit, decide_eq_true_eq, UInt8.le_iff_toNat_le] at digit
  have low : 48 ≤ byte.toNat := digit.1
  refine ⟨?_, ?_, ?_⟩
  · simp only [isSpace, decide_eq_false_iff_not, not_or, not_and,
      UInt8.le_iff_toNat_le]
    refine ⟨?_, fun _ => Nat.not_le.mpr (Nat.lt_of_lt_of_le (by decide) low)⟩
    rintro rfl
    exact absurd low (by decide)
  · rintro rfl
    exact absurd low (by decide)
  · rintro rfl
    exact absurd low (by decide)

/-- Digits are read as the number that they are, unless it is too large. -/
theorem stoul_of_digits {digits : Str} (some_ : digits ≠ [])
    (all : ∀ byte ∈ digits, isDigit byte = true)
    (small : decimal digits < 2 ^ 64) :
    stoul digits =
      some (decimal digits) := by
  obtain ⟨first, rest, rfl⟩ := List.exists_cons_of_ne_nil some_
  obtain ⟨solid, minus, plus⟩ := isDigit_apart (all first List.mem_cons_self)
  have start : (first :: rest).dropWhile isSpace = first :: rest := by
    rw [List.dropWhile_cons_of_neg (by rw [solid]; exact Bool.false_ne_true)]
  have whole : (first :: rest).takeWhile isDigit = first :: rest :=
    List.takeWhile_eq_self_iff.mpr all
  have fits : ¬ (first :: rest = [] ∨ 2 ^ 64 ≤
      (first :: rest).foldl (fun value digit => 10 * value + (digit.toNat - 0x30)) 0) := by
    rw [not_or, Nat.not_le]
    exact ⟨some_, small⟩
  rw [stoul, start]
  dsimp only
  split
  · next same => exact absurd (List.cons.inj same).1 minus
  · next same => exact absurd (List.cons.inj same).1 plus
  · rw [whole, if_neg fits, if_neg Bool.false_ne_true]
    rfl

/-- The text behind the last sign, when there is none in it. -/
theorem takeWhile_reverse {name back : Str} (none : 0x40 ∉ back) :
    (name ++ 0x40 :: back).reverse.takeWhile (· ≠ 0x40) = back.reverse := by
  have kept : ∀ byte ∈ back.reverse, decide (byte ≠ 0x40) = true := by
    intro byte member
    refine decide_eq_true fun same => none ?_
    rw [← same]
    exact List.mem_reverse.mp member
  rw [List.reverse_append, List.reverse_cons, List.append_assoc, List.takeWhile_append_of_pos kept]
  simp


/-! ## What a string spells -/

/-- A name, an `@`, and a decimal number that 32 bits hold, with nothing else. -/
def Spells (specName : Str) (spec : CServerSpec) : Prop :=
  ∃ digits, specName = spec.name ++ 0x40 :: digits ∧ digits ≠ [] ∧
    (∀ byte ∈ digits, isDigit byte = true) ∧ decimal digits = spec.version.toNat

/-- The text behind the last `@`, or all of a string that has none. -/
def behindAt (specName : Str) : Str := (specName.reverse.takeWhile (· ≠ 0x40)).reverse

theorem at_not_mem_of_digits {digits : Str} (all : ∀ byte ∈ digits, isDigit byte = true) :
    0x40 ∉ digits :=
  fun member => absurd (all _ member) (by decide)

/-- The text before the last `@` and the one behind it. -/
theorem serverSpec_append (name : Str) {back : Str} (none : 0x40 ∉ back) :
    serverSpec (name ++ 0x40 :: back) =
      (stoul back).map fun version => { name, version := UInt32.ofNat version } := by
  have has : 0x40 ∈ name ++ 0x40 :: back := List.mem_append_right _ List.mem_cons_self
  have before : (name ++ 0x40 :: back).length - back.reverse.length - 1 = name.length := by
    rw [List.length_append, List.length_cons, List.length_reverse]
    omega
  rw [serverSpec]
  simp only [if_pos has, takeWhile_reverse none, List.reverse_reverse, before, List.take_left' rfl]
  cases stoul back <;> rfl

/-- A string that spells a spec is read as it. -/
theorem Spells.serverSpec_eq {specName : Str} {spec : CServerSpec} (spells : Spells specName spec) :
    serverSpec specName = some spec := by
  obtain ⟨digits, rfl, some_, all, value⟩ := spells
  have bound := spec.version.toNat_lt
  rw [serverSpec_append _ (at_not_mem_of_digits all), stoul_of_digits some_ all (by omega), value,
    Option.map_some, UInt32.ofNat_toNat]

/-- A string is refused when `stoul` throws at what is behind its last `@`. -/
theorem serverSpec_eq_none {specName : Str} :
    serverSpec specName = none ↔ stoul (behindAt specName) = none := by
  rw [serverSpec, behindAt]
  cases stoul (specName.reverse.takeWhile (· ≠ 0x40)).reverse <;> simp

/-! ## What a list of strings comes to -/

/-- Strings that spell specs are taken in their order. -/
theorem addServerSpecs_of_spells {names : List Str} {specs : List CServerSpec}
    (spell : List.Forall₂ Spells names specs) (client : CClientSocket) :
    addServerSpecs names client = { client with serverSpecs := client.serverSpecs ++ specs } := by
  induction spell generalizing client with
  | nil => simp only [addServerSpecs, List.append_nil]
  | cons spells rest ih =>
      simp only [addServerSpecs, spells.serverSpec_eq]
      rw [ih, List.append_assoc, List.singleton_append]

/-- What is known of the server stays known. -/
theorem serverSpecs_prefix_addServerSpecs (names : List Str) (client : CClientSocket) :
    client.serverSpecs <+: (addServerSpecs names client).serverSpecs := by
  induction names generalizing client with
  | nil => exact List.prefix_rfl
  | cons specName rest ih =>
      rw [addServerSpecs]
      split
      · exact List.prefix_rfl
      · next spec _ =>
        exact (List.prefix_append client.serverSpecs [spec]).trans (ih { client with
          serverSpecs := client.serverSpecs ++ [spec] })

/-- Either all strings spell specs, which are appended in order without an error, and the
handshake is done; or the error is set, and neither the specs nor the handshake change. -/
def ExactAtomic (names : List Str) (client next : CClientSocket) : Prop :=
  (∃ specs, List.Forall₂ Spells names specs ∧
    next = { client with serverSpecs := client.serverSpecs ++ specs, handshakeDone := true }) ∨
  (¬ ∃ specs, List.Forall₂ Spells names specs) ∧ next.error = true ∧
    next.serverSpecs = client.serverSpecs ∧ next.handshakeDone = client.handshakeDone

/-- **The list of a server is taken exactly and atomically** when all strings spell specs, or
when the first one ends the loop and the handshake was done before; and not otherwise. -/
theorem takeServerSpecs_exact_iff (names : List Str) (client : CClientSocket) :
    ExactAtomic names client (client.takeServerSpecs names) ↔
      (∃ specs, List.Forall₂ Spells names specs) ∨
        client.handshakeDone = true ∧
          ∃ first rest, names = first :: rest ∧ stoul (behindAt first) = none := by
  constructor
  · rintro (⟨specs, spell, -⟩ | ⟨other, -, same, done⟩)
    · exact .inl ⟨specs, spell⟩
    · refine .inr ⟨done.symm, ?_⟩
      cases names with
      | nil => exact absurd ⟨[], .nil⟩ other
      | cons first rest =>
          refine ⟨first, rest, rfl, serverSpec_eq_none.mp ?_⟩
          cases read : serverSpec first with
          | none => rfl
          | some spec =>
              -- The spec of the first string is appended, whatever comes behind it.
              have longer := (serverSpecs_prefix_addServerSpecs rest
                { client with serverSpecs := client.serverSpecs ++ [spec] }).length_le
              simp only [takeServerSpecs, addServerSpecs, read] at same
              rw [same, List.length_append, List.length_singleton] at longer
              omega
  · rintro (⟨specs, spell⟩ | ⟨done, first, rest, rfl, refused⟩)
    · refine .inl ⟨specs, spell, ?_⟩
      rw [takeServerSpecs, addServerSpecs_of_spells spell]
    · have none := serverSpec_eq_none.mpr refused
      refine .inr ⟨?_, ?_⟩
      · rintro ⟨specs, spell⟩
        cases spell with
        | cons spells _ => cases none.symm.trans spells.serverSpec_eq
      · simp only [takeServerSpecs, addServerSpecs, none, disconnectOnError]
        exact ⟨trivial, trivial, done.symm⟩

/-- The first of two strings is appended, and the second one raises the error. -/
theorem not_exactAtomic : ¬ ∀ names client, ExactAtomic names client (client.takeServerSpecs names) := by
  intro all
  rcases all [[0x61, 0x40, 0x31], [0x62]] {} with ⟨specs, -, same⟩ | ⟨-, -, same, -⟩
  · have error : true = false := congrArg CClientSocket.error same
    cases error
  · exact absurd (congrArg List.length same) (by decide)

end CClientSocket

end Hyprwire.Client
