import Mathlib.Data.Fintype.Prod
import Hyprwire.Cpp.Loop
import Hyprwire.Wire.Magic
import Hyprwire.Wire.VarInt

/-!
# Generic messages

A generic message names an object and a method, and holds elements up to an `END`.
Its receiving constructor walks over the elements to find the end of the message,
and takes the descriptors the elements ask for from the front of a queue. The index
`i` of the walk counts from the offset of the message; every sum it enters is
reduced to a `size_t`.

The walk is a loop of the turns `elementTurn`. Nothing in it bounds the number of
turns, so `decode` allows as many as there are indices for each number of queued
descriptors; `decode_eq_none` shows that a walk longer than that has gone round.
`Element` gives the length of the element at an index as a signed number, and
`elementStep_eq_again` says that a turn advances by it.
-/

set_option autoImplicit false

namespace Hyprwire.Wire

open Cpp

/-- An `int` that names a descriptor, as its 32 bits. -/
abbrev Fd := UInt32

/-- `CGenericProtocolMessage`. -/
structure CGenericProtocolMessage where
  data : List UInt8 := []
  len : Nat := 0
  object : UInt32 := 0
  dependsOnSeq : UInt32 := 0
  method : UInt32 := 0
  dataSpan : View := ⟨0, fun _ => none⟩
  fds : List Fd := []

namespace CGenericProtocolMessage

/-! ## The sending side -/

/-- The constructor that is given the bytes and the descriptors. -/
def ofData (data : List UInt8) (fds : List Fd) : CGenericProtocolMessage := { data, fds }

/-- `resolveSeq`: the identifier goes to one byte of the data. -/
def resolveSeq (msg : CGenericProtocolMessage) (id : UInt32) : CGenericProtocolMessage :=
  { msg with
    object := id
    data := if 2 < msg.data.length then msg.data.set 2 id.toUInt8 else msg.data }

/-! ## The walk over the elements -/

/-- The walk before an element: its index, the descriptors the message has taken,
and those that are left in the queue. -/
structure ElementState where
  i : Nat
  taken : List Fd
  fds : List Fd
  deriving DecidableEq, Repr

/-- How the walk ends: at an `END`, or at something the decoder rejects. -/
inductive ElementExit where
  | done (s : ElementState)
  | reject (fds : List Fd)
  deriving DecidableEq, Repr

/-- The loop over the strings of an array. The array starts at the index `base` of
the buffer, `size` is what is said to be left there, and the next string starts
`arrMessageLen` bytes further on. -/
def skipStrings (data : View) (base size : Nat) : Nat → Nat → Except Fault Nat
  | 0, arrMessageLen => .ok arrMessageLen
  | n + 1, arrMessageLen => do
      let (strLen, strlenLen) ←
        parseVarInt data (base + arrMessageLen) (wrapSub size arrMessageLen)
      skipStrings data base size n (wrap (arrMessageLen + strLen + strlenLen))

/-- One turn of the `while` loop, up to the exceptions. -/
def elementStep (data : View) (offset : Nat) (s : ElementState) :
    Except Fault (Turn ElementState ElementExit) := do
  let magic ← data.checkedAt (wrap (offset + s.i))
  match EMessageMagic.ofByte magic with
  | some .endMark => return .leave (.done s)
  | some .typeUint | some .typeF32 | some .typeInt | some .typeObject | some .typeSeq =>
      return .again { s with i := wrap (s.i + 5) }
  | some .typeVarchar =>
      let (a, b) ← parseVarIntAt data (offset + s.i + 1)
      return .again { s with i := wrap (s.i + a + b + 1) }
  | some .typeArray =>
      let arrType ← data.checkedAt (wrap (offset + s.i + 1))
      -- The span is given `data.size() - i` bytes, but starts at `offset + i + 2`.
      let (arrLen, lenLen) ← parseVarInt data (offset + s.i + 2) (wrapSub data.size s.i)
      match EMessageMagic.ofByte arrType with
      | some .typeUint | some .typeF32 | some .typeInt | some .typeObject | some .typeSeq =>
          return .again { s with i := wrap (s.i + wrap (2 + lenLen + 4 * arrLen)) }
      | some .typeVarchar =>
          let arrMessageLen ←
            skipStrings data (offset + s.i) (wrapSub data.size s.i) arrLen (2 + lenLen)
          return .again { s with i := wrap (s.i + arrMessageLen) }
      | some .typeFd =>
          if arrLen ≤ s.fds.length then
            return .again
              { i := wrap (s.i + (2 + lenLen))
                taken := s.taken ++ s.fds.take arrLen
                fds := s.fds.drop arrLen }
          else
            return .leave (.reject [])
      | _ => return .leave (.reject s.fds)
  | some .typeFd =>
      match s.fds with
      | [] => return .leave (.reject [])
      | fd :: fds => return .again { i := wrap (s.i + 1), taken := s.taken ++ [fd], fds }
  | _ => return .leave (.reject s.fds)

/-- A turn of the walk inside the `try` block: an index past the end rejects. -/
def elementTurn (data : View) (offset : Nat) (s : ElementState) :
    Option (Turn ElementState (Except Fault ElementExit)) :=
  match elementStep data offset s with
  | .ok (.again s') => some (.again s')
  | .ok (.leave exit) => some (.leave (.ok exit))
  | .error .outOfRange => some (.leave (.ok (.reject s.fds)))
  | .error fault => some (.leave (.error fault))

/-- The object and the method before the elements, if they are there. -/
def decodeHeader (data : View) (offset : Nat) : Except Fault (Option (UInt32 × UInt32)) :=
  catchOutOfRange none do
    if (← data.checkedAt offset) ≠ EMessageType.genericProtocolMessage.code then
      return none
    if (← data.checkedAt (offset + 1)) ≠ EMessageMagic.typeObject.code then
      return none
    let object ← data.u32At (offset + 2)
    if (← data.checkedAt (offset + 6)) ≠ EMessageMagic.typeUint.code then
      return none
    let method ← data.u32At (offset + 7)
    return some (object, method)

/-- The walk before the first element. -/
def firstElement (fds : List Fd) : ElementState := { i := 11, taken := [], fds }

/-- The turns that reach every index with every number of queued descriptors. -/
def turnsFor (fds : List Fd) : Nat := 2 ^ 64 * (fds.length + 1)

/-- The message that the walk leaves, and the queue. A message without a length is
rejected, and its other fields are not looked at. -/
def finish (data : View) (offset : Nat) (object method : UInt32) :
    ElementExit → CGenericProtocolMessage × List Fd
  | .done s =>
      let len := wrap (s.i + 1)
      ({ object, method, len, fds := s.taken,
         dataSpan := data.span (offset + 11) (wrapSub len 11) }, s.fds)
  | .reject fds => ({}, fds)

/-- The receiving constructor: the message, and what is left of the queue. There is
no value when the walk goes on for ever. -/
def decode (data : View) (fds : List Fd) (offset : Nat) :
    Option (Except Fault (CGenericProtocolMessage × List Fd)) :=
  match decodeHeader data offset with
  | .error fault => some (.error fault)
  | .ok none => some (.ok ({}, fds))
  | .ok (some (object, method)) =>
      (loop (elementTurn data offset) (turnsFor fds) (firstElement fds)).map
        fun exit => exit.map (finish data offset object method)

/-! ## Turns and results -/

theorem elementTurn_total (data : View) (offset : Nat) (s : ElementState) :
    ∃ t, elementTurn data offset s = some t := by
  unfold elementTurn
  split
  · exact ⟨_, rfl⟩
  · exact ⟨_, rfl⟩
  · exact ⟨_, rfl⟩
  · exact ⟨_, rfl⟩

theorem next_iff {data : View} {offset : Nat} {s s' : ElementState} :
    Next (elementTurn data offset) s s' ↔ elementStep data offset s = .ok (.again s') := by
  unfold Next elementTurn
  split <;> rename_i h <;> rw [h] <;> simp

/-! ## The length of an element -/

/-- The prefixes of the strings of an array, one after the other, the first at
`arrMessageLen`. -/
def Prefixes (data : View) (base size : Nat) : Nat → List (List UInt8) → Prop
  | _, [] => True
  | arrMessageLen, bytes :: rest =>
      PrefixAt data (base + arrMessageLen) (wrapSub size arrMessageLen) bytes ∧
        Prefixes data base size (advance arrMessageLen (signedLength bytes + bytes.length)) rest

/-- The length of strings with these prefixes. -/
def stringsSize : List (List UInt8) → ℤ
  | [] => 0
  | bytes :: rest => signedLength bytes + bytes.length + stringsSize rest

theorem skipStrings_eq_ok {data : View} {base size n start stop : Nat} (small : start < 2 ^ 64) :
    skipStrings data base size n start = .ok stop ↔
      ∃ prefixes, prefixes.length = n ∧ Prefixes data base size start prefixes ∧
        stop = advance start (stringsSize prefixes) := by
  induction n generalizing start with
  | zero =>
      constructor
      · intro run
        refine ⟨[], rfl, trivial, ?_⟩
        rw [stringsSize, advance_zero small]
        exact (Except.ok.inj run).symm
      · rintro ⟨prefixes, none, -, rfl⟩
        rw [List.length_eq_zero_iff.mp none, stringsSize, advance_zero small]
        rfl
  | succ n ih =>
      rw [skipStrings, bind_eq_ok]
      constructor
      · rintro ⟨⟨strLen, strlenLen⟩, head, run⟩
        obtain ⟨bytes, lies, rfl, rfl⟩ := parseVarInt_eq_ok.mp head
        simp only [wrap_add_prefixLength] at run
        rw [ih (advance_lt _ _)] at run
        obtain ⟨prefixes, count, follow, rfl⟩ := run
        exact ⟨bytes :: prefixes, by rw [List.length_cons, count], ⟨lies, follow⟩,
          advance_advance _ _ _⟩
      · rintro ⟨prefixes, count, follow, rfl⟩
        obtain ⟨bytes, prefixes, rfl⟩ := List.exists_cons_of_length_eq_add_one count
        obtain ⟨lies, follow⟩ := follow
        refine ⟨_, lies.parseVarInt, ?_⟩
        simp only [wrap_add_prefixLength]
        rw [ih (advance_lt _ _)]
        exact ⟨prefixes, Nat.succ.inj count, follow, (advance_advance _ _ _).symm⟩

/-- The element at index `i` of the message at an offset: its length, and the number
of descriptors it takes. -/
inductive Element (data : View) (offset i : Nat) : ℤ → Nat → Prop
  | word {magic : EMessageMagic} (primitive : magic.IsWord)
      (tag : data.checkedAt (wrap (offset + i)) = .ok magic.code) : Element data offset i 5 0
  | varchar {bytes : List UInt8}
      (tag : data.checkedAt (wrap (offset + i)) = .ok EMessageMagic.typeVarchar.code)
      (lies : PrefixAt data (offset + i + 1) (wrapSub data.size (offset + i + 1)) bytes) :
      Element data offset i (1 + bytes.length + signedLength bytes) 0
  | words {magic : EMessageMagic} {bytes : List UInt8} (primitive : magic.IsWord)
      (tag : data.checkedAt (wrap (offset + i)) = .ok EMessageMagic.typeArray.code)
      (kind : data.checkedAt (wrap (offset + i + 1)) = .ok magic.code)
      (lies : PrefixAt data (offset + i + 2) (wrapSub data.size i) bytes) :
      Element data offset i (2 + bytes.length + 4 * signedLength bytes) 0
  | varchars {bytes : List UInt8} {prefixes : List (List UInt8)}
      (tag : data.checkedAt (wrap (offset + i)) = .ok EMessageMagic.typeArray.code)
      (kind : data.checkedAt (wrap (offset + i + 1)) = .ok EMessageMagic.typeVarchar.code)
      (lies : PrefixAt data (offset + i + 2) (wrapSub data.size i) bytes)
      (count : prefixes.length = prefixLength bytes)
      (strings : Prefixes data (offset + i) (wrapSub data.size i) (2 + bytes.length) prefixes) :
      Element data offset i (2 + bytes.length + stringsSize prefixes) 0
  | fds {bytes : List UInt8}
      (tag : data.checkedAt (wrap (offset + i)) = .ok EMessageMagic.typeArray.code)
      (kind : data.checkedAt (wrap (offset + i + 1)) = .ok EMessageMagic.typeFd.code)
      (lies : PrefixAt data (offset + i + 2) (wrapSub data.size i) bytes) :
      Element data offset i (2 + bytes.length) (prefixLength bytes)
  | fd (tag : data.checkedAt (wrap (offset + i)) = .ok EMessageMagic.typeFd.code) :
      Element data offset i 1 1

/-- The walk after an element of some length that takes some descriptors. -/
def ElementState.past (s : ElementState) (size : ℤ) (count : Nat) : ElementState :=
  { i := advance s.i size, taken := s.taken ++ s.fds.take count, fds := s.fds.drop count }

theorem wordArray_size (i : Nat) (bytes : List UInt8) :
    wrap (i + wrap (2 + bytes.length + 4 * prefixLength bytes)) =
      advance i (2 + bytes.length + 4 * signedLength bytes) := by
  have inner : wrap (i + wrap (2 + bytes.length + 4 * prefixLength bytes)) =
      wrap (i + (2 + bytes.length + 4 * prefixLength bytes)) := by
    simp only [wrap, Nat.add_mod_mod]
  rw [inner]
  refine (advance_eq_of_cast ⟨-(4 * (signedLength bytes / 2 ^ 64)), ?_⟩).symm
  simp only [Nat.cast_add, Nat.cast_mul, Nat.cast_ofNat]
  rw [prefixLength_cast, Int.emod_def]
  ring

theorem ElementState.past_none (s : ElementState) (size : ℤ) :
    s.past size 0 = { s with i := advance s.i size } := by
  simp [ElementState.past]

theorem past_one {i : Nat} {taken fds : List Fd} {fd : Fd} :
    ElementState.past ⟨i, taken, fd :: fds⟩ 1 1 = ⟨wrap (i + 1), taken ++ [fd], fds⟩ := by
  simp only [ElementState.past, List.take_succ_cons, List.take_zero, List.drop_succ_cons,
    List.drop_zero]
  rw [← advance_natCast, Nat.cast_one]

/-- A turn over a word. -/
theorem elementStep_word {data : View} {offset : Nat} {s : ElementState} {magic : EMessageMagic}
    (primitive : magic.IsWord) (tag : data.checkedAt (wrap (offset + s.i)) = .ok magic.code) :
    elementStep data offset s = .ok (.again (s.past 5 0)) := by
  have next : wrap (s.i + 5) = advance s.i 5 := (advance_natCast s.i 5).symm
  rw [ElementState.past_none, ← next]
  cases magic <;> first | exact absurd primitive (by decide) | exact bind_of_ok tag _

/-- A turn over a string. -/
theorem elementStep_varchar {data : View} {offset : Nat} {s : ElementState} {bytes : List UInt8}
    (tag : data.checkedAt (wrap (offset + s.i)) = .ok EMessageMagic.typeVarchar.code)
    (lies : PrefixAt data (offset + s.i + 1) (wrapSub data.size (offset + s.i + 1)) bytes) :
    elementStep data offset s =
      .ok (.again (s.past (1 + bytes.length + signedLength bytes) 0)) := by
  have next : wrap (s.i + prefixLength bytes + bytes.length + 1) =
      advance s.i (1 + bytes.length + signedLength bytes) := by
    rw [Nat.add_assoc _ bytes.length, wrap_add_prefixLength]
    congr 1
    push_cast
    ring
  rw [ElementState.past_none, ← next]
  exact (bind_of_ok tag _).trans (bind_of_ok lies.parseVarInt _)

/-- A turn over an array, once the prefix of its count is known. -/
theorem elementStep_array {data : View} {offset : Nat} {s : ElementState} {bytes : List UInt8}
    {arrType : UInt8}
    (tag : data.checkedAt (wrap (offset + s.i)) = .ok EMessageMagic.typeArray.code)
    (kind : data.checkedAt (wrap (offset + s.i + 1)) = .ok arrType)
    (lies : PrefixAt data (offset + s.i + 2) (wrapSub data.size s.i) bytes) :
    elementStep data offset s =
      match EMessageMagic.ofByte arrType with
      | some .typeUint | some .typeF32 | some .typeInt | some .typeObject | some .typeSeq =>
          .ok (.again (s.past (2 + bytes.length + 4 * signedLength bytes) 0))
      | some .typeVarchar =>
          (skipStrings data (offset + s.i) (wrapSub data.size s.i) (prefixLength bytes)
            (2 + bytes.length)).map fun arrMessageLen =>
              .again { s with i := wrap (s.i + arrMessageLen) }
      | some .typeFd =>
          if prefixLength bytes ≤ s.fds.length then
            .ok (.again (s.past (2 + bytes.length) (prefixLength bytes)))
          else
            .ok (.leave (.reject []))
      | _ => .ok (.leave (.reject s.fds)) := by
  refine (bind_of_ok tag _).trans ((bind_of_ok kind _).trans
    ((bind_of_ok lies.parseVarInt _).trans ?_))
  simp only [ElementState.past_none, ← wordArray_size]
  cases EMessageMagic.ofByte arrType with
  | none => rfl
  | some magic => cases magic <;> rfl

/-- A turn goes past the element at its index. -/
theorem elementStep_of_element {data : View} {offset : Nat} {s : ElementState} {size : ℤ}
    {count : Nat} (element : Element data offset s.i size count) (enough : count ≤ s.fds.length) :
    elementStep data offset s = .ok (.again (s.past size count)) := by
  cases element with
  | word primitive tag => exact elementStep_word primitive tag
  | varchar tag lies => exact elementStep_varchar tag lies
  | @words magic bytes primitive tag kind lies =>
      rw [elementStep_array tag kind lies, EMessageMagic.ofByte_code]
      cases magic <;> first | exact absurd primitive (by decide) | rfl
  | @varchars bytes prefixes tag kind lies counted strings =>
      have small : 2 + bytes.length < 2 ^ 64 := by have := lies.short; omega
      have run := (skipStrings_eq_ok small).mpr ⟨prefixes, counted, strings, rfl⟩
      rw [elementStep_array tag kind lies, EMessageMagic.ofByte_code]
      simp only [run, Except.map, ElementState.past_none]
      rw [← advance_natCast, advance_cast_add]
      push_cast
      rfl
  | fds tag kind lies =>
      rw [elementStep_array tag kind lies, EMessageMagic.ofByte_code]
      exact if_pos enough
  | fd tag =>
      obtain ⟨i, taken, fds⟩ := s
      cases fds with
      | nil => exact absurd enough (Nat.not_succ_le_zero 0)
      | cons fd fds =>
          rw [past_one]
          exact bind_of_ok tag _

/-- The element that a turn has gone past. -/
theorem element_of_elementStep {data : View} {offset : Nat} {s s' : ElementState}
    (run : elementStep data offset s = .ok (.again s')) :
    ∃ size count, Element data offset s.i size count ∧ count ≤ s.fds.length ∧
      s' = s.past size count := by
  have unique : ∀ {size : ℤ} {count : Nat}, Element data offset s.i size count →
      count ≤ s.fds.length → ∃ size count, Element data offset s.i size count ∧
        count ≤ s.fds.length ∧ s' = s.past size count := by
    intro size count element enough
    have same := (elementStep_of_element element enough).symm.trans run
    cases same
    exact ⟨size, count, element, enough, rfl⟩
  obtain ⟨byte, tag, rest⟩ := bind_eq_ok.mp run
  cases known : EMessageMagic.ofByte byte with
  | none => simp [known] at rest
  | some magic =>
      obtain rfl := EMessageMagic.ofByte_eq_some.mp known
      cases magic with
      | typeUint => exact unique (.word rfl tag) (Nat.zero_le _)
      | typeInt => exact unique (.word rfl tag) (Nat.zero_le _)
      | typeF32 => exact unique (.word rfl tag) (Nat.zero_le _)
      | typeSeq => exact unique (.word rfl tag) (Nat.zero_le _)
      | typeObject => exact unique (.word rfl tag) (Nat.zero_le _)
      | endMark => simp at rest
      | typeObjectId => simp at rest
      | typeVarchar =>
          simp only [EMessageMagic.ofByte_code, bind_eq_ok] at rest
          obtain ⟨⟨a, b⟩, read, -⟩ := rest
          obtain ⟨bytes, lies, -, -⟩ := parseVarInt_eq_ok.mp read
          exact unique (.varchar tag lies) (Nat.zero_le _)
      | typeFd =>
          obtain ⟨i, taken, fds⟩ := s
          cases fds with
          | nil => simp at rest
          | cons fd fds => exact unique (.fd tag) (Nat.succ_pos _)
      | typeArray =>
          simp only [EMessageMagic.ofByte_code, bind_eq_ok] at rest
          obtain ⟨arrType, kind, ⟨arrLen, lenLen⟩, read, -⟩ := rest
          obtain ⟨bytes, lies, -, -⟩ := parseVarInt_eq_ok.mp read
          rw [elementStep_array tag kind lies] at run
          cases known : EMessageMagic.ofByte arrType with
          | none => simp [known] at run
          | some magic =>
              obtain rfl := EMessageMagic.ofByte_eq_some.mp known
              cases magic with
              | typeUint => exact unique (.words rfl tag kind lies) (Nat.zero_le _)
              | typeInt => exact unique (.words rfl tag kind lies) (Nat.zero_le _)
              | typeF32 => exact unique (.words rfl tag kind lies) (Nat.zero_le _)
              | typeSeq => exact unique (.words rfl tag kind lies) (Nat.zero_le _)
              | typeObject => exact unique (.words rfl tag kind lies) (Nat.zero_le _)
              | typeVarchar =>
                  have small : 2 + bytes.length < 2 ^ 64 := by have := lies.short; omega
                  rw [EMessageMagic.ofByte_code] at run
                  cases strings : skipStrings data (offset + s.i) (wrapSub data.size s.i)
                      (prefixLength bytes) (2 + bytes.length) with
                  | error fault => simp [strings, Except.map] at run
                  | ok stop =>
                      obtain ⟨prefixes, counted, follow, -⟩ := (skipStrings_eq_ok small).mp strings
                      exact unique (.varchars tag kind lies counted follow) (Nat.zero_le _)
              | typeFd =>
                  rw [EMessageMagic.ofByte_code] at run
                  by_cases enough : prefixLength bytes ≤ s.fds.length
                  · exact unique (.fds tag kind lies) enough
                  · simp [enough] at run
              | endMark => simp at run
              | typeObjectId => simp at run
              | typeArray => simp at run

/-- **A turn that goes on goes past an element**, by its length, and takes its
descriptors. -/
theorem elementStep_eq_again {data : View} {offset : Nat} {s s' : ElementState} :
    elementStep data offset s = .ok (.again s') ↔
      ∃ size count, Element data offset s.i size count ∧ count ≤ s.fds.length ∧
        s' = s.past size count := by
  constructor
  · exact element_of_elementStep
  · rintro ⟨size, count, element, enough, rfl⟩
    exact elementStep_of_element element enough

/-- **The walk is done exactly at an `END`.** -/
theorem elementStep_eq_done {data : View} {offset : Nat} {s t : ElementState} :
    elementStep data offset s = .ok (.leave (.done t)) ↔
      data.checkedAt (wrap (offset + s.i)) = .ok EMessageMagic.endMark.code ∧ t = s := by
  constructor
  · intro run
    obtain ⟨byte, tag, rest⟩ := bind_eq_ok.mp run
    cases known : EMessageMagic.ofByte byte with
    | none => simp [known] at rest
    | some magic =>
        obtain rfl := EMessageMagic.ofByte_eq_some.mp known
        cases magic with
        | endMark => exact ⟨tag, by simpa using rest.symm⟩
        | typeVarchar => simp [bind_eq_ok] at rest
        | typeFd => obtain ⟨i, taken, _ | ⟨fd, fds⟩⟩ := s <;> simp at rest
        | typeArray =>
            simp only [EMessageMagic.ofByte_code, bind_eq_ok] at rest
            obtain ⟨arrType, kind, ⟨arrLen, lenLen⟩, read, -⟩ := rest
            obtain ⟨bytes, lies, -, -⟩ := parseVarInt_eq_ok.mp read
            rw [elementStep_array tag kind lies] at run
            split at run <;> try simp at run
            · simp only [Except.map] at run
              split at run <;> simp at run
            · split at run <;> simp at run
        | _ => simp at rest
  · rintro ⟨tag, rfl⟩
    exact bind_of_ok tag _

/-! ## The result of the walk -/

/-- The index stays a `size_t`, and the queue does not grow. -/
theorem walk_keeps {data : View} {offset n : Nat} (s s' : ElementState)
    (bounded : s.i < 2 ^ 64 ∧ s.fds.length ≤ n) (next : Next (elementTurn data offset) s s') :
    s'.i < 2 ^ 64 ∧ s'.fds.length ≤ n := by
  obtain ⟨size, count, -, -, rfl⟩ := elementStep_eq_again.mp (next_iff.mp next)
  refine ⟨advance_lt _ _, ?_⟩
  rw [ElementState.past, List.length_drop]
  exact Nat.le_trans (Nat.sub_le _ _) bounded.2

/-- What a turn depends on: the index, and the number of queued descriptors. -/
def walkValue (n : Nat) (s : ElementState) : Fin (2 ^ 64) × Fin (n + 1) :=
  (Fin.ofNat (2 ^ 64) s.i, Fin.ofNat (n + 1) s.fds.length)

theorem walkValue_eq {n : Nat} {s s' : ElementState} (bounded : s.i < 2 ^ 64 ∧ s.fds.length ≤ n)
    (bounded' : s'.i < 2 ^ 64 ∧ s'.fds.length ≤ n) (same : walkValue n s = walkValue n s') :
    s.i = s'.i ∧ s.fds.length = s'.fds.length := by
  have index := congrArg (fun value => value.1.val) same
  have queue := congrArg (fun value => value.2.val) same
  simp only [walkValue, Fin.val_ofNat] at index queue
  rw [Nat.mod_eq_of_lt bounded.1, Nat.mod_eq_of_lt bounded'.1] at index
  rw [Nat.mod_eq_of_lt (Nat.lt_succ_of_le bounded.2),
    Nat.mod_eq_of_lt (Nat.lt_succ_of_le bounded'.2)] at queue
  exact ⟨index, queue⟩

/-- **The number of turns `decode` allows does not cut a walk off.** -/
theorem loop_turnsFor {data : View} {fds : List Fd} {offset : Nat} {exit : Except Fault ElementExit}
    (exits : Exits (elementTurn data offset) (firstElement fds) exit) :
    loop (elementTurn data offset) (turnsFor fds) (firstElement fds) = some exit := by
  cases result : loop (elementTurn data offset) (turnsFor fds) (firstElement fds) with
  | some exit' => exact congrArg some (Exits.unique ⟨_, result⟩ exits)
  | none =>
      obtain ⟨n, leaves⟩ := exits
      have never := @loop_none_forever _ _ _ _ _ (walkValue fds.length)
        (fun s => s.i < 2 ^ 64 ∧ s.fds.length ≤ fds.length) walk_keeps
        (fun s _ => elementTurn_total data offset s) ?_ (turnsFor fds) ?_ (firstElement fds)
        ⟨by simp [firstElement], Nat.le_refl _⟩ result n
      · cases leaves.symm.trans never
      · intro s s' t bounded bounded' same next
        obtain ⟨index, queue⟩ := walkValue_eq bounded bounded' same
        obtain ⟨size, count, element, enough, rfl⟩ := elementStep_eq_again.mp (next_iff.mp next)
        refine ⟨s'.past size count, next_iff.mpr (elementStep_eq_again.mpr
          ⟨size, count, index ▸ element, queue ▸ enough, rfl⟩), ?_⟩
        simp only [walkValue, ElementState.past, List.length_drop, index, queue]
      · rw [Fintype.card_prod, Fintype.card_fin, Fintype.card_fin]
        exact Nat.le_refl _

/-- **What `decode` gives after a header**: the walk's exit, if there is one. -/
theorem decode_eq_some {data : View} {fds : List Fd} {offset : Nat} {object method : UInt32}
    (header : decodeHeader data offset = .ok (some (object, method)))
    {result : Except Fault (CGenericProtocolMessage × List Fd)} :
    decode data fds offset = some result ↔
      ∃ exit, Exits (elementTurn data offset) (firstElement fds) exit ∧
        result = exit.map (finish data offset object method) := by
  simp only [decode, header, Option.map_eq_some_iff]
  constructor
  · rintro ⟨exit, run, rfl⟩
    exact ⟨exit, ⟨_, run⟩, rfl⟩
  · rintro ⟨exit, exits, rfl⟩
    exact ⟨exit, loop_turnsFor exits, rfl⟩

/-- **`decode` gives nothing exactly when the walk goes on for ever.** -/
theorem decode_eq_none {data : View} {fds : List Fd} {offset : Nat} {object method : UInt32}
    (header : decodeHeader data offset = .ok (some (object, method))) :
    decode data fds offset = none ↔
      ¬ ∃ exit, Exits (elementTurn data offset) (firstElement fds) exit := by
  rw [Option.eq_none_iff_forall_ne_some]
  constructor
  · rintro never ⟨exit, exits⟩
    exact never _ ((decode_eq_some header).mpr ⟨exit, exits, rfl⟩)
  · intro never result run
    obtain ⟨exit, exits, -⟩ := (decode_eq_some header).mp run
    exact never ⟨exit, exits⟩

/-- The walk is done after reaching an `END`. -/
theorem exits_done_iff {data : View} {offset : Nat} {s t : ElementState} :
    Exits (elementTurn data offset) s (.ok (.done t)) ↔
      Reaches (elementTurn data offset) s t ∧
        data.checkedAt (wrap (offset + t.i)) = .ok EMessageMagic.endMark.code := by
  have leaves : ∀ u, elementTurn data offset u = some (.leave (.ok (.done t))) ↔
      elementStep data offset u = .ok (.leave (.done t)) := by
    intro u
    unfold elementTurn
    split <;> rename_i h <;> rw [h] <;> simp
  rw [exits_iff]
  constructor
  · rintro ⟨u, reaches, exit⟩
    obtain ⟨mark, rfl⟩ := elementStep_eq_done.mp ((leaves u).mp exit)
    exact ⟨reaches, mark⟩
  · rintro ⟨reaches, mark⟩
    exact ⟨t, reaches, (leaves t).mpr (elementStep_eq_done.mpr ⟨mark, rfl⟩)⟩

/-- **A message is accepted exactly when the walk reaches an `END`** at an index
whose successor is a length. -/
theorem decode_accepts {data : View} {fds rest : List Fd} {offset : Nat}
    {msg : CGenericProtocolMessage} :
    (decode data fds offset = some (.ok (msg, rest)) ∧ msg.len ≠ 0) ↔
      ∃ object method s, decodeHeader data offset = .ok (some (object, method)) ∧
        Reaches (elementTurn data offset) (firstElement fds) s ∧
        data.checkedAt (wrap (offset + s.i)) = .ok EMessageMagic.endMark.code ∧
        wrap (s.i + 1) ≠ 0 ∧ (msg, rest) = finish data offset object method (.done s) := by
  constructor
  · rintro ⟨run, length⟩
    cases header : decodeHeader data offset with
    | error fault => simp [decode, header] at run
    | ok found =>
        rcases found with _ | ⟨object, method⟩
        · simp only [decode, header, Option.some.injEq, Except.ok.injEq, Prod.mk.injEq] at run
          exact absurd (congrArg len run.1).symm length
        · obtain ⟨exit, exits, result⟩ := (decode_eq_some header).mp run
          rcases exit with fault | ⟨s⟩ | ⟨left⟩
          · simp [Except.map] at result
          · obtain ⟨reaches, mark⟩ := exits_done_iff.mp exits
            have message := Except.ok.inj result
            refine ⟨object, method, s, rfl, reaches, mark, ?_, message⟩
            have same := congrArg (fun pair => pair.1.len) message
            exact fun zero => length (same.trans zero)
          · have message := Except.ok.inj result
            exact absurd (congrArg (fun pair => pair.1.len) message) length
  · rintro ⟨object, method, s, header, reaches, mark, length, message⟩
    have exits := exits_done_iff.mpr ⟨reaches, mark⟩
    refine ⟨(decode_eq_some header).mpr ⟨_, exits, congrArg Except.ok message⟩, ?_⟩
    have same := congrArg (fun pair => pair.1.len) message
    exact fun zero => length (same.symm.trans zero)

end CGenericProtocolMessage

end Hyprwire.Wire
