import Hyprwire.Tracing.Printer
import Hyprwire.Wire.Accepted

/-!
# Printing tokens

What is accepted and what is sent is made of tokens, and the walk of the printer goes past
a token that has a byte behind it. At the end of `m_data`, where a received message has
lost its `END`, it does not always: an array of strings whose last one is empty leaves one
byte for the copy that the last one is taken away of (`CutShort`). `printed_received_iff` says that
this is the only way in which the printing of tokens fails, if no array holds sequences,
for which the printer has no case.
-/

set_option autoImplicit false

namespace Hyprwire.Tracing

open Cpp Wire Object Base128

variable {formatFloat : UInt32 → Str} {data : View}

/-! ## Walks -/

/-- The walk goes from an index to another one, and what has been printed stays. -/
def Walks (formatFloat : UInt32 → Str) (data : View) (needle next : Nat) : Prop :=
  ∀ result, ∃ result', Reaches (printTurn formatFloat data) ⟨needle, result⟩ ⟨next, result'⟩ ∧
    result.length ≤ result'.length

namespace Walks

theorem refl (needle : Nat) : Walks formatFloat data needle needle :=
  fun result => ⟨result, .refl, Nat.le_refl _⟩

theorem trans {i j k : Nat} (first : Walks formatFloat data i j)
    (second : Walks formatFloat data j k) : Walks formatFloat data i k := by
  intro result
  obtain ⟨result', reaches, grown⟩ := first result
  obtain ⟨result'', reaches', grown'⟩ := second result'
  exact ⟨result'', reaches.trans reaches', grown.trans grown'⟩

theorem of_passes {needle next : Nat} (inside : needle < data.size)
    (passes : Passes formatFloat data needle next) : Walks formatFloat data needle next := by
  intro result
  obtain ⟨item, printed⟩ := passes
  refine ⟨result ++ item ++ text ", ", .single ?_, ?_⟩
  · exact printTurn_next_iff.mpr ⟨inside, item, printed, rfl⟩
  · rw [List.append_assoc, List.length_append]
    exact Nat.le_add_right _ _

end Walks

/-- The loop allows for every walk that ends. -/
theorem parseData_of_exits {type : EMessageType} {data : List UInt8} {walked : Except Fault Str}
    (exits : Exits (printTurn formatFloat (spanOf data)) (firstItem type) walked) :
    parseData formatFloat type data = some (walked.bind closing) := by
  cases run : parseData formatFloat type data with
  | none =>
      obtain ⟨turns, ended⟩ := exits
      rw [parseData_eq_none run turns] at ended
      cases ended
  | some result =>
      obtain ⟨walked', ended, rfl⟩ := Option.map_eq_some_iff.mp run
      rw [exits.unique ⟨_, ended⟩]

theorem trim_eq_ok {result : Str} (long : 2 ≤ result.length) :
    ∃ trimmed, trim result = .ok trimmed ∧ result.length ≤ trimmed.length + 2 := by
  rw [trim, if_neg (Nat.not_lt.mpr long)]
  split
  · refine ⟨_, rfl, ?_⟩
    simp only [List.length_dropLast]
    omega
  · exact ⟨_, rfl, Nat.le_add_right _ _⟩

/-- Two characters are taken away twice at most. -/
theorem closing_eq_ok {result : Str} (long : 4 ≤ result.length) :
    ∃ closed, closing result = .ok closed := by
  obtain ⟨first, trimmed, grown⟩ := @trim_eq_ok result (by omega)
  obtain ⟨second, trimmed', -⟩ := @trim_eq_ok first (by omega)
  exact ⟨second ++ text " ) ", by rw [closing, trimmed, ok_bind, trimmed', ok_bind]; rfl⟩

/-- The name of the type stands before the items. -/
theorem firstItem_long (type : EMessageType) : 4 ≤ (firstItem type).result.length := by
  cases type <;> decide +kernel

/-- A walk to the end of the data prints it. -/
theorem printed_of_walks {type : EMessageType} {data : List UInt8} {next : Nat}
    (walks : ∀ formatFloat, Walks formatFloat (spanOf data) 1 next) (ends : data.length ≤ next) :
    Printed type data := by
  intro formatFloat
  obtain ⟨result, reaches, grown⟩ := walks formatFloat (firstItem type).result
  have leaves : printTurn formatFloat (spanOf data) ⟨next, result⟩ = some (.leave (.ok result)) :=
    if_neg (Nat.not_lt.mpr ends)
  obtain ⟨closed, same⟩ := closing_eq_ok ((firstItem_long type).trans grown)
  refine ⟨closed, ?_⟩
  rw [parseData_of_exits (.of_reaches reaches (.leave leaves))]
  exact congrArg some same

/-- A walk to an item that is not printed does not print the data. -/
theorem not_printed_of_walks {type : EMessageType} {data : List UInt8} {next : Nat} {fault : Fault}
    (walks : ∀ formatFloat, Walks formatFloat (spanOf data) 1 next) (inside : next < data.length)
    (faults : ∀ formatFloat, formatItem formatFloat (spanOf data) next = .error fault) :
    ¬ Printed type data := by
  intro printed
  obtain ⟨result, run⟩ := printed fun _ => []
  obtain ⟨result', reaches, -⟩ := walks (fun _ => []) (firstItem type).result
  have leaves : printTurn (fun _ => []) (spanOf data) ⟨next, result'⟩ =
      some (.leave (.error fault)) := by
    rw [printTurn, if_pos (show next < (spanOf data).size from inside), faults]
  rw [parseData_of_exits (.of_reaches reaches (.leave leaves))] at run
  cases run

/-! ## Elements -/

section Elements

variable {needle next : Nat} {thisType : UInt8}

/-- The elements of an array are printed, and end at another index. -/
def ElementsPass (formatFloat : UInt32 → Str) (data : View) (thisType : UInt8)
    (els needle next : Nat) : Prop :=
  ∃ items, formatElements formatFloat data thisType els needle = .ok (items, next)

/-- The bytes from an index on. -/
def rest (data : View) (needle : Nat) : View := data.span needle (wrapSub data.size needle)

theorem size_rest (inside : needle ≤ data.size) (small : data.size < 2 ^ 63) :
    (rest data needle).size = data.size - needle :=
  wrapSub_of_le inside (by omega)

theorem holds_rest {i : Nat} {bytes : List UInt8} :
    (rest data needle).Holds i bytes ↔ data.Holds (needle + i) bytes :=
  View.holds_span

theorem elementsPass_zero (needle : Nat) : ElementsPass formatFloat data thisType 0 needle needle :=
  ⟨[], rfl⟩

theorem elementsPass_succ {els len : Nat} {str : Str}
    (first : formatPrimitiveType formatFloat (rest data needle) thisType = .ok (str, len))
    (others : ElementsPass formatFloat data thisType els (needle + len) next)
    (fits : needle + len < 2 ^ 64) : ElementsPass formatFloat data thisType (els + 1) needle next := by
  obtain ⟨items, printed⟩ := others
  refine ⟨str ++ text ", " ++ items, ?_⟩
  rw [rest] at first
  rw [formatElements_succ, first, ok_bind]
  simp only [wrap_of_lt fits, printed, ok_bind]

/-- Elements are printed one after the other. -/
theorem formatElements_add {n m : Nat}
    (first : ElementsPass formatFloat data thisType n needle next) :
    ∃ items, formatElements formatFloat data thisType (n + m) needle =
      (formatElements formatFloat data thisType m next).map fun others =>
        (items ++ others.1, others.2) := by
  induction n generalizing needle with
  | zero =>
      obtain ⟨items, printed⟩ := first
      cases printed
      refine ⟨[], ?_⟩
      rw [Nat.zero_add]
      cases formatElements formatFloat data thisType m next <;> rfl
  | succ n ih =>
      obtain ⟨items, printed⟩ := first
      rw [formatElements_succ] at printed
      obtain ⟨⟨str, len⟩, element, printed⟩ := bind_eq_ok.mp printed
      obtain ⟨⟨more, last⟩, others, same⟩ := bind_eq_ok.mp printed
      cases same
      obtain ⟨items, behind⟩ := ih ⟨more, others⟩
      refine ⟨str ++ text ", " ++ items, ?_⟩
      rw [Nat.succ_add, formatElements_succ, element, ok_bind]
      simp only [behind]
      cases formatElements formatFloat data thisType m next with
      | error fault => rfl
      | ok others => simp [Except.map]

theorem elementsPass_add {n m place : Nat}
    (first : ElementsPass formatFloat data thisType n needle place)
    (second : ElementsPass formatFloat data thisType m place next) :
    ElementsPass formatFloat data thisType (n + m) needle next := by
  obtain ⟨others, behind⟩ := second
  obtain ⟨items, printed⟩ := @formatElements_add _ _ _ _ _ n m first
  exact ⟨items ++ others, by rw [printed, behind]; rfl⟩

/-- An element that is not printed ends the loop. -/
theorem formatElements_fault {n place : Nat} {fault : Fault}
    (first : ElementsPass formatFloat data thisType n needle place)
    (faults : formatPrimitiveType formatFloat (rest data place) thisType = .error fault) :
    formatElements formatFloat data thisType (n + 1) needle = .error fault := by
  obtain ⟨items, printed⟩ := @formatElements_add _ _ _ _ _ n 1 first
  rw [rest] at faults
  rw [printed, formatElements_succ, faults]
  rfl

/-- Descriptors leave no bytes behind. -/
theorem elementsPass_fds (els : Nat) (small : needle < 2 ^ 64) :
    ElementsPass formatFloat data EMessageMagic.typeFd.code els needle needle := by
  induction els with
  | zero => exact elementsPass_zero needle
  | succ els ih => exact elementsPass_succ rfl ih small

/-- A word that is not a sequence is printed. -/
theorem formatPrimitiveType_word {magic : EMessageMagic} (primitive : magic.IsWord = true)
    (known : magic ≠ .typeSeq) {bits : UInt32} {v : View} (holds : v.Holds 0 (u32Bytes bits))
    (room : 4 ≤ v.size) :
    ∃ str, formatPrimitiveType formatFloat v magic.code = .ok (str, 4) := by
  have read : v.rawU32 0 = .ok bits := by
    rw [← List.append_nil (u32Bytes bits)] at holds
    exact View.rawU32_of_holds holds
  have printed : ∀ format, formatBytes v format = .ok (format bits, 4) := by
    intro format
    rw [formatBytes, if_neg (Nat.not_lt.mpr room), read]
    rfl
  cases magic with
  | typeUint | typeInt | typeF32 | typeObject =>
      simp only [formatPrimitiveType, EMessageMagic.ofByte_code, printed]
      exact ⟨_, rfl⟩
  | typeSeq => exact absurd rfl known
  | _ => cases primitive

theorem elementsPass_words {magic : EMessageMagic} (primitive : magic.IsWord = true)
    (known : magic ≠ .typeSeq) (small : data.size < 2 ^ 63) {elements : List UInt32}
    (holds : data.Holds needle (elements.flatMap u32Bytes))
    (inside : needle + (elements.flatMap u32Bytes).length ≤ data.size) :
    ElementsPass formatFloat data magic.code elements.length needle
      (needle + (elements.flatMap u32Bytes).length) := by
  induction elements generalizing needle with
  | nil => exact elementsPass_zero needle
  | cons bits elements ih =>
      rw [List.flatMap_cons] at holds inside ⊢
      rw [List.length_append, length_u32Bytes] at inside ⊢
      obtain ⟨here, behind⟩ := View.holds_append.mp holds
      obtain ⟨str, printed⟩ := formatPrimitiveType_word primitive known
        (holds_rest.mpr here) (by rw [size_rest (by omega) small]; omega)
      refine elementsPass_succ printed ?_ (by omega)
      rw [← Nat.add_assoc]
      exact ih behind (by omega)

end Elements

/-! ## Strings -/

section Strings

/-- Bytes in the front of a block that lies in a view. -/
theorem spanOf_holds_front {v : View} {start : Nat} {block bytes : List UInt8}
    (whole : v.Holds start block) (front : v.Holds start bytes)
    (short : bytes.length ≤ block.length) (small : block.length < 2 ^ 64) :
    (spanOf block).Holds 0 bytes := by
  intro k within
  have index : wrap (0 + k) = k := by rw [Nat.zero_add, wrap_of_lt (by omega)]
  show block[wrap (0 + k)]? = some bytes[k]
  rw [index, List.getElem?_eq_getElem (by omega), ← whole k (by omega), front k within]

/-- What is copied of bytes that have one more behind them. -/
theorem copyButLast_of_holds {v : View} {bytes : List UInt8} (holds : v.Holds 0 bytes)
    (size : v.size = bytes.length + 1) : copyButLast v = .ok bytes := by
  rw [copyButLast, size, if_neg (Nat.succ_ne_zero _), Nat.add_sub_cancel]
  exact View.rawBlock_of_holds holds

/-- What is copied of the bytes that are left. -/
theorem copyButLast_rest (filled : Filled data) (small : data.size < 2 ^ 63) {needle : Nat}
    (inside : needle < data.size) :
    ∃ copied, copyButLast (rest data needle) = .ok copied ∧ (rest data needle).Holds 0 copied ∧
      copied.length + 1 = data.size - needle := by
  obtain ⟨copied, length, held⟩ :=
    @exists_holds data filled small needle (data.size - needle - 1) (by omega)
  have size := size_rest (Nat.le_of_lt inside) small
  have lies : (rest data needle).Holds 0 copied := holds_rest.mpr held
  exact ⟨copied, copyButLast_of_holds lies (by omega), lies, by omega⟩

/-- **A string that has a byte behind its length is printed.** -/
theorem formatPrimitiveType_string (filled : Filled data) (small : data.size < 2 ^ 63)
    {needle : Nat} {s : WireString} (holds : data.Holds needle s.bytes)
    (inside : needle + s.bytes.length ≤ data.size)
    (room : needle + s.length.bytes.length < data.size) :
    ∃ str, formatPrimitiveType formatFloat (rest data needle) EMessageMagic.typeVarchar.code =
      .ok (str, s.bytes.length) := by
  obtain ⟨lengthHeld, stringHeld⟩ := View.holds_append.mp holds
  obtain ⟨copied, copies, lies, size⟩ :=
    @copyButLast_rest data filled small needle (by omega)
  rw [WireString.bytes, List.length_append] at inside
  have front : (spanOf copied).Holds 0 s.length.bytes :=
    spanOf_holds_front lies (holds_rest.mpr lengthHeld) (by omega) (by omega)
  have read : parseVarIntAt (spanOf copied) 0 = .ok (s.length.value, s.length.bytes.length) := by
    refine (s.length.prefixAt front ?_).parseVarInt
    have whole : wrapSub (spanOf copied).size 0 = copied.length :=
      wrapSub_of_le (Nat.zero_le _) (show copied.length < 2 ^ 64 by omega)
    omega
  rw [← s.fits] at read
  have string := View.rawBlock_of_holds (holds_rest.mpr stringHeld)
  refine ⟨quoted s.string, ?_⟩
  rw [formatPrimitiveType_varchar, copies, ok_bind, read, ok_bind]
  simp only [string, ok_bind]
  rw [wrap_of_lt (by omega), WireString.bytes, List.length_append, Nat.add_comm]

/-- The strings of an array are printed when the last one has a byte behind it, or is not
empty. -/
theorem elementsPass_strings (filled : Filled data) (small : data.size < 2 ^ 63) {needle : Nat}
    {elements : List WireString} (holds : data.Holds needle (elements.flatMap WireString.bytes))
    (inside : needle + (elements.flatMap WireString.bytes).length ≤ data.size)
    (room : needle + (elements.flatMap WireString.bytes).length < data.size ∨
      ∀ before last, elements = before ++ [last] → last.string ≠ []) :
    ElementsPass formatFloat data EMessageMagic.typeVarchar.code elements.length needle
      (needle + (elements.flatMap WireString.bytes).length) := by
  induction elements generalizing needle with
  | nil => exact elementsPass_zero needle
  | cons s elements ih =>
      rw [List.flatMap_cons] at holds inside room ⊢
      rw [List.length_append] at inside room ⊢
      obtain ⟨here, behind⟩ := View.holds_append.mp holds
      have length : s.bytes.length = s.length.bytes.length + s.string.length :=
        List.length_append
      have more : needle + s.length.bytes.length < data.size := by
        cases elements with
        | nil =>
            rcases room with below | full
            · simp only [List.flatMap_nil, List.length_nil] at below
              omega
            · have some := List.length_pos_iff.mpr (full [] s rfl)
              omega
        | cons next elements =>
            have positive := next.length.numeral.length_pos
            have length' : next.bytes.length = next.length.bytes.length + next.string.length :=
              List.length_append
            rw [List.flatMap_cons, List.length_append] at inside
            omega
      obtain ⟨str, printed⟩ := formatPrimitiveType_string filled small
        here (by omega) more
      refine elementsPass_succ printed ?_ (by omega)
      rw [← Nat.add_assoc]
      refine ih behind (by omega) ?_
      rcases room with below | full
      · exact .inl (by omega)
      · exact .inr fun before last same => full (s :: before) last (by rw [same, List.cons_append])

/-! ### An empty string at the end -/

theorem value_concat (front : List UInt8) (byte : UInt8) :
    value (front ++ [byte]) = value front + byte.toNat % 128 * 128 ^ front.length := by
  induction front with
  | nil => simp [value_cons, value_nil]
  | cons first front ih =>
      rw [List.cons_append, value_cons, value_cons, ih, List.length_cons]
      ring

/-- The bytes of a length that is zero: all groups are, up to the bits that the shift of the
fifth one loses. -/
theorem eq_nil_of_zero_length {front : List UInt8} {byte : UInt8} (short : (front ++ [byte]).length ≤ 5)
    (zero : signedLength (front ++ [byte]) = 0) :
    prefixLength front = 0 ∧ byte.toNat % 16 = 0 := by
  rw [List.length_append, List.length_singleton] at short
  rcases Nat.lt_or_ge front.length 4 with few | four
  · have low : prefixLength (front ++ [byte]) = value (front ++ [byte]) :=
      prefixLength_eq (by rw [List.length_append, List.length_singleton]; omega)
    rw [signedLength_eq (by rw [List.length_append, List.length_singleton]; omega), low,
      value_concat] at zero
    have none : value front = 0 := by omega
    have last : byte.toNat % 128 * 128 ^ front.length = 0 := by omega
    rw [prefixLength_eq (by omega)]
    refine ⟨none, ?_⟩
    rcases Nat.mul_eq_zero.mp last with group | power
    · omega
    · exact absurd power (pow_ne_zero _ (by decide))
  · obtain ⟨b₀, b₁, b₂, b₃, rfl⟩ :=
      List.length_eq_four.mp (Nat.le_antisymm (Nat.le_of_lt_succ short) four)
    have four : [b₀, b₁, b₂, b₃].length ≤ 4 := Nat.le_refl 4
    have low := prefixLength_lt four
    have split : signedLength ([b₀, b₁, b₂, b₃] ++ [byte]) =
        signedLength [b₀, b₁, b₂, b₃] + signedGroup byte 28 := by
      simp only [List.cons_append, List.nil_append, signedLength, signedSum_cons, signedSum_nil]
      ring
    rw [split, signedLength_eq four] at zero
    unfold signedGroup at zero
    simp only [lowSeven_eq] at zero
    split at zero <;> omega

/-- All bytes of a numeral but the last continue. -/
theorem header_of_numeral {front : List UInt8} {byte : UInt8} (some : front ≠ [])
    (numeral : Numeral (front ++ [byte])) : Header front.length front := by
  induction front with
  | nil => exact absurd rfl some
  | cons first front ih =>
      cases front with
      | nil => exact fun both => absurd both.1 (Nat.lt_irrefl 1)
      | cons second front =>
          exact ⟨⟨Nat.succ_lt_succ (Nat.succ_pos _), numeral.1⟩, ih (List.cons_ne_nil _ _) numeral.2⟩

section AtEnd

variable {needle : Nat} {s : WireString}

/-- **An empty string with a length of one byte at the end of the data is not printed**: the
copy is empty, and its first byte is read. -/
theorem formatPrimitiveType_lost (small : data.size < 2 ^ 63)
    (ends : needle + 1 = data.size) :
    formatPrimitiveType formatFloat (rest data needle) EMessageMagic.typeVarchar.code =
      .error .outOfBounds := by
  have size := @size_rest data needle (by omega) small
  have copies : copyButLast (rest data needle) = .ok [] :=
    copyButLast_of_holds (View.holds_nil _ _) (by rw [size, List.length_nil]; omega)
  rw [formatPrimitiveType_varchar, copies, ok_bind]
  rfl

/-- With a longer length it ends one byte too early, in front of the last byte of the
length. -/
theorem formatPrimitiveType_early {front : List UInt8} {byte : UInt8} (some : front ≠ [])
    (small : data.size < 2 ^ 63) (numeral : Numeral (front ++ [byte])) (short : front.length ≤ 4)
    (zero : prefixLength front = 0) (holds : data.Holds needle front)
    (ends : needle + front.length + 1 = data.size) :
    ∃ str, formatPrimitiveType formatFloat (rest data needle) EMessageMagic.typeVarchar.code =
      .ok (str, front.length) := by
  have size := @size_rest data needle (by omega) small
  have lies : (rest data needle).Holds 0 front := holds_rest.mpr holds
  have copies : copyButLast (rest data needle) = .ok front := copyButLast_of_holds lies (by omega)
  have read : parseVarIntAt (spanOf front) 0 = .ok (0, front.length) := by
    have whole : wrapSub (spanOf front).size 0 = front.length :=
      wrapSub_of_le (Nat.zero_le _) (show front.length < 2 ^ 64 by omega)
    have front' := spanOf_holds_front lies lies (Nat.le_refl _) (by omega)
    have value := parseVarInt_of_holds front' (header_of_numeral some numeral) (by omega)
    rw [zero] at value
    rw [parseVarIntAt, whole]
    exact value
  refine ⟨quoted [], ?_⟩
  rw [formatPrimitiveType_varchar, copies, ok_bind, read, ok_bind]
  simp only [Nat.zero_add]
  rw [wrap_of_lt (by omega)]
  rfl

end AtEnd

end Strings

/-! ## Items -/

section Items

variable {needle next : Nat}

theorem formatItem_of_tag {magic : EMessageMagic} {bytes : List UInt8}
    (holds : data.Holds needle (magic.code :: bytes)) (inside : needle < data.size)
    (small : data.size < 2 ^ 63) :
    data.checkedAt needle = .ok magic.code ∧ wrap (needle + 1) = needle + 1 ∧
      data.Holds (needle + 1) bytes :=
  ⟨View.checkedAt_inside holds inside small, wrap_of_lt (by omega), (View.holds_cons.mp holds).2⟩

/-- A word is printed. -/
theorem passes_word {magic : EMessageMagic} (primitive : magic.IsWord = true) {bits : UInt32}
    (holds : data.Holds needle (magic.code :: u32Bytes bits)) (inside : needle + 5 ≤ data.size)
    (small : data.size < 2 ^ 63) : Passes formatFloat data needle (needle + 5) := by
  obtain ⟨tag, after, word⟩ := formatItem_of_tag holds (by omega) small
  have read : data.u32At (needle + 1) = .ok bits := View.u32At_inside word (by omega) small
  have printed : ∀ format, formatWord data (needle + 1) format =
      .ok (format bits, needle + 5) := by
    intro format
    have room : 4 ≤ wrapSub data.size (needle + 1) := by
      rw [wrapSub_of_le (by omega) (by omega)]
      omega
    rw [formatWord, if_pos room, read, ok_bind, wrap_of_lt (by omega)]
    rfl
  rw [← after] at printed
  cases magic with
  | typeUint | typeInt | typeF32 | typeObject | typeSeq =>
      exact ⟨_, (bind_of_ok tag _).trans (printed _)⟩
  | _ => cases primitive

/-- A descriptor is printed. -/
theorem passes_fd (holds : data.Holds needle [EMessageMagic.typeFd.code])
    (inside : needle < data.size) (small : data.size < 2 ^ 63) :
    Passes formatFloat data needle (needle + 1) := by
  obtain ⟨tag, after, -⟩ := formatItem_of_tag holds inside small
  rw [← after]
  exact ⟨text "<fd>", bind_of_ok tag _⟩

/-- A byte that is no magic, an `END` or the magic of a descriptor is gone past alone. -/
theorem passes_other {byte : UInt8} (holds : data.Holds needle [byte]) (inside : needle < data.size)
    (small : data.size < 2 ^ 63) (low : byte.toNat % 16 = 0)
    (other : byte ≠ EMessageMagic.typeVarchar.code) (ends : needle + 1 = data.size) :
    Passes formatFloat data needle (needle + 1) := by
  have tag : data.checkedAt needle = .ok byte := View.checkedAt_inside holds inside small
  have after : wrap (needle + 1) = needle + 1 := wrap_of_lt (by omega)
  have full : ∀ format, formatWord data (wrap (needle + 1)) format =
      .ok ([], wrap (needle + 1)) := by
    intro format
    rw [after, formatWord, if_neg]
    rw [wrapSub_of_le (by omega) (by omega)]
    omega
  rw [← after]
  cases known : EMessageMagic.ofByte byte with
  | none =>
      refine ⟨[], (bind_of_ok tag _).trans ?_⟩
      simp only [known, pure_eq_ok]
  | some magic =>
      obtain rfl := EMessageMagic.ofByte_eq_some.mp known
      cases magic with
      | endMark | typeFd => exact ⟨_, bind_of_ok tag _⟩
      | typeUint => exact ⟨[], (bind_of_ok tag _).trans (full _)⟩
      | typeVarchar => exact absurd rfl other
      | _ => exact absurd low (by decide)

/-- The length of a string that starts with the last byte is read behind the data. -/
theorem formatItem_pastEnd {bytes : List UInt8} (small : bytes.length < 2 ^ 63)
    (holds : (spanOf bytes).Holds needle [EMessageMagic.typeVarchar.code])
    (ends : needle + 1 = bytes.length) :
    formatItem formatFloat (spanOf bytes) needle = .error .outOfBounds := by
  obtain ⟨tag, after, -⟩ := formatItem_of_tag holds
    (show needle < bytes.length by omega) small
  have read : parseVarIntAt (spanOf bytes) (needle + 1) = .error .outOfBounds := by
    have none : (spanOf bytes).rawAt (wrap (needle + 1 + 0)) = .error .outOfBounds := by
      have outside : (spanOf bytes).read (wrap (needle + 1 + 0)) = none := by
        refine List.getElem?_eq_none ?_
        rw [Nat.add_zero, after, ends]
      exact View.rawAt_of_none outside
    rw [parseVarIntAt, parseVarInt, parseVarIntFrom_succ, none, error_bind]
  rw [← after] at read
  refine (bind_of_ok tag _).trans ?_
  simp only [EMessageMagic.ofByte_code, read, error_bind]

/-- A string is printed. -/
theorem passes_varchar {s : WireString}
    (holds : data.Holds needle (EMessageMagic.typeVarchar.code :: s.bytes))
    (inside : needle + 1 + s.bytes.length ≤ data.size) (small : data.size < 2 ^ 63) :
    Passes formatFloat data needle (needle + 1 + s.bytes.length) := by
  obtain ⟨tag, after, held⟩ := formatItem_of_tag holds (by omega) small
  obtain ⟨lengthHeld, stringHeld⟩ := View.holds_append.mp held
  rw [WireString.bytes, List.length_append] at inside ⊢
  have read : parseVarIntAt data (needle + 1) = .ok (s.string.length, s.length.bytes.length) := by
    rw [s.fits]
    refine (s.length.prefixAt lengthHeld ?_).parseVarInt
    rw [wrapSub_of_le (by omega) (by omega)]
    omega
  have string : stringAt data (wrap (needle + 1 + s.length.bytes.length)) s.string.length =
      .ok s.string := by
    rw [stringAt, wrap_of_lt (by omega)]
    split
    · next some =>
      obtain ⟨byte, others, same⟩ := List.exists_cons_of_length_pos some
      have first : data.checkedAt (needle + 1 + s.length.bytes.length) = .ok byte :=
        View.checkedAt_inside (same ▸ stringHeld) (by omega) small
      rw [first, ok_bind]
      exact View.rawBlock_of_holds stringHeld
    · next none =>
      rw [List.length_eq_zero_iff.mp (Nat.eq_zero_of_not_pos none)]
  refine ⟨quoted s.string, (bind_of_ok tag _).trans ?_⟩
  simp only [EMessageMagic.ofByte_code, after, read, string, ok_bind, pure_eq_ok]
  rw [wrap_of_lt (by omega)]

/-- What is read of an array in front of its elements. -/
theorem formatItem_array {length : Length} {kind : EMessageMagic} {payload : List UInt8}
    (holds : data.Holds needle
      (EMessageMagic.typeArray.code :: kind.code :: (length.bytes ++ payload)))
    (inside : needle + 2 + length.bytes.length ≤ data.size) (small : data.size < 2 ^ 63) :
    data.Holds (needle + 2 + length.bytes.length) payload ∧
      formatItem formatFloat data needle =
        (formatElements formatFloat data kind.code length.value
          (needle + 2 + length.bytes.length)).map fun printed =>
            (text "\x7b " ++ printed.1.dropLast.dropLast ++ text " \x7d", printed.2) := by
  obtain ⟨tag, after, held⟩ := formatItem_of_tag holds (by omega) small
  obtain ⟨kindTag, after', held'⟩ := formatItem_of_tag held (by omega) small
  obtain ⟨lengthHeld, payloadHeld⟩ := View.holds_append.mp held'
  have read : parseVarIntAt data (needle + 2) = .ok (length.value, length.bytes.length) := by
    refine (length.prefixAt lengthHeld ?_).parseVarInt
    rw [wrapSub_of_le (by omega) (by omega)]
    omega
  refine ⟨payloadHeld, (bind_of_ok tag _).trans ?_⟩
  simp only [EMessageMagic.ofByte_code, after, kindTag, after', read, ok_bind]
  rw [wrap_of_lt (by omega)]
  cases formatElements formatFloat data kind.code length.value
    (needle + 2 + length.bytes.length) <;> rfl

/-- An array whose elements are printed is printed. -/
theorem passes_array {length : Length} {kind : EMessageMagic} {payload : List UInt8}
    (holds : data.Holds needle
      (EMessageMagic.typeArray.code :: kind.code :: (length.bytes ++ payload)))
    (inside : needle + 2 + length.bytes.length ≤ data.size) (small : data.size < 2 ^ 63)
    (elements : ElementsPass formatFloat data kind.code length.value
      (needle + 2 + length.bytes.length) next) : Passes formatFloat data needle next := by
  obtain ⟨items, printed⟩ := elements
  rw [Passes, (formatItem_array holds inside small).2, printed]
  exact ⟨_, rfl⟩

end Items

/-! ## Tokens -/

/-- The printer has a case for the elements of an array, or there are none. -/
def Printable : Token → Prop
  | .words magic _ elements _ => magic.val = .typeSeq → elements = []
  | _ => True

/-- An empty string whose length is one byte, or ends with the magic of a string. -/
def Lost (s : WireString) : Prop :=
  s.string = [] ∧ (s.length.bytes.length = 1 ∨
    s.length.bytes.getLast? = some EMessageMagic.typeVarchar.code)

/-- The last element is an array of strings, and its last string is lost. -/
def CutShort (tokens : List Token) : Prop :=
  ∃ before length elements last counted,
    tokens = before ++ [.varchars length (elements ++ [last]) counted] ∧ Lost last

/-- The last string of a token that is an array of strings. -/
def Token.lastString : Token → Option WireString
  | .varchars _ elements _ => elements.getLast?
  | _ => none

theorem length_token_pos (token : Token) : 0 < token.bytes.length := by
  cases token <;> exact Nat.succ_pos _

section Tokens

variable {needle : Nat}

/-- **A token is printed**, when it has a byte behind it or does not end with an empty string
of an array. -/
theorem passes_token (filled : Filled data) (small : data.size < 2 ^ 63) {token : Token}
    (printable : Printable token) (holds : data.Holds needle token.bytes)
    (inside : needle + token.bytes.length ≤ data.size)
    (room : needle + token.bytes.length < data.size ∨
      ∀ last, Token.lastString token = some last → last.string ≠ []) :
    Passes formatFloat data needle (needle + token.bytes.length) := by
  cases token with
  | word magic bits => exact passes_word magic.property holds inside small
  | fd number => exact passes_fd holds inside small
  | varchar string =>
      have length : (Token.varchar string).bytes.length = string.bytes.length + 1 := rfl
      rw [length] at inside ⊢
      rw [Nat.add_comm string.bytes.length, ← Nat.add_assoc] at inside ⊢
      exact passes_varchar holds inside small
  | words magic length elements counted =>
      rw [Token.size_words] at inside ⊢
      obtain ⟨payload, -⟩ := @formatItem_array formatFloat data needle length magic.val _ holds
        (by omega) small
      refine passes_array holds (by omega) small ?_
      rw [← counted]
      by_cases known : magic.val = .typeSeq
      · obtain rfl := printable known
        rw [List.length_nil, Nat.mul_zero, ← Nat.add_assoc, ← Nat.add_assoc]
        exact elementsPass_zero _
      · rw [← length_flatMap_u32Bytes, ← Nat.add_assoc, ← Nat.add_assoc] at inside ⊢
        exact elementsPass_words magic.property known small payload inside
  | fds length elements counted =>
      rw [Token.size_fds, ← Nat.add_assoc] at inside ⊢
      have held : data.Holds needle (EMessageMagic.typeArray.code :: EMessageMagic.typeFd.code ::
          (length.bytes ++ [])) := by
        rw [List.append_nil]
        exact holds
      exact passes_array held inside small (elementsPass_fds _ (by omega))
  | varchars length elements counted =>
      rw [Token.size_varchars] at inside room ⊢
      obtain ⟨payload, -⟩ := @formatItem_array formatFloat data needle length .typeVarchar _ holds
        (by omega) small
      refine passes_array holds (by omega) small ?_
      rw [← counted]
      rw [← Nat.add_assoc, ← Nat.add_assoc] at inside room ⊢
      refine elementsPass_strings filled small payload inside ?_
      rcases room with below | full
      · exact .inl below
      · refine .inr fun before last same => full last ?_
        rw [Token.lastString, same, List.getLast?_concat]

/-- **Tokens are printed one after the other**, when there is a byte behind them. -/
theorem walks_tokens (filled : Filled data) (small : data.size < 2 ^ 63) {tokens : List Token}
    (printable : ∀ token ∈ tokens, Printable token)
    (holds : data.Holds needle (tokens.flatMap Token.bytes))
    (inside : needle + (tokens.flatMap Token.bytes).length < data.size) :
    Walks formatFloat data needle (needle + (tokens.flatMap Token.bytes).length) := by
  induction tokens generalizing needle with
  | nil => exact .refl needle
  | cons token tokens ih =>
      obtain ⟨first, others⟩ := List.forall_mem_cons.mp printable
      rw [List.flatMap_cons] at holds inside ⊢
      rw [List.length_append] at inside ⊢
      obtain ⟨here, behind⟩ := View.holds_append.mp holds
      have passes := @passes_token formatFloat data needle filled small token first here (by omega)
        (.inl (by omega))
      refine (Walks.of_passes (by omega) passes).trans ?_
      rw [← Nat.add_assoc]
      exact ih others behind (by omega)

end Tokens

/-! ## Messages -/

section Messages

variable {type : EMessageType} {tokens : List Token}

theorem filled_spanOf (bytes : List UInt8) : Filled (spanOf bytes) :=
  fun i inside => ⟨bytes[i], List.getElem?_eq_getElem inside⟩

/-- The `m_data` of a received message: the type and the tokens, without the `END`. -/
def receivedData (type : EMessageType) (tokens : List Token) : List UInt8 :=
  type.code :: tokens.flatMap Token.bytes

/-- The `m_data` of a message that is sent. -/
def sentData (type : EMessageType) (tokens : List Token) : List UInt8 :=
  receivedData type tokens ++ [EMessageMagic.endMark.code]

theorem length_receivedData (type : EMessageType) (tokens : List Token) :
    (receivedData type tokens).length = 1 + (tokens.flatMap Token.bytes).length :=
  Nat.add_comm _ _

/-- What lies behind the type. -/
theorem holds_behind_type {bytes : List UInt8} (small : bytes.length < 2 ^ 63) :
    (spanOf (type.code :: bytes)).Holds 1 bytes := by
  have holds := @spanOf_holds [type.code] bytes [] (by rw [List.length_singleton]; omega)
  rwa [List.append_nil] at holds

/-- **A message that is sent is printed.** -/
theorem printed_sent (printable : ∀ token ∈ tokens, Printable token)
    (small : (sentData type tokens).length < 2 ^ 63) : Printed type (sentData type tokens) := by
  have holds := @holds_behind_type type
    (tokens.flatMap Token.bytes ++ [EMessageMagic.endMark.code]) (Nat.lt_of_succ_lt small)
  change (spanOf (sentData type tokens)).Holds 1 _ at holds
  have length : (sentData type tokens).length = 1 + (tokens.flatMap Token.bytes).length + 1 := by
    rw [sentData, List.length_append, length_receivedData]
    rfl
  generalize sentData type tokens = data at *
  have size : (spanOf data).size = data.length := rfl
  obtain ⟨elements, mark⟩ := View.holds_append.mp holds
  refine @printed_of_walks type data (1 + (tokens.flatMap Token.bytes).length + 1) ?_ length.le
  intro formatFloat
  refine (walks_tokens (filled_spanOf data) small printable elements (by omega)).trans ?_
  refine .of_passes (by omega) ?_
  exact passes_other mark (by omega) small rfl (by decide) (by omega)

/-- What the walk comes to at a last byte that is a numeral's: only the code of a string sends
the printer past the end. -/
theorem printed_lastByte {data : List UInt8} {index : Nat} {byte : UInt8}
    (small : data.length < 2 ^ 63)
    (walks : ∀ formatFloat, Walks formatFloat (spanOf data) 1 index)
    (holds : (spanOf data).Holds index [byte]) (ends : index + 1 = data.length)
    (low : byte.toNat % 16 = 0) :
    Printed type data ↔ byte ≠ EMessageMagic.typeVarchar.code := by
  have size : (spanOf data).size = data.length := rfl
  have inside : index < data.length := by omega
  by_cases string : byte = EMessageMagic.typeVarchar.code
  · have fault : ∀ formatFloat, formatItem formatFloat (spanOf data) index =
        .error .outOfBounds :=
      fun formatFloat => formatItem_pastEnd small (string ▸ holds) ends
    exact iff_of_false (not_printed_of_walks walks inside fault) (not_not.mpr string)
  · have passes : ∀ formatFloat, Passes formatFloat (spanOf data) index (index + 1) :=
      fun formatFloat => passes_other holds inside small low string ends
    refine iff_of_true (printed_of_walks (fun formatFloat => ?_) ends.ge) string
    exact (walks formatFloat).trans (.of_passes inside (passes formatFloat))

/-- What the walk comes to at an array of strings whose last one is empty, at the end of the
data. -/
theorem printed_emptyEnd {data : List UInt8} {needle : Nat} {length : Length}
    {elements : List WireString} {last : WireString}
    {counted : (elements ++ [last]).length = length.value} (small : data.length < 2 ^ 63)
    (walks : ∀ formatFloat, Walks formatFloat (spanOf data) 1 needle)
    (holds : (spanOf data).Holds needle (Token.varchars length (elements ++ [last]) counted).bytes)
    (ends : needle + (Token.varchars length (elements ++ [last]) counted).bytes.length =
      data.length) (empty : last.string = []) : Printed type data ↔ ¬ Lost last := by
  have size : (spanOf data).size = data.length := rfl
  rw [Token.size_varchars, List.flatMap_append, List.flatMap_singleton, List.length_append,
    WireString.bytes, empty, List.append_nil] at ends
  have positive := last.length.numeral.length_pos
  have few := last.length.short
  obtain ⟨payload, -⟩ := @formatItem_array (fun _ => []) _ needle length .typeVarchar _ holds
    (by omega) small
  rw [List.flatMap_append, List.flatMap_singleton] at payload
  obtain ⟨fronts, lastHeld⟩ := View.holds_append.mp payload
  rw [WireString.bytes, empty, List.append_nil] at lastHeld
  have before : ∀ formatFloat, ElementsPass formatFloat (spanOf data)
      EMessageMagic.typeVarchar.code elements.length (needle + 2 + length.bytes.length)
      (needle + 2 + length.bytes.length + (elements.flatMap WireString.bytes).length) :=
    fun formatFloat => elementsPass_strings (filled_spanOf data) small fronts (by omega)
      (.inl (by omega))
  have counts : length.value = elements.length + 1 := by
    rw [← counted, List.length_append, List.length_singleton]
  generalize place : needle + 2 + length.bytes.length +
    (elements.flatMap WireString.bytes).length = start at lastHeld before
  -- The copy of the last string has all bytes of its length but the last one.
  obtain none | ⟨front, byte, bytes⟩ := last.length.bytes.eq_nil_or_concat
  · rw [none] at positive
    exact absurd positive (Nat.lt_irrefl 0)
  rw [List.concat_eq_append] at bytes
  have zero : signedLength (front ++ [byte]) = 0 := by
    rw [← bytes, ← last.length.value_cast, ← last.fits, empty]
    rfl
  have numeral := last.length.numeral
  rw [bytes] at lastHeld ends positive few numeral
  rw [List.length_append, List.length_singleton] at ends positive few
  obtain ⟨noFront, low⟩ := eq_nil_of_zero_length (by rw [List.length_append, List.length_singleton]; omega) zero
  cases front with
  | nil =>
      have fault : ∀ formatFloat, formatItem formatFloat (spanOf data) needle =
          .error .outOfBounds := by
        intro formatFloat
        have lost := @formatPrimitiveType_lost formatFloat (spanOf data) start small
          (by rw [List.length_nil] at ends; omega)
        have array := (@formatItem_array formatFloat _ needle length .typeVarchar _ holds
          (by omega) small).2
        rw [array, counts, formatElements_fault (before formatFloat) lost]
        rfl
      refine iff_of_false (not_printed_of_walks walks (by omega) fault) (not_not.mpr ?_)
      exact ⟨empty, .inl (by rw [bytes]; rfl)⟩
  | cons first front =>
      obtain ⟨frontHeld, byteHeld⟩ := View.holds_append.mp lastHeld
      have passes : ∀ formatFloat, Passes formatFloat (spanOf data) needle
          (start + (first :: front).length) := by
        intro formatFloat
        obtain ⟨str, early⟩ := @formatPrimitiveType_early formatFloat _ start _ byte
          (List.cons_ne_nil first front) small numeral (by omega) noFront frontHeld (by omega)
        refine passes_array holds (by omega) small ?_
        rw [counts]
        exact elementsPass_add (before formatFloat)
          (elementsPass_succ early (elementsPass_zero _) (by omega))
      have walks' := fun formatFloat =>
        (walks formatFloat).trans (.of_passes (by omega) (passes formatFloat))
      have lost : Lost last ↔ byte = EMessageMagic.typeVarchar.code := by
        have long : (first :: front ++ [byte]).length ≠ 1 := by simp
        rw [Lost, bytes, List.getLast?_concat, Option.some.injEq]
        exact ⟨fun lost => lost.2.resolve_left long, fun same => ⟨empty, .inr same⟩⟩
      rw [lost]
      -- The walk goes on with the last byte of the length.
      exact printed_lastByte small walks' byteHeld (by omega) low

theorem cutShort_concat {before : List Token} {token : Token} :
    CutShort (before ++ [token]) ↔ ∃ last, Token.lastString token = some last ∧ Lost last := by
  constructor
  · rintro ⟨before', length, elements, last, counted, same, lost⟩
    obtain ⟨-, one⟩ := List.append_inj' same rfl
    obtain rfl := List.singleton_inj.mp one
    exact ⟨last, List.getLast?_concat, lost⟩
  · rintro ⟨last, ends, lost⟩
    cases token with
    | varchars length elements counted =>
        obtain ⟨front, rfl⟩ := List.getLast?_eq_some_iff.mp ends
        exact ⟨before, length, front, last, counted, rfl, lost⟩
    | _ => cases ends

/-- **A message that was received is printed exactly when it is not cut short**, if the
printer has a case for the elements of its arrays. -/
theorem printed_received_iff (printable : ∀ token ∈ tokens, Printable token)
    (small : (receivedData type tokens).length < 2 ^ 63) :
    Printed type (receivedData type tokens) ↔ ¬ CutShort tokens := by
  have holds := @holds_behind_type type (tokens.flatMap Token.bytes) (Nat.lt_of_succ_lt small)
  change (spanOf (receivedData type tokens)).Holds 1 _ at holds
  have length := length_receivedData type tokens
  generalize receivedData type tokens = data at *
  have size : (spanOf data).size = data.length := rfl
  obtain rfl | ⟨before, token, rfl⟩ := tokens.eq_nil_or_concat
  · refine iff_of_true ?_ ?_
    · exact printed_of_walks (fun _ => .refl 1) length.le
    · rintro ⟨before, length, elements, last, counted, same, -⟩
      simp at same
  · rw [List.concat_eq_append] at *
    rw [List.flatMap_append, List.flatMap_singleton] at holds length
    rw [List.length_append] at length
    obtain ⟨fronts, tokenHeld⟩ := View.holds_append.mp holds
    have positive := length_token_pos token
    obtain ⟨others, last⟩ := List.forall_mem_append.mp printable
    have walks := fun formatFloat => @walks_tokens formatFloat _ 1 (filled_spanOf data) small before
      others fronts (by omega)
    rw [cutShort_concat]
    by_cases full : ∀ last, Token.lastString token = some last → last.string ≠ []
    · refine iff_of_true ?_ ?_
      · refine printed_of_walks (fun formatFloat => (walks formatFloat).trans
          (.of_passes (by omega) (passes_token (filled_spanOf data) small
            (last token (List.mem_singleton.mpr rfl)) tokenHeld (by omega) (.inr full)))) ?_
        omega
      · rintro ⟨string, ends, lost⟩
        exact full string ends lost.1
    · push Not at full
      obtain ⟨string, ends, empty⟩ := full
      cases token with
      | varchars length elements counted =>
          obtain ⟨front, rfl⟩ := List.getLast?_eq_some_iff.mp ends
          rw [printed_emptyEnd small walks tokenHeld (by omega) empty]
          refine not_congr ⟨fun lost => ⟨string, ends, lost⟩, ?_⟩
          rintro ⟨string', ends', lost⟩
          cases ends.symm.trans ends'
          exact lost
      | _ => cases ends

end Messages

end Hyprwire.Tracing
