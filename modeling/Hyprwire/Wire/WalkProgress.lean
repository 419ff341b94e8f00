import Hyprwire.Wire.ControlProgress

/-!
# The walk of a generic message goes on

The walk over the elements of a generic message follows the lengths that the bytes give.
It goes round when an element takes it back to an index it has seen, and a prefix of six
bytes asks for a shift that is undefined. `Tame` says in terms of the bytes that neither
happens: at every index where an element starts (`ElementStart`) no prefix is long
(`LongElement`), and the element ends further on. `tame_iff` shows that the walk meets
what is asked of it exactly when its message is tame, and `Tame.decode_ne_none` that it
then ends.
-/

set_option autoImplicit false

namespace Hyprwire.Wire.CGenericProtocolMessage

open Cpp

variable {data : View} {offset : Nat} {fds : List Fd}

/-! ## Shifts -/

/-- An element has a prefix of six bytes where the walk reads one: that of a string, of
an array, or of a string after some others of an array. -/
inductive LongElement (data : View) (offset i : Nat) : Prop
  | varchar (tag : data.checkedAt (wrap (offset + i)) = .ok EMessageMagic.typeVarchar.code)
      (long : LongAt data (offset + i + 1) (wrapSub data.size (offset + i + 1)))
  | array {arrType : UInt8}
      (tag : data.checkedAt (wrap (offset + i)) = .ok EMessageMagic.typeArray.code)
      (kind : data.checkedAt (wrap (offset + i + 1)) = .ok arrType)
      (long : LongAt data (offset + i + 2) (wrapSub data.size i))
  | string {bytes : List UInt8} {prefixes : List (List UInt8)} {start : Nat}
      (tag : data.checkedAt (wrap (offset + i)) = .ok EMessageMagic.typeArray.code)
      (kind : data.checkedAt (wrap (offset + i + 1)) = .ok EMessageMagic.typeVarchar.code)
      (lies : PrefixAt data (offset + i + 2) (wrapSub data.size i) bytes)
      (before : prefixes.length < prefixLength bytes)
      (strings : Prefixes data (offset + i) (wrapSub data.size i) (2 + bytes.length) prefixes)
      (place : start = advance (2 + bytes.length) (stringsSize prefixes))
      (long : LongAt data (offset + i + start) (wrapSub (wrapSub data.size i) start))

/-- A place where the element at an index has a prefix: the index it starts at, and what is
said to be left there. The strings of an array come after those before them. -/
inductive PrefixPlace (data : View) (offset i : Nat) : Nat → Nat → Prop
  | varchar (tag : data.checkedAt (wrap (offset + i)) = .ok EMessageMagic.typeVarchar.code) :
      PrefixPlace data offset i (offset + i + 1) (wrapSub data.size (offset + i + 1))
  | array {arrType : UInt8}
      (tag : data.checkedAt (wrap (offset + i)) = .ok EMessageMagic.typeArray.code)
      (kind : data.checkedAt (wrap (offset + i + 1)) = .ok arrType) :
      PrefixPlace data offset i (offset + i + 2) (wrapSub data.size i)
  | string {bytes : List UInt8} {prefixes : List (List UInt8)} {start : Nat}
      (tag : data.checkedAt (wrap (offset + i)) = .ok EMessageMagic.typeArray.code)
      (kind : data.checkedAt (wrap (offset + i + 1)) = .ok EMessageMagic.typeVarchar.code)
      (lies : PrefixAt data (offset + i + 2) (wrapSub data.size i) bytes)
      (before : prefixes.length < prefixLength bytes)
      (strings : Prefixes data (offset + i) (wrapSub data.size i) (2 + bytes.length) prefixes)
      (place : start = advance (2 + bytes.length) (stringsSize prefixes)) :
      PrefixPlace data offset i (offset + i + start) (wrapSub (wrapSub data.size i) start)

/-- The strings before the one that fails are skipped. -/
theorem skipStrings_eq_error {base size n start : Nat} {fault : Fault} (small : start < 2 ^ 64) :
    skipStrings data base size n start = .error fault ↔
      ∃ prefixes, prefixes.length < n ∧ Prefixes data base size start prefixes ∧
        parseVarInt data (base + advance start (stringsSize prefixes))
          (wrapSub size (advance start (stringsSize prefixes))) = .error fault := by
  induction n generalizing start with
  | zero =>
      constructor
      · intro run
        cases run
      · rintro ⟨prefixes, fewer, -⟩
        exact absurd fewer (Nat.not_lt_zero _)
  | succ n ih =>
      rw [skipStrings, bind_eq_error]
      constructor
      · rintro (failed | ⟨⟨strLen, strlenLen⟩, read, failed⟩)
        · refine ⟨[], Nat.succ_pos n, trivial, ?_⟩
          rwa [stringsSize, advance_zero small]
        · obtain ⟨bytes, lies, rfl, rfl⟩ := parseVarInt_eq_ok.mp read
          simp only [wrap_add_prefixLength] at failed
          obtain ⟨prefixes, fewer, follow, failed⟩ := (ih (advance_lt _ _)).mp failed
          rw [advance_advance] at failed
          exact ⟨bytes :: prefixes, Nat.succ_lt_succ fewer, ⟨lies, follow⟩, failed⟩
      · rintro ⟨prefixes, fewer, follow, failed⟩
        cases prefixes with
        | nil =>
            rw [stringsSize, advance_zero small] at failed
            exact .inl failed
        | cons bytes prefixes =>
            refine .inr ⟨_, follow.1.parseVarInt, ?_⟩
            simp only [wrap_add_prefixLength]
            refine (ih (advance_lt _ _)).mpr ⟨prefixes, Nat.lt_of_succ_lt_succ fewer, follow.2, ?_⟩
            rwa [advance_advance]

theorem PrefixAt.start_lt {start len : Nat} {bytes : List UInt8}
    (lies : PrefixAt data start len bytes) : 2 + bytes.length < 2 ^ 64 := by
  have short := lies.short
  omega

/-- **A turn fails** at a magic that is not there, or at a prefix that cannot be read. -/
theorem elementStep_eq_error {s : ElementState} {fault : Fault} :
    elementStep data offset s = .error fault ↔
      data.checkedAt (wrap (offset + s.i)) = .error fault ∨
      data.checkedAt (wrap (offset + s.i)) = .ok EMessageMagic.typeArray.code ∧
        data.checkedAt (wrap (offset + s.i + 1)) = .error fault ∨
      ∃ start len, PrefixPlace data offset s.i start len ∧
        parseVarInt data start len = .error fault := by
  constructor
  · intro run
    rcases bind_eq_error.mp run with outside | ⟨byte, tag, rest⟩
    · exact .inl outside
    refine .inr ?_
    cases known : EMessageMagic.ofByte byte with
    | none => simp [known] at rest
    | some magic =>
        obtain rfl := EMessageMagic.ofByte_eq_some.mp known
        simp only [EMessageMagic.ofByte_code] at rest
        cases magic with
        | typeVarchar =>
            rcases bind_eq_error.mp rest with failed | ⟨read, -, more⟩
            · exact .inr ⟨_, _, .varchar tag, failed⟩
            · cases more
        | typeArray =>
            rcases bind_eq_error.mp rest with outside | ⟨arrType, kind, rest⟩
            · exact .inl ⟨tag, outside⟩
            refine .inr ?_
            rcases bind_eq_error.mp rest with failed | ⟨read, lies, -⟩
            · exact ⟨_, _, .array tag kind, failed⟩
            obtain ⟨bytes, lies, -, -⟩ := parseVarInt_eq_ok.mp lies
            rw [elementStep_array tag kind lies] at run
            cases known : EMessageMagic.ofByte arrType with
            | none => simp [known] at run
            | some magic =>
                obtain rfl := EMessageMagic.ofByte_eq_some.mp known
                cases magic with
                | typeVarchar =>
                    have skipped : skipStrings data (offset + s.i) (wrapSub data.size s.i)
                        (prefixLength bytes) (2 + bytes.length) = .error fault := by
                      rw [EMessageMagic.ofByte_code] at run
                      cases strings : skipStrings data (offset + s.i) (wrapSub data.size s.i)
                          (prefixLength bytes) (2 + bytes.length) with
                      | error fault => simpa [strings, Except.map] using run
                      | ok stop => simp [strings, Except.map] at run
                    obtain ⟨prefixes, before, strings, failed⟩ :=
                      (skipStrings_eq_error (PrefixAt.start_lt lies)).mp skipped
                    exact ⟨_, _, .string tag kind lies before strings rfl, failed⟩
                | typeFd =>
                    rw [EMessageMagic.ofByte_code] at run
                    simp only at run
                    split at run <;> cases run
                | _ => simp at run
        | typeFd => obtain ⟨i, taken, _ | ⟨fd, fds⟩⟩ := s <;> simp at rest
        | _ => simp at rest
  · rintro (outside | ⟨tag, outside⟩ | ⟨start, len, place, failed⟩)
    · rw [elementStep, outside, error_bind]
    · simp [elementStep, tag, outside]
    · cases place with
      | varchar tag => simp [elementStep, tag, parseVarIntAt, failed]
      | array tag kind => simp [elementStep, tag, kind, failed]
      | string tag kind lies before strings place =>
          subst place
          have skipped := (skipStrings_eq_error (PrefixAt.start_lt lies)).mpr
            ⟨_, before, strings, failed⟩
          rw [elementStep_array tag kind lies, EMessageMagic.ofByte_code]
          simp [skipped, Except.map]

/-- A long prefix lies at one of the places. -/
theorem longElement_iff {i : Nat} :
    LongElement data offset i ↔
      ∃ start len, PrefixPlace data offset i start len ∧ LongAt data start len := by
  constructor
  · intro found
    cases found with
    | varchar tag long => exact ⟨_, _, .varchar tag, long⟩
    | array tag kind long => exact ⟨_, _, .array tag kind, long⟩
    | string tag kind lies before strings place long =>
        exact ⟨_, _, .string tag kind lies before strings place, long⟩
  · rintro ⟨start, len, place, long⟩
    cases place with
    | varchar tag => exact .varchar tag long
    | array tag kind => exact .array tag kind long
    | string tag kind lies before strings place =>
        exact .string tag kind lies before strings place long

/-- **A turn shifts too far exactly at an element with a long prefix.** -/
theorem elementStep_eq_badShift {s : ElementState} :
    elementStep data offset s = .error .badShift ↔ LongElement data offset s.i := by
  rw [elementStep_eq_error, longElement_iff]
  simp only [parseVarInt_eq_badShift]
  refine (or_iff_right (neverShifts_checkedAt _)).trans (or_iff_right ?_)
  rintro ⟨-, shifts⟩
  exact neverShifts_checkedAt _ shifts

/-! ## Where elements start -/

/-- The indices at which an element of the message starts, with the number of queued
descriptors that are left there of `n`. -/
inductive ElementStart (data : View) (offset n : Nat) : Nat → Nat → Prop
  | first : ElementStart data offset n 11 n
  | next {i left count : Nat} {size : ℤ} (start : ElementStart data offset n i left)
      (element : Element data offset i size count) (enough : count ≤ left) :
      ElementStart data offset n (advance i size) (left - count)

theorem ElementStart.of_reaches {s : ElementState}
    (reaches : Reaches (elementTurn data offset) (firstElement fds) s) :
    ElementStart data offset fds.length s.i s.fds.length := by
  induction reaches with
  | refl => exact .first
  | tail _ next ih =>
      obtain ⟨size, count, element, enough, rfl⟩ := elementStep_eq_again.mp (next_iff.mp next)
      have after := ih.next element enough
      rwa [← List.length_drop] at after

/-- The walk comes to every start of an element. -/
theorem ElementStart.reached {i left : Nat} (start : ElementStart data offset fds.length i left) :
    ∃ s, Reaches (elementTurn data offset) (firstElement fds) s ∧ s.i = i ∧
      s.fds.length = left := by
  induction start with
  | first => exact ⟨firstElement fds, .refl, rfl, rfl⟩
  | @next i left count size _ element enough ih =>
      obtain ⟨s, reaches, rfl, rfl⟩ := ih
      refine ⟨s.past size count, reaches.tail ?_, rfl, List.length_drop⟩
      exact next_iff.mpr (elementStep_eq_again.mpr ⟨size, count, element, enough, rfl⟩)

theorem ElementStart.lt {n i left : Nat} (start : ElementStart data offset n i left) :
    i < 2 ^ 64 := by
  cases start with
  | first => exact Nat.lt_of_lt_of_le (Nat.lt_succ_self 11) (by norm_num)
  | next => exact advance_lt _ _

/-! ## Tame messages -/

/-- The message at an offset is one that the walk goes on in: no prefix has a sixth byte,
every element ends at a higher index, and no `END` lies before the message. -/
structure Tame (data : View) (offset n : Nat) : Prop where
  short : ∀ i left, ElementStart data offset n i left → ¬ LongElement data offset i
  forward : ∀ i left size count, ElementStart data offset n i left →
    Element data offset i size count → count ≤ left → i < advance i size
  ends : ∀ i left, ElementStart data offset n i left →
    data.checkedAt (wrap (offset + i)) = .ok EMessageMagic.endMark.code → i < 2 ^ 63 ∨ i + 1 = 2 ^ 64

/-- What is asked of the walk: it shifts by less than the width of an `int`, each turn
raises the index, and an `END` makes a length inside the buffer. -/
structure WalkProgress (data : View) (offset : Nat) (fds : List Fd) : Prop where
  shifts : ∀ s, Reaches (elementTurn data offset) (firstElement fds) s →
    elementStep data offset s ≠ .error .badShift
  rises : ∀ s s', Reaches (elementTurn data offset) (firstElement fds) s →
    Next (elementTurn data offset) s s' → s.i < s'.i
  ends : ∀ s, Reaches (elementTurn data offset) (firstElement fds) s →
    elementStep data offset s = .ok (.leave (.done s)) →
      EndsInside data offset (wrap (s.i + 1))

/-- An `END` behind the start of the message makes a length inside the buffer, and one
before it a length that is not. -/
theorem endsInside_iff {i : Nat} (small : data.size < 2 ^ 63) (before : offset < data.size)
    (index : i < 2 ^ 64)
    (mark : data.checkedAt (wrap (offset + i)) = .ok EMessageMagic.endMark.code) :
    EndsInside data offset (wrap (i + 1)) ↔ i < 2 ^ 63 ∨ i + 1 = 2 ^ 64 := by
  have inside := lt_of_checkedAt mark
  by_cases low : i < 2 ^ 63
  · rw [wrap_of_lt (by omega)] at inside
    refine iff_of_true (fun _ => ?_) (.inl low)
    rw [wrap_of_lt (by omega)]
    omega
  · by_cases last : i + 1 = 2 ^ 64
    · refine iff_of_true (fun nonzero => absurd ?_ nonzero) (.inr last)
      rw [last]
      rfl
    · refine iff_of_false (fun ends => ?_) (by omega)
      have length : wrap (i + 1) = i + 1 := wrap_of_lt (by omega)
      rw [length] at ends
      have long := ends (Nat.succ_ne_zero i)
      omega

/-- **The walk meets what is asked of it exactly when its message is tame.** -/
theorem tame_iff (small : data.size < 2 ^ 63) (before : offset < data.size) :
    WalkProgress data offset fds ↔ Tame data offset fds.length := by
  constructor
  · intro progress
    refine ⟨fun i left start long => ?_, fun i left size count start element enough => ?_,
      fun i left start mark => ?_⟩
    · obtain ⟨s, reaches, rfl, -⟩ := start.reached
      exact progress.shifts s reaches (elementStep_eq_badShift.mpr long)
    · obtain ⟨s, reaches, rfl, rfl⟩ := start.reached
      exact progress.rises s _ reaches (next_iff.mpr (elementStep_of_element element enough))
    · obtain ⟨s, reaches, rfl, -⟩ := start.reached
      have done := elementStep_eq_done.mpr ⟨mark, rfl⟩
      exact (endsInside_iff small before start.lt mark).mp (progress.ends s reaches done)
  · intro tame
    refine ⟨fun s reaches shifts => ?_, fun s s' reaches next => ?_, fun s reaches done => ?_⟩
    · exact tame.short _ _ (.of_reaches reaches) (elementStep_eq_badShift.mp shifts)
    · obtain ⟨size, count, element, enough, rfl⟩ := elementStep_eq_again.mp (next_iff.mp next)
      exact tame.forward _ _ _ _ (.of_reaches reaches) element enough
    · have start := ElementStart.of_reaches reaches
      obtain ⟨mark, -⟩ := elementStep_eq_done.mp done
      exact (endsInside_iff small before start.lt mark).mpr (tame.ends _ _ start mark)

/-- A walk that rises ends. -/
theorem WalkProgress.exits (progress : WalkProgress data offset fds) :
    ∃ exit, Exits (elementTurn data offset) (firstElement fds) exit := by
  refine exits_of_measure
    (I := fun s => Reaches (elementTurn data offset) (firstElement fds) s)
    (fun s => 2 ^ 64 - s.i) (fun s _ => elementTurn_total data offset s) ?_ .refl
  intro s s' reaches next
  have rises := progress.rises s s' reaches next
  have below := (ElementStart.of_reaches (reaches.tail next)).lt
  exact ⟨reaches.tail next, by omega⟩

/-! ## Decoding -/

theorem neverShifts_decodeHeader : NeverShifts (decodeHeader data offset) := by
  rw [NeverShifts, decodeHeader, ne_eq, catchOutOfRange_eq_badShift]
  refine neverShifts_expect (neverShifts_expect ?_)
  refine neverShifts_bind (neverShifts_u32At _) fun _ => neverShifts_expect ?_
  exact neverShifts_bind (neverShifts_u32At _) fun _ => neverShifts_ok _

theorem elementTurn_eq_error {s : ElementState} {fault : Fault} :
    elementTurn data offset s = some (.leave (.error fault)) ↔
      elementStep data offset s = .error fault ∧ fault ≠ .outOfRange := by
  rw [elementTurn]
  split
  · next step =>
    rw [step]
    refine iff_of_false ?_ ?_
    · intro same
      cases same
    · rintro ⟨same, -⟩
      cases same
  · next step =>
    rw [step]
    refine iff_of_false ?_ ?_
    · intro same
      cases same
    · rintro ⟨same, -⟩
      cases same
  · next step =>
    rw [step]
    refine iff_of_false ?_ ?_
    · intro same
      cases same
    · rintro ⟨same, other⟩
      exact other (Except.error.inj same).symm
  · next fault' other step =>
    rw [step]
    constructor
    · intro same
      cases same
      exact ⟨rfl, other⟩
    · rintro ⟨same, -⟩
      cases same
      rfl

/-- **The decoder fails** in the header, or at an element that its walk comes to. -/
theorem decode_eq_error {fault : Fault} :
    decode data fds offset = some (.error fault) ↔
      decodeHeader data offset = .error fault ∨
      ∃ object method s, decodeHeader data offset = .ok (some (object, method)) ∧
        Reaches (elementTurn data offset) (firstElement fds) s ∧
        elementStep data offset s = .error fault ∧ fault ≠ .outOfRange := by
  constructor
  · intro run
    cases header : decodeHeader data offset with
    | error fault' =>
        simp only [decode, header, Option.some.injEq] at run
        cases run
        exact .inl rfl
    | ok found =>
        rcases found with _ | ⟨object, method⟩
        · simp [decode, header] at run
        · obtain ⟨exit, exits, result⟩ := (decode_eq_some header).mp run
          cases exit with
          | ok exit => cases result
          | error fault' =>
              cases result
              obtain ⟨s, reaches, leaves⟩ := exits_iff.mp exits
              exact .inr ⟨object, method, s, rfl, reaches, elementTurn_eq_error.mp leaves⟩
  · rintro (header | ⟨object, method, s, header, reaches, leaves⟩)
    · simp only [decode, header]
    · exact (decode_eq_some header).mpr
        ⟨.error fault, exits_iff.mpr ⟨s, reaches, elementTurn_eq_error.mpr leaves⟩, rfl⟩

/-- The decoder shifts too far exactly when its walk does. -/
theorem decode_eq_badShift :
    decode data fds offset = some (.error .badShift) ↔
      ∃ object method s, decodeHeader data offset = .ok (some (object, method)) ∧
        Reaches (elementTurn data offset) (firstElement fds) s ∧
        elementStep data offset s = .error .badShift := by
  rw [decode_eq_error, or_iff_right neverShifts_decodeHeader]
  have other : Fault.badShift ≠ .outOfRange := by decide
  simp only [ne_eq, other, not_false_eq_true, and_true]

end Hyprwire.Wire.CGenericProtocolMessage
