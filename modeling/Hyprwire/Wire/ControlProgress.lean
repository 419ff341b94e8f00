import Hyprwire.Wire.Parser

/-!
# The lengths of control messages

The end of a control message is a byte that is looked at through `at`, so that an
accepted message ends inside the buffer, whatever lies in the memory around it
(`Accepts`, `EndsInside`). Only `SUP` is compared as a block, and is accepted with bytes
behind the end of the buffer (`CHelloMessage.accepts`). A decoder that follows a length
prefix can meet one of six bytes; `LongControl` says where in the bytes, and the theorems
`decode_eq_badShift` that this is exactly when a shift of the decoder is undefined. The
other decoders never shift (`NeverShifts`).
-/

set_option autoImplicit false

namespace Hyprwire.Wire

open Cpp

/-! ## What is returned -/

/-- Whatever a computation returns has a property. -/
def Accepts {μ : Type} (Q : μ → Prop) (run : Except Fault μ) : Prop :=
  ∀ result, run = .ok result → Q result

section Accepts

variable {α μ : Type} {Q : μ → Prop}

theorem accepts_pure {result : μ} (holds : Q result) : Accepts Q (pure result) := by
  intro other same
  cases same
  exact holds

theorem accepts_bind {run : Except Fault α} {next : α → Except Fault μ}
    (each : ∀ value, run = .ok value → Accepts Q (next value)) : Accepts Q (run >>= next) := by
  intro result returns
  obtain ⟨value, first, rest⟩ := bind_eq_ok.mp returns
  exact each value first result rest

theorem accepts_ite {c : Prop} [Decidable c] {first second : Except Fault μ}
    (yes : c → Accepts Q first) (no : ¬ c → Accepts Q second) :
    Accepts Q (if c then first else second) := by
  split
  · next holds => exact yes holds
  · next fails => exact no fails

/-- A byte other than the one that is expected rejects. -/
theorem accepts_expect {data : View} {i : Nat} {code : UInt8} {rejected : μ}
    {next : Except Fault μ} (rejects : Q rejected)
    (each : data.checkedAt i = .ok code → Accepts Q next) :
    Accepts Q (data.checkedAt i >>= fun byte => if byte ≠ code then pure rejected else next) := by
  refine accepts_bind fun byte read => accepts_ite (fun _ => accepts_pure rejects) fun same => ?_
  exact each (not_not.mp same ▸ read)

theorem accepts_catch {handler : μ} {run : Except Fault μ} (caught : Q handler)
    (accepts : Accepts Q run) : Accepts Q (catchOutOfRange handler run) := by
  intro result returns
  unfold catchOutOfRange at returns
  split at returns
  · cases returns
    exact caught
  · exact accepts result returns

end Accepts

/-- A result with a length ends inside the buffer. -/
def EndsInside (data : View) (offset len : Nat) : Prop := len ≠ 0 → len ≤ data.size - offset

theorem endsInside_zero (data : View) (offset : Nat) : EndsInside data offset 0 :=
  fun nonzero => absurd rfl nonzero

/-- A byte that was looked at lies inside the buffer. -/
theorem lt_of_checkedAt {data : View} {i : Nat} {byte : UInt8}
    (read : data.checkedAt i = .ok byte) : i < data.size := by
  rw [View.checkedAt] at read
  split at read
  · next inside => exact inside
  · cases read

/-- The byte that ends a message was looked at. -/
theorem endsInside_of_end {data : View} {offset needle : Nat} {byte : UInt8}
    (small : data.size < 2 ^ 63) (short : offset + needle < 2 ^ 63 + 2 ^ 62)
    (read : data.checkedAt (wrap (offset + needle)) = .ok byte) :
    EndsInside data offset (wrap (needle + 1)) := by
  intro _
  have inside := lt_of_checkedAt read
  rw [wrap_of_lt (by omega)] at inside
  rw [wrap_of_lt (by omega)]
  omega

/-- The value of a prefix whose string was copied is that of an `int`. -/
theorem lt_of_copyString {heap : Heap} {data : View} {i : Nat} {bytes string : List UInt8}
    (short : bytes.length ≤ 5)
    (copied : data.copyString heap i (prefixLength bytes) = .ok string) :
    prefixLength bytes < 2 ^ 31 := by
  rw [View.copyString] at copied
  split at copied
  · cases copied
  · exact prefixLength_small short (by omega)

theorem lt_of_resize {heap : Heap} {bytes : List UInt8} {width : Nat} {done : Unit}
    (short : bytes.length ≤ 5)
    (resized : resize heap (prefixLength bytes) width = .ok done) :
    prefixLength bytes < 2 ^ 31 := by
  rw [resize] at resized
  split at resized
  · cases resized
  · next fits =>
    have most := Nat.div_le_self (2 ^ 63 - 1) width
    exact prefixLength_small short (by omega)

/-! ## Accepted messages -/

section Lengths

variable {data : View} {offset : Nat}

/-- Only `SUP` can end behind the buffer. -/
theorem CHelloMessage.accepts
    (inside : data.Holds offset CHelloMessage.expected → 7 ≤ data.size - offset) :
    Accepts (fun msg => EndsInside data offset msg.len) (CHelloMessage.decode data offset) := by
  refine accepts_catch (endsInside_zero _ _) (accepts_bind fun first _ => ?_)
  refine accepts_bind fun block read => ?_
  refine accepts_ite (fun _ => accepts_pure (endsInside_zero _ _)) fun same => ?_
  rw [not_not.mp same] at read
  exact accepts_pure fun _ => inside (View.holds_of_rawBlock read)

theorem CHandshakeBeginMessage.accepts {heap : Heap} (small : data.size < 2 ^ 63) :
    Accepts (fun msg => EndsInside data offset msg.len)
      (CHandshakeBeginMessage.decode heap data offset) := by
  refine accepts_catch (endsInside_zero _ _) ?_
  refine accepts_expect (endsInside_zero _ _) fun first => ?_
  refine accepts_expect (endsInside_zero _ _) fun _ => ?_
  refine accepts_expect (endsInside_zero _ _) fun _ => ?_
  refine accepts_bind fun ⟨nVers, varIntLen⟩ counted => ?_
  obtain ⟨bytes, lies, rfl, rfl⟩ := parseVarInt_eq_ok.mp counted
  refine accepts_bind fun _ resized => accepts_bind fun versions _ => ?_
  refine accepts_expect (endsInside_zero _ _) fun last => accepts_pure ?_
  have count := lt_of_resize lies.short resized
  have short := lies.short
  refine endsInside_of_end small ?_ last
  have inside := lt_of_checkedAt first
  rw [wrap_of_lt (by omega)]
  omega

theorem CHandshakeAckMessage.accepts :
    Accepts (fun msg => EndsInside data offset msg.len)
      (CHandshakeAckMessage.decode data offset) := by
  refine accepts_catch (endsInside_zero _ _) ?_
  refine accepts_expect (endsInside_zero _ _) fun _ => ?_
  refine accepts_expect (endsInside_zero _ _) fun _ => ?_
  refine accepts_expect (endsInside_zero _ _) fun last => ?_
  refine accepts_ite (fun _ => accepts_pure (endsInside_zero _ _)) fun _ => ?_
  refine accepts_bind fun version _ => accepts_pure fun _ => ?_
  have inside := lt_of_checkedAt last
  show 7 ≤ data.size - offset
  omega

/-- Every string starts inside the buffer, so that the needle stays small. -/
theorem CHandshakeProtocolsMessage.readProtocols_needle {heap : Heap} {n needle : Nat}
    (small : data.size < 2 ^ 63) (short : offset + needle < 2 ^ 63 + 2 ^ 62) :
    Accepts (fun read => offset + read.2 < 2 ^ 63 + 2 ^ 62)
      (readProtocols heap data offset n needle) := by
  induction n generalizing needle with
  | zero => exact accepts_pure short
  | succ n ih =>
      refine accepts_bind fun ⟨strLen, strLenLen⟩ counted => ?_
      obtain ⟨bytes, lies, rfl, rfl⟩ := parseVarInt_eq_ok.mp counted
      refine accepts_bind fun byte starts => accepts_bind fun protocol copied => ?_
      have length := lt_of_copyString lies.short copied
      have header := lies.short
      have inside := lt_of_checkedAt starts
      rw [wrap_of_lt (by omega)] at inside
      have next : wrap (needle + prefixLength bytes + bytes.length) =
          needle + prefixLength bytes + bytes.length := wrap_of_lt (by omega)
      have next_lt : offset + wrap (needle + prefixLength bytes + bytes.length) <
          2 ^ 63 + 2 ^ 62 := by
        rw [next]
        omega
      refine accepts_bind fun ⟨rest, needle'⟩ read => accepts_pure ?_
      exact ih next_lt (rest, needle') read

theorem CHandshakeProtocolsMessage.accepts {heap : Heap} (small : data.size < 2 ^ 63) :
    Accepts (fun msg => EndsInside data offset msg.len)
      (CHandshakeProtocolsMessage.decode heap data offset) := by
  refine accepts_catch (endsInside_zero _ _) ?_
  refine accepts_expect (endsInside_zero _ _) fun first => ?_
  refine accepts_expect (endsInside_zero _ _) fun _ => ?_
  refine accepts_expect (endsInside_zero _ _) fun _ => ?_
  refine accepts_bind fun ⟨els, varIntLen⟩ counted => ?_
  obtain ⟨bytes, lies, rfl, rfl⟩ := parseVarInt_eq_ok.mp counted
  refine accepts_bind fun _ resized => accepts_bind fun ⟨protocols, needle⟩ read => ?_
  refine accepts_expect (endsInside_zero _ _) fun last => accepts_pure ?_
  have short := lies.short
  have inside := lt_of_checkedAt first
  exact endsInside_of_end small (readProtocols_needle small (by omega) _ read) last

theorem CBindProtocolMessage.accepts {heap : Heap} (small : data.size < 2 ^ 63) :
    Accepts (fun msg => EndsInside data offset msg.len)
      (CBindProtocolMessage.decode heap data offset) := by
  refine accepts_catch (endsInside_zero _ _) ?_
  refine accepts_expect (endsInside_zero _ _) fun first => ?_
  refine accepts_expect (endsInside_zero _ _) fun _ => ?_
  refine accepts_bind fun seq _ => ?_
  refine accepts_expect (endsInside_zero _ _) fun _ => ?_
  refine accepts_bind fun ⟨strLen, varIntLen⟩ counted => ?_
  obtain ⟨bytes, lies, rfl, rfl⟩ := parseVarInt_eq_ok.mp counted
  refine accepts_bind fun _ _ => accepts_bind fun protocol copied => ?_
  refine accepts_expect (endsInside_zero _ _) fun _ => ?_
  refine accepts_bind fun version _ => ?_
  refine accepts_ite (fun _ => accepts_pure (endsInside_zero _ _)) fun _ => ?_
  refine accepts_expect (endsInside_zero _ _) fun last => accepts_pure ?_
  have length := lt_of_copyString lies.short copied
  have short := lies.short
  have needle : wrap (7 + bytes.length + prefixLength bytes) =
      7 + bytes.length + prefixLength bytes := wrap_of_lt (by omega)
  refine endsInside_of_end small ?_ last
  have inside := lt_of_checkedAt first
  rw [needle, wrap_of_lt (by omega)]
  omega

theorem CNewObjectMessage.accepts :
    Accepts (fun msg => EndsInside data offset msg.len)
      (CNewObjectMessage.decode data offset) := by
  refine accepts_catch (endsInside_zero _ _) ?_
  refine accepts_expect (endsInside_zero _ _) fun _ => ?_
  refine accepts_expect (endsInside_zero _ _) fun _ => ?_
  refine accepts_ite (fun _ => accepts_pure (endsInside_zero _ _)) fun _ => ?_
  refine accepts_bind fun id _ => ?_
  refine accepts_expect (endsInside_zero _ _) fun _ => ?_
  refine accepts_bind fun seq _ => ?_
  refine accepts_expect (endsInside_zero _ _) fun last => ?_
  refine accepts_pure fun _ => ?_
  have inside := lt_of_checkedAt last
  show 12 ≤ data.size - offset
  omega

theorem CFatalErrorMessage.accepts {heap : Heap} (small : data.size < 2 ^ 63) :
    Accepts (fun msg => EndsInside data offset msg.len)
      (CFatalErrorMessage.decode heap data offset) := by
  refine accepts_catch (endsInside_zero _ _) ?_
  refine accepts_expect (endsInside_zero _ _) fun first => ?_
  refine accepts_expect (endsInside_zero _ _) fun _ => ?_
  refine accepts_bind fun objectId _ => ?_
  refine accepts_expect (endsInside_zero _ _) fun _ => ?_
  refine accepts_bind fun errorId _ => ?_
  refine accepts_expect (endsInside_zero _ _) fun _ => ?_
  refine accepts_bind fun ⟨strLen, strLenLen⟩ counted => ?_
  obtain ⟨bytes, lies, rfl, rfl⟩ := parseVarInt_eq_ok.mp counted
  refine accepts_bind fun errorMsg copied => ?_
  refine accepts_expect (endsInside_zero _ _) fun last => accepts_pure ?_
  have length := lt_of_copyString lies.short copied
  have short := lies.short
  have inside := lt_of_checkedAt first
  refine endsInside_of_end small ?_ last
  rw [wrap_of_lt (by omega)]
  omega

theorem SeqMessage.accepts {type : EMessageType} :
    Accepts (fun msg => EndsInside data offset msg.len) (SeqMessage.decode type data offset) := by
  refine accepts_catch (endsInside_zero _ _) ?_
  refine accepts_expect (endsInside_zero _ _) fun _ => ?_
  refine accepts_expect (endsInside_zero _ _) fun _ => ?_
  refine accepts_ite (fun _ => accepts_pure (endsInside_zero _ _)) fun _ => ?_
  refine accepts_bind fun seq _ => ?_
  refine accepts_expect (endsInside_zero _ _) fun last => ?_
  refine accepts_pure fun _ => ?_
  have inside := lt_of_checkedAt last
  show 7 ≤ data.size - offset
  omega

end Lengths

/-! ## Shifts -/

/-- No shift of a computation is undefined. -/
def NeverShifts {μ : Type} (run : Except Fault μ) : Prop := run ≠ .error .badShift

section Shifts

variable {α μ : Type} {data : View}

theorem neverShifts_ok (value : μ) : NeverShifts (.ok value : Except Fault μ) := by
  intro shifts
  cases shifts

theorem neverShifts_error {fault : Fault} (other : fault ≠ .badShift) :
    NeverShifts (.error fault : Except Fault μ) := by
  intro shifts
  exact other (Except.error.inj shifts)

theorem neverShifts_bind {run : Except Fault α} {next : α → Except Fault μ}
    (first : NeverShifts run) (each : ∀ value, NeverShifts (next value)) :
    NeverShifts (run >>= next) := by
  intro shifts
  rcases bind_eq_error.mp shifts with early | ⟨value, -, late⟩
  · exact first early
  · exact each value late

theorem neverShifts_ite {c : Prop} [Decidable c] {first second : Except Fault μ}
    (yes : NeverShifts first) (no : NeverShifts second) :
    NeverShifts (if c then first else second) := by
  split
  · exact yes
  · exact no

theorem neverShifts_rawAt (i : Nat) : NeverShifts (data.rawAt i) := by
  rw [View.rawAt]
  split
  · exact neverShifts_ok _
  · exact neverShifts_error (by decide)

theorem neverShifts_checkedAt (i : Nat) : NeverShifts (data.checkedAt i) := by
  rw [View.checkedAt]
  refine neverShifts_ite ?_ (neverShifts_error (by decide))
  split
  · exact neverShifts_ok _
  · exact neverShifts_error (by decide)

theorem neverShifts_rawBlock (i n : Nat) : NeverShifts (data.rawBlock i n) := by
  induction n generalizing i with
  | zero => exact neverShifts_ok _
  | succ n ih =>
      refine neverShifts_bind (neverShifts_rawAt _) fun byte => ?_
      exact neverShifts_bind (ih (i + 1)) fun rest => neverShifts_ok _

theorem neverShifts_u32At (i : Nat) : NeverShifts (data.u32At i) := by
  refine neverShifts_bind (neverShifts_checkedAt _) fun _ => ?_
  refine neverShifts_bind (neverShifts_rawAt _) fun _ => ?_
  refine neverShifts_bind (neverShifts_rawAt _) fun _ => ?_
  refine neverShifts_bind (neverShifts_rawAt _) fun _ => ?_
  exact neverShifts_bind (neverShifts_rawAt _) fun _ => neverShifts_ok _

theorem neverShifts_copyString (heap : Heap) (i n : Nat) :
    NeverShifts (data.copyString heap i n) :=
  neverShifts_ite (neverShifts_error (by decide))
    (neverShifts_ite (neverShifts_rawBlock _ _) (neverShifts_error (by decide)))

theorem neverShifts_resize (heap : Heap) (count width : Nat) :
    NeverShifts (resize heap count width) :=
  neverShifts_ite (neverShifts_error (by decide))
    (neverShifts_ite (neverShifts_ok ()) (neverShifts_error (by decide)))

theorem neverShifts_expect {i : Nat} {code : UInt8} {rejected : μ} {next : Except Fault μ}
    (rest : NeverShifts next) :
    NeverShifts (data.checkedAt i >>= fun byte => if byte ≠ code then pure rejected else next) :=
  neverShifts_bind (neverShifts_checkedAt _) fun _ => neverShifts_ite (neverShifts_ok _) rest

theorem catchOutOfRange_eq_badShift {handler : μ} {run : Except Fault μ} :
    catchOutOfRange handler run = .error .badShift ↔ run = .error .badShift := by
  unfold catchOutOfRange
  split
  · exact ⟨nofun, nofun⟩
  · exact Iff.rfl

/-- A part that shifts nothing comes before the shift. -/
theorem bind_eq_badShift {run : Except Fault α} {next : α → Except Fault μ}
    (first : NeverShifts run) :
    (run >>= next) = .error .badShift ↔ ∃ value, run = .ok value ∧ next value = .error .badShift := by
  rw [bind_eq_error]
  exact or_iff_right first

/-- The shift comes after the byte that is expected. -/
theorem expect_eq_badShift {i : Nat} {code : UInt8} {rejected : μ} {next : Except Fault μ} :
    (data.checkedAt i >>= fun byte => if byte ≠ code then pure rejected else next) =
        .error .badShift ↔
      data.checkedAt i = .ok code ∧ next = .error .badShift := by
  rw [bind_eq_badShift (neverShifts_checkedAt _)]
  constructor
  · rintro ⟨byte, read, shifts⟩
    split at shifts
    · cases shifts
    · next same => exact ⟨not_not.mp same ▸ read, shifts⟩
  · rintro ⟨read, shifts⟩
    exact ⟨code, read, (if_neg (not_not.mpr rfl)).trans shifts⟩

/-- The shift is in the prefix, or comes after it. -/
theorem parseVarInt_bind_eq_badShift {start len : Nat} {next : Nat × Nat → Except Fault μ} :
    (parseVarInt data start len >>= next) = .error .badShift ↔
      LongAt data start len ∨ ∃ bytes, PrefixAt data start len bytes ∧
        next (prefixLength bytes, bytes.length) = .error .badShift := by
  rw [bind_eq_error, parseVarInt_eq_badShift]
  refine or_congr_right ⟨?_, ?_⟩
  · rintro ⟨⟨n, k⟩, read, shifts⟩
    obtain ⟨bytes, lies, rfl, rfl⟩ := parseVarInt_eq_ok.mp read
    exact ⟨bytes, lies, shifts⟩
  · rintro ⟨bytes, lies, shifts⟩
    exact ⟨_, lies.parseVarInt, shifts⟩

/-- The shift is in the prefix when nothing after it shifts. -/
theorem parseVarInt_bind_eq_badShift_iff {start len : Nat} {next : Nat × Nat → Except Fault μ}
    (rest : ∀ read, NeverShifts (next read)) :
    (parseVarInt data start len >>= next) = .error .badShift ↔ LongAt data start len := by
  rw [parseVarInt_bind_eq_badShift]
  refine or_iff_left ?_
  rintro ⟨bytes, -, shifts⟩
  exact rest _ shifts

end Shifts

/-! ## Long prefixes -/

/-- One of the strings of `HANDSHAKE_PROTOCOLS` has a long prefix, and those before it
are copied. -/
inductive LongString (heap : Heap) (data : View) (offset : Nat) : Nat → Nat → Prop
  | here {n needle : Nat}
      (long : LongAt data (wrap (offset + needle)) (wrapSub data.size (wrap (offset + needle)))) :
      LongString heap data offset (n + 1) needle
  | later {n needle : Nat} {bytes string : List UInt8} {byte : UInt8}
      (lies : PrefixAt data (wrap (offset + needle))
        (wrapSub data.size (wrap (offset + needle))) bytes)
      (starts : data.checkedAt (wrap (offset + needle + bytes.length)) = .ok byte)
      (copied : data.copyString heap (wrap (offset + needle + bytes.length)) (prefixLength bytes) =
        .ok string)
      (rest : LongString heap data offset n (wrap (needle + prefixLength bytes + bytes.length))) :
      LongString heap data offset (n + 1) needle

/-- A message of some type at an offset has a prefix of six bytes where its decoder
reads one. -/
inductive LongControl (heap : Heap) (data : View) (offset : Nat) : EMessageType → Prop
  | versions (array : data.checkedAt (offset + 1) = .ok EMessageMagic.typeArray.code)
      (kind : data.checkedAt (offset + 2) = .ok EMessageMagic.typeUint.code)
      (long : LongAt data (offset + 3) (wrapSub data.size (offset + 3))) :
      LongControl heap data offset .handshakeBegin
  | protocols (array : data.checkedAt (offset + 1) = .ok EMessageMagic.typeArray.code)
      (kind : data.checkedAt (offset + 2) = .ok EMessageMagic.typeVarchar.code)
      (long : LongAt data (offset + 3) (wrapSub data.size (offset + 3))) :
      LongControl heap data offset .handshakeProtocols
  | protocol {bytes : List UInt8}
      (array : data.checkedAt (offset + 1) = .ok EMessageMagic.typeArray.code)
      (kind : data.checkedAt (offset + 2) = .ok EMessageMagic.typeVarchar.code)
      (lies : PrefixAt data (offset + 3) (wrapSub data.size (offset + 3)) bytes)
      (room : resize heap (prefixLength bytes) 32 = .ok ())
      (string : LongString heap data offset (prefixLength bytes) (3 + bytes.length)) :
      LongControl heap data offset .handshakeProtocols
  | bindProtocol {seq : UInt32}
      (uint : data.checkedAt (offset + 1) = .ok EMessageMagic.typeUint.code)
      (word : data.u32At (offset + 2) = .ok seq)
      (varchar : data.checkedAt (offset + 6) = .ok EMessageMagic.typeVarchar.code)
      (long : LongAt data (offset + 7) (wrapSub data.size (offset + 7))) :
      LongControl heap data offset .bindProtocol
  | errorMsg {objectId errorId : UInt32}
      (uint : data.checkedAt (offset + 1) = .ok EMessageMagic.typeUint.code)
      (object : data.u32At (offset + 2) = .ok objectId)
      (uint' : data.checkedAt (offset + 6) = .ok EMessageMagic.typeUint.code)
      (error : data.u32At (offset + 7) = .ok errorId)
      (varchar : data.checkedAt (offset + 11) = .ok EMessageMagic.typeVarchar.code)
      (long : LongAt data (offset + 12) (wrapSub data.size (offset + 12))) :
      LongControl heap data offset .fatalProtocolError

section Shifts

variable {heap : Heap} {data : View} {offset : Nat}

theorem CHelloMessage.neverShifts : NeverShifts (CHelloMessage.decode data offset) := by
  rw [NeverShifts, decode, ne_eq, catchOutOfRange_eq_badShift]
  refine neverShifts_bind (neverShifts_checkedAt _) fun _ => ?_
  refine neverShifts_bind (neverShifts_rawBlock _ _) fun _ => ?_
  exact neverShifts_ite (neverShifts_ok _) (neverShifts_ok _)

theorem CHandshakeAckMessage.neverShifts :
    NeverShifts (CHandshakeAckMessage.decode data offset) := by
  rw [NeverShifts, decode, ne_eq, catchOutOfRange_eq_badShift]
  refine neverShifts_expect (neverShifts_expect (neverShifts_expect ?_))
  refine neverShifts_ite (neverShifts_ok _) ?_
  exact neverShifts_bind (neverShifts_u32At _) fun _ => neverShifts_ok _

theorem CNewObjectMessage.neverShifts : NeverShifts (CNewObjectMessage.decode data offset) := by
  rw [NeverShifts, decode, ne_eq, catchOutOfRange_eq_badShift]
  refine neverShifts_expect (neverShifts_expect (neverShifts_ite (neverShifts_ok _) ?_))
  refine neverShifts_bind (neverShifts_u32At _) fun _ => neverShifts_expect ?_
  refine neverShifts_bind (neverShifts_u32At _) fun _ => neverShifts_expect ?_
  exact neverShifts_ok _

theorem SeqMessage.neverShifts {type : EMessageType} :
    NeverShifts (SeqMessage.decode type data offset) := by
  rw [NeverShifts, decode, ne_eq, catchOutOfRange_eq_badShift]
  refine neverShifts_expect (neverShifts_expect (neverShifts_ite (neverShifts_ok _) ?_))
  exact neverShifts_bind (neverShifts_u32At _) fun _ => neverShifts_expect (neverShifts_ok _)

theorem CHandshakeBeginMessage.neverShifts_readVersions (n index : Nat) :
    NeverShifts (readVersions data n index) := by
  induction n generalizing index with
  | zero => exact neverShifts_ok _
  | succ n ih =>
      refine neverShifts_bind (neverShifts_u32At _) fun _ => ?_
      exact neverShifts_bind (ih (index + 4)) fun _ => neverShifts_ok _

theorem CHandshakeBeginMessage.decode_eq_badShift
    (type : data.checkedAt offset = .ok EMessageType.handshakeBegin.code) :
    CHandshakeBeginMessage.decode heap data offset = .error .badShift ↔
      LongControl heap data offset .handshakeBegin := by
  rw [decode, catchOutOfRange_eq_badShift, expect_eq_badShift, expect_eq_badShift,
    expect_eq_badShift, parseVarIntAt, parseVarInt_bind_eq_badShift_iff]
  · constructor
    · rintro ⟨-, array, kind, long⟩
      exact .versions array kind long
    · intro found
      cases found with
      | versions array kind long => exact ⟨type, array, kind, long⟩
  · rintro ⟨nVers, varIntLen⟩
    refine neverShifts_bind (neverShifts_resize _ _ _) fun _ => ?_
    refine neverShifts_bind (neverShifts_readVersions _ _) fun _ => ?_
    exact neverShifts_expect (neverShifts_ok _)

theorem CBindProtocolMessage.decode_eq_badShift
    (type : data.checkedAt offset = .ok EMessageType.bindProtocol.code) :
    CBindProtocolMessage.decode heap data offset = .error .badShift ↔
      LongControl heap data offset .bindProtocol := by
  rw [decode, catchOutOfRange_eq_badShift]
  constructor
  · intro shifts
    obtain ⟨-, shifts⟩ := expect_eq_badShift.mp shifts
    obtain ⟨uint, shifts⟩ := expect_eq_badShift.mp shifts
    obtain ⟨seq, word, shifts⟩ := (bind_eq_badShift (neverShifts_u32At _)).mp shifts
    obtain ⟨varchar, shifts⟩ := expect_eq_badShift.mp shifts
    refine .bindProtocol uint word varchar ((parseVarInt_bind_eq_badShift_iff ?_).mp shifts)
    rintro ⟨strLen, varIntLen⟩
    refine neverShifts_bind (neverShifts_checkedAt _) fun _ => ?_
    refine neverShifts_bind (neverShifts_copyString _ _ _) fun _ => neverShifts_expect ?_
    refine neverShifts_bind (neverShifts_u32At _) fun _ => ?_
    exact neverShifts_ite (neverShifts_ok _) (neverShifts_expect (neverShifts_ok _))
  · intro found
    cases found with
    | bindProtocol uint word varchar long =>
        refine expect_eq_badShift.mpr ⟨type, expect_eq_badShift.mpr ⟨uint, ?_⟩⟩
        refine (bind_eq_badShift (neverShifts_u32At _)).mpr ⟨_, word, ?_⟩
        refine expect_eq_badShift.mpr ⟨varchar, ?_⟩
        exact parseVarInt_bind_eq_badShift.mpr (.inl long)

theorem CFatalErrorMessage.decode_eq_badShift
    (type : data.checkedAt offset = .ok EMessageType.fatalProtocolError.code) :
    CFatalErrorMessage.decode heap data offset = .error .badShift ↔
      LongControl heap data offset .fatalProtocolError := by
  rw [decode, catchOutOfRange_eq_badShift]
  constructor
  · intro shifts
    obtain ⟨-, shifts⟩ := expect_eq_badShift.mp shifts
    obtain ⟨uint, shifts⟩ := expect_eq_badShift.mp shifts
    obtain ⟨objectId, object, shifts⟩ := (bind_eq_badShift (neverShifts_u32At _)).mp shifts
    obtain ⟨uint', shifts⟩ := expect_eq_badShift.mp shifts
    obtain ⟨errorId, error, shifts⟩ := (bind_eq_badShift (neverShifts_u32At _)).mp shifts
    obtain ⟨varchar, shifts⟩ := expect_eq_badShift.mp shifts
    refine .errorMsg uint object uint' error varchar
      ((parseVarInt_bind_eq_badShift_iff ?_).mp shifts)
    rintro ⟨strLen, strLenLen⟩
    refine neverShifts_bind (neverShifts_copyString _ _ _) fun _ => ?_
    exact neverShifts_expect (neverShifts_ok _)
  · intro found
    cases found with
    | errorMsg uint object uint' error varchar long =>
        refine expect_eq_badShift.mpr ⟨type, expect_eq_badShift.mpr ⟨uint, ?_⟩⟩
        refine (bind_eq_badShift (neverShifts_u32At _)).mpr ⟨_, object, ?_⟩
        refine expect_eq_badShift.mpr ⟨uint', ?_⟩
        refine (bind_eq_badShift (neverShifts_u32At _)).mpr ⟨_, error, ?_⟩
        refine expect_eq_badShift.mpr ⟨varchar, ?_⟩
        exact parseVarInt_bind_eq_badShift.mpr (.inl long)

theorem CHandshakeProtocolsMessage.readProtocols_eq_badShift {n needle : Nat} :
    readProtocols heap data offset n needle = .error .badShift ↔
      LongString heap data offset n needle := by
  induction n generalizing needle with
  | zero => exact ⟨nofun, nofun⟩
  | succ n ih =>
      rw [readProtocols, parseVarIntAt, parseVarInt_bind_eq_badShift]
      constructor
      · rintro (long | ⟨bytes, lies, shifts⟩)
        · exact .here long
        · obtain ⟨byte, starts, shifts⟩ := (bind_eq_badShift (neverShifts_checkedAt _)).mp shifts
          obtain ⟨string, copied, shifts⟩ :=
            (bind_eq_badShift (neverShifts_copyString _ _ _)).mp shifts
          rcases bind_eq_error.mp shifts with rest | ⟨read, -, none⟩
          · exact .later lies starts copied (ih.mp rest)
          · cases none
      · intro found
        cases found with
        | here long => exact .inl long
        | later lies starts copied rest =>
            refine .inr ⟨_, lies, ?_⟩
            refine (bind_eq_badShift (neverShifts_checkedAt _)).mpr ⟨_, starts, ?_⟩
            refine (bind_eq_badShift (neverShifts_copyString _ _ _)).mpr ⟨_, copied, ?_⟩
            exact bind_eq_error.mpr (.inl (ih.mpr rest))

theorem CHandshakeProtocolsMessage.decode_eq_badShift
    (type : data.checkedAt offset = .ok EMessageType.handshakeProtocols.code) :
    CHandshakeProtocolsMessage.decode heap data offset = .error .badShift ↔
      LongControl heap data offset .handshakeProtocols := by
  rw [decode, catchOutOfRange_eq_badShift]
  constructor
  · intro shifts
    obtain ⟨-, shifts⟩ := expect_eq_badShift.mp shifts
    obtain ⟨array, shifts⟩ := expect_eq_badShift.mp shifts
    obtain ⟨kind, shifts⟩ := expect_eq_badShift.mp shifts
    rcases parseVarInt_bind_eq_badShift.mp shifts with long | ⟨bytes, lies, shifts⟩
    · exact .protocols array kind long
    · obtain ⟨_, room, shifts⟩ := (bind_eq_badShift (neverShifts_resize _ _ _)).mp shifts
      rcases bind_eq_error.mp shifts with rest | ⟨read, -, none⟩
      · exact .protocol array kind lies room (readProtocols_eq_badShift.mp rest)
      · exact absurd none (neverShifts_expect (neverShifts_ok _))
  · intro found
    refine expect_eq_badShift.mpr ⟨type, ?_⟩
    cases found with
    | protocols array kind long =>
        refine expect_eq_badShift.mpr ⟨array, expect_eq_badShift.mpr ⟨kind, ?_⟩⟩
        exact parseVarInt_bind_eq_badShift.mpr (.inl long)
    | protocol array kind lies room string =>
        refine expect_eq_badShift.mpr ⟨array, expect_eq_badShift.mpr ⟨kind, ?_⟩⟩
        refine parseVarInt_bind_eq_badShift.mpr (.inr ⟨_, lies, ?_⟩)
        refine (bind_eq_badShift (neverShifts_resize _ _ _)).mpr ⟨_, room, ?_⟩
        exact bind_eq_error.mpr (.inl (readProtocols_eq_badShift.mpr string))

end Shifts

end Hyprwire.Wire
