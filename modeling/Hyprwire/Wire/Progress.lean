import Hyprwire.Wire.WalkProgress

/-!
# The parser goes on

`handleMessage` advances by the length of each message it accepts. `Progress` is what is
asked of it over all the messages of a read, on either side and whatever the receiver does
with them: no shift is undefined, the walk of every generic message rises, every accepted
message ends inside the buffer, the needle rises and stays there, and the loop ends.
`parse_progress_iff` shows that this is so exactly when every message the parser comes to
is `Tame`, which is a condition on its bytes. `hang_forever` is a message of eighteen
bytes that the parser never gets past.
-/

set_option autoImplicit false

namespace Hyprwire.Wire

open Cpp

/-! ## Sides -/

/-- The two ends of a connection, each with a `parseSingleMessage` of its own. -/
inductive Side where
  | server
  | client
  deriving DecidableEq, Repr

namespace Side

def parse (heap : Heap) : Side → View → List Fd → Nat → Option (Except Fault (Parsed × List Fd))
  | server => parseServer heap
  | client => parseClient heap

/-- The messages that are decoded on a side. -/
def reads : Side → EMessageType → Bool
  | server, .sup | server, .handshakeAck | server, .bindProtocol | server, .roundtripRequest
  | server, .genericProtocolMessage => true
  | client, .handshakeBegin | client, .handshakeProtocols | client, .newObject
  | client, .genericProtocolMessage | client, .fatalProtocolError | client, .roundtripDone => true
  | _, _ => false

end Side

section Parse

variable {heap : Heap} {data : View} {fds left : List Fd} {off len : Nat} {side : Side}
  {received : Received}

theorem readControl_eq_badShift {result : Except Fault Parsed} :
    readControl fds result = some (.error .badShift) ↔ result = .error .badShift := by
  cases result with
  | error fault => simp [readControl, Except.map]
  | ok parsed => simp [readControl, Except.map]

theorem readGeneric_eq_badShift :
    readGeneric data fds off = some (.error .badShift) ↔
      CGenericProtocolMessage.decode data fds off = some (.error .badShift) := by
  rw [readGeneric]
  rcases CGenericProtocolMessage.decode data fds off with _ | fault | decoded
  · exact ⟨nofun, nofun⟩
  · simp [Except.map]
  · simp [Except.map]

/-- A generic message is read in one way on both sides. -/
theorem Side.parse_generic
    (tag : data.checkedAt off = .ok EMessageType.genericProtocolMessage.code) :
    side.parse heap data fds off = readGeneric data fds off := by
  cases side <;> simp [parse, parseServer, parseClient, tag]

/-- A message with a prefix that is followed shifts exactly when its decoder does. -/
theorem readControl_bind_eq_badShift {μ : Type} {result : Except Fault μ}
    {next : μ → Except Fault Parsed} (rest : ∀ msg, NeverShifts (next msg)) :
    readControl fds (result >>= next) = some (.error .badShift) ↔ result = .error .badShift := by
  rw [readControl_eq_badShift, bind_eq_error]
  refine or_iff_left ?_
  rintro ⟨msg, -, shifts⟩
  exact rest msg shifts

/-- The messages whose decoder can shift too far: those with a long prefix, and generic
ones. -/
def ShiftsAt (heap : Heap) (data : View) (fds : List Fd) (off : Nat) (type : EMessageType) :
    Prop :=
  LongControl heap data off type ∨ type = .genericProtocolMessage ∧
    CGenericProtocolMessage.decode data fds off = some (.error .badShift)

/-- A part that never shifts, of a message that has no long prefix. -/
theorem not_shiftsAt {type : EMessageType} {result : Except Fault Parsed}
    (never : NeverShifts result) (fixed : ¬ LongControl heap data off type)
    (control : type ≠ .genericProtocolMessage) :
    readControl fds result = some (.error .badShift) ↔
      side.reads type = true ∧ ShiftsAt heap data fds off type := by
  refine iff_of_false (fun shifts => never (readControl_eq_badShift.mp shifts)) ?_
  rintro ⟨-, long | ⟨generic, -⟩⟩
  · exact fixed long
  · exact control generic

/-- A decoder that shifts at a long prefix. -/
theorem shiftsAt_iff {type : EMessageType} {μ : Type} {result : Except Fault μ}
    {next : μ → Except Fault Parsed} (rest : ∀ msg, NeverShifts (next msg))
    (long : result = .error .badShift ↔ LongControl heap data off type)
    (control : type ≠ .genericProtocolMessage) (reads : side.reads type = true) :
    readControl fds (result >>= next) = some (.error .badShift) ↔
      side.reads type = true ∧ ShiftsAt heap data fds off type := by
  rw [readControl_bind_eq_badShift rest, long, ShiftsAt]
  constructor
  · intro found
    exact ⟨reads, .inl found⟩
  · rintro ⟨-, found | ⟨generic, -⟩⟩
    · exact found
    · exact absurd generic control

/-- **When reading a message shifts too far.** -/
theorem Side.parse_eq_badShift {type : EMessageType} (tag : data.checkedAt off = .ok type.code) :
    side.parse heap data fds off = some (.error .badShift) ↔
      side.reads type = true ∧ ShiftsAt heap data fds off type := by
  have pure_ : ∀ {μ : Type} {result : Except Fault μ} {next : μ → Parsed},
      NeverShifts result → NeverShifts (result >>= fun msg => pure (next msg)) :=
    fun never => neverShifts_bind never fun _ => neverShifts_ok _
  by_cases generic : type = .genericProtocolMessage
  · subst generic
    rw [parse_generic tag, readGeneric_eq_badShift]
    constructor
    · intro shifts
      exact ⟨by cases side <;> rfl, .inr ⟨rfl, shifts⟩⟩
    · rintro ⟨-, long | ⟨-, shifts⟩⟩
      · cases long
      · exact shifts
  cases side with
  | server =>
      simp only [parse, parseServer, tag, EMessageType.ofByte_code]
      cases type with
      | sup => exact not_shiftsAt (pure_ CHelloMessage.neverShifts) (by rintro ⟨⟩) generic
      | handshakeAck =>
          exact not_shiftsAt (pure_ CHandshakeAckMessage.neverShifts) (by rintro ⟨⟩) generic
      | bindProtocol =>
          exact shiftsAt_iff (fun _ => neverShifts_ok _)
            (CBindProtocolMessage.decode_eq_badShift tag) generic rfl
      | roundtripRequest => exact not_shiftsAt (pure_ SeqMessage.neverShifts) (by rintro ⟨⟩) generic
      | genericProtocolMessage => exact absurd rfl generic
      | _ => exact iff_of_false (by simp [readControl_eq_badShift]) (by simp [reads])
  | client =>
      simp only [parse, parseClient, tag, EMessageType.ofByte_code]
      cases type with
      | handshakeBegin =>
          exact shiftsAt_iff (fun _ => neverShifts_ite (neverShifts_ok _) (neverShifts_ok _))
            (CHandshakeBeginMessage.decode_eq_badShift tag) generic rfl
      | handshakeProtocols =>
          exact shiftsAt_iff (fun _ => neverShifts_ok _)
            (CHandshakeProtocolsMessage.decode_eq_badShift tag) generic rfl
      | newObject => exact not_shiftsAt (pure_ CNewObjectMessage.neverShifts) (by rintro ⟨⟩) generic
      | fatalProtocolError =>
          exact shiftsAt_iff (fun _ => neverShifts_ok _)
            (CFatalErrorMessage.decode_eq_badShift tag) generic rfl
      | roundtripDone => exact not_shiftsAt (pure_ SeqMessage.neverShifts) (by rintro ⟨⟩) generic
      | genericProtocolMessage => exact absurd rfl generic
      | _ => exact iff_of_false (by simp [readControl_eq_badShift]) (by simp [reads])

/-- Reading never ends exactly at a generic message whose walk does not. -/
theorem Side.parse_eq_none {type : EMessageType} (tag : data.checkedAt off = .ok type.code) :
    side.parse heap data fds off = none ↔
      type = .genericProtocolMessage ∧ CGenericProtocolMessage.decode data fds off = none := by
  by_cases generic : type = .genericProtocolMessage
  · subst generic
    rw [parse_generic tag, readGeneric, Option.map_eq_none_iff]
    exact (and_iff_right rfl).symm
  · refine iff_of_false (fun none => ?_) fun both => generic both.1
    cases side
    all_goals
      simp only [parse, parseServer, parseClient, tag, EMessageType.ofByte_code] at none
      cases type <;> simp [readControl] at none generic

/-- **A message that is read** was decoded, as one that is read on the side. -/
theorem Side.parse_message
    (read : side.parse heap data fds off = some (.ok (.message received len, left))) :
    data.checkedAt off = .ok received.type.code ∧ side.reads received.type = true ∧
      Decoded heap data fds off received len left := by
  cases side with
  | server =>
      obtain ⟨tag, decoded, -⟩ := parseServer_message read
      refine ⟨tag, ?_, decoded⟩
      simp only [parse, parseServer, tag, EMessageType.ofByte_code] at read
      cases received <;> first | rfl | simp [Received.type, readControl_eq_some] at read
  | client =>
      obtain ⟨tag, decoded⟩ := parseClient_message read
      refine ⟨tag, ?_, decoded⟩
      simp only [parse, parseClient, tag, EMessageType.ofByte_code] at read
      cases received <;> first | rfl | simp [Received.type, readControl_eq_some] at read

/-- An index inside the data at which nothing is the code of a message is not read. -/
theorem Side.parse_unknown {byte : UInt8} (tag : data.checkedAt off = .ok byte)
    (unknown : EMessageType.ofByte byte = none) :
    side.parse heap data fds off = some (.ok (.invalid, fds)) ∨
      side.parse heap data fds off = some (.ok (.malformed, fds)) := by
  cases side with
  | server => exact .inl (by simp [parse, parseServer, tag, unknown, readControl, Except.map])
  | client => exact .inr (by simp [parse, parseClient, tag, unknown, readControl, Except.map])

end Parse

/-! ## One message -/

open CGenericProtocolMessage in
/-- The bytes of a message at an offset, with `n` descriptors queued, let the parser go
on: a `SUP` is whole, no prefix has a sixth byte where a decoder of the side reads one,
and a generic message is tame. -/
structure TameAt (side : Side) (heap : Heap) (data : View) (off n : Nat) : Prop where
  sup : side = .server → data.Holds off CHelloMessage.expected → 7 ≤ data.size - off
  control : ∀ type, side.reads type = true → data.checkedAt off = .ok type.code →
    ¬ LongControl heap data off type
  walk : ∀ object method, decodeHeader data off = .ok (some (object, method)) → Tame data off n

open CGenericProtocolMessage in
/-- What is asked of reading one message. -/
structure ReadProgress (side : Side) (heap : Heap) (data : View) (fds : List Fd) (off : Nat) :
    Prop where
  shifts : side.parse heap data fds off ≠ some (.error .badShift)
  returns : side.parse heap data fds off ≠ none
  rises : ∀ object method s s', decodeHeader data off = .ok (some (object, method)) →
    Reaches (elementTurn data off) (firstElement fds) s → Next (elementTurn data off) s s' →
    s.i < s'.i
  ends : ∀ received len left,
    side.parse heap data fds off = some (.ok (.message received len, left)) →
    EndsInside data off len

section OneMessage

open CGenericProtocolMessage

variable {side : Side} {heap : Heap} {data : View} {fds : List Fd} {off : Nat}

/-- A message with an object and a method is a generic one. -/
theorem tag_of_decodeHeader {object method : UInt32}
    (header : decodeHeader data off = .ok (some (object, method))) :
    data.checkedAt off = .ok EMessageType.genericProtocolMessage.code := by
  unfold decodeHeader catchOutOfRange at header
  split at header
  · cases header
  · obtain ⟨byte, read, rest⟩ := bind_eq_ok.mp header
    split at rest
    · cases rest
    · next same => exact not_not.mp same ▸ read

/-- `SUP` is compared as a block, wherever the buffer ends. -/
theorem decode_hello (inside : off < data.size) (small : data.size < 2 ^ 63)
    (holds : data.Holds off CHelloMessage.expected) :
    CHelloMessage.decode data off = .ok { len := 7 } := by
  have first : data.checkedAt off = .ok EMessageType.sup.code :=
    View.checkedAt_inside holds inside small
  rw [CHelloMessage.decode, first, ok_bind, View.rawBlock_of_holds holds]
  rfl

/-- A message that progresses is tame. -/
theorem tame_of_readProgress (small : data.size < 2 ^ 63) (inside : off < data.size)
    (progress : ReadProgress side heap data fds off) : TameAt side heap data off fds.length := by
  refine ⟨fun server holds => ?_, fun type reads tag long => ?_, fun object method header => ?_⟩
  · subst server
    have first : data.checkedAt off = .ok EMessageType.sup.code :=
      View.checkedAt_inside holds inside small
    refine progress.ends .hello 7 fds ?_ (by decide)
    simp [Side.parse, parseServer, first, decode_hello inside small holds, Parsed.ofLen,
      readControl, Except.map]
  · exact progress.shifts ((Side.parse_eq_badShift tag).mpr ⟨reads, .inl long⟩)
  · have tag := tag_of_decodeHeader header
    refine (tame_iff small inside).mp ⟨fun s reaches shifts => ?_, ?_, fun s reaches done => ?_⟩
    · refine progress.shifts ?_
      rw [Side.parse_generic tag, readGeneric_eq_badShift]
      exact decode_eq_badShift.mpr ⟨object, method, s, header, reaches, shifts⟩
    · exact fun s s' => progress.rises object method s s' header
    · intro nonzero
      obtain ⟨mark, -⟩ := elementStep_eq_done.mp done
      have accepted := (decode_accepts.mpr
        ⟨object, method, s, header, reaches, mark, nonzero, rfl⟩).1
      refine progress.ends (.generic (finish data off object method (.done s)).1)
        (wrap (s.i + 1)) s.fds ?_ nonzero
      rw [Side.parse_generic tag, readGeneric, accepted]
      simp only [finish, Option.map_some, Except.map, Parsed.ofLen, nonzero, if_false]

/-- A message begins with the code of a type, or is refused without a shift. -/
theorem tagged_or_refused (side : Side) (heap : Heap) (data : View) (fds : List Fd) (off : Nat) :
    (∃ type : EMessageType, data.checkedAt off = .ok type.code) ∨
      ∃ result, side.parse heap data fds off = some result ∧ result ≠ .error .badShift := by
  cases tag : data.checkedAt off with
  | error fault =>
      refine .inr ⟨.error fault, ?_, fun shifts => ?_⟩
      · cases side <;> simp [Side.parse, parseServer, parseClient, tag]
      · cases shifts
        exact absurd tag (neverShifts_checkedAt off)
  | ok byte =>
      cases code : EMessageType.ofByte byte with
      | some type => exact .inl ⟨type, by rw [EMessageType.ofByte_eq_some.mp code]⟩
      | none =>
          rcases Side.parse_unknown tag code with read | read
          · exact .inr ⟨_, read, neverShifts_ok _⟩
          · exact .inr ⟨_, read, neverShifts_ok _⟩

/-- A tame message does not shift by too much. -/
theorem TameAt.shifts (small : data.size < 2 ^ 63) (inside : off < data.size)
    (tame : TameAt side heap data off fds.length) :
    side.parse heap data fds off ≠ some (.error .badShift) := by
  intro shifts
  rcases tagged_or_refused side heap data fds off with ⟨type, tag⟩ | ⟨result, read, never⟩
  · obtain ⟨reads, long | ⟨-, generic⟩⟩ := (Side.parse_eq_badShift tag).mp shifts
    · exact tame.control type reads tag long
    · obtain ⟨object, method, s, header, reaches, shifts⟩ := decode_eq_badShift.mp generic
      have walk := (tame_iff small inside).mpr (tame.walk object method header)
      exact walk.shifts s reaches shifts
  · exact never (Option.some.inj (read.symm.trans shifts))

/-- The reading of a tame message ends. -/
theorem TameAt.returns (small : data.size < 2 ^ 63) (inside : off < data.size)
    (tame : TameAt side heap data off fds.length) : side.parse heap data fds off ≠ none := by
  intro none
  rcases tagged_or_refused side heap data fds off with ⟨type, tag⟩ | ⟨result, read, -⟩
  · obtain ⟨-, never⟩ := (Side.parse_eq_none tag).mp none
    cases header : decodeHeader data off with
    | error fault => simp [CGenericProtocolMessage.decode, header] at never
    | ok found =>
        rcases found with _ | ⟨object, method⟩
        · simp [CGenericProtocolMessage.decode, header] at never
        · have walk := (tame_iff small inside).mpr (tame.walk object method header)
          exact (decode_eq_none header).mp never walk.exits
  · exact absurd (read.symm.trans none) (Option.some_ne_none result)

/-- **Reading one message meets what is asked of it exactly when the message is tame.** -/
theorem readProgress_iff (small : data.size < 2 ^ 63) (inside : off < data.size) :
    ReadProgress side heap data fds off ↔ TameAt side heap data off fds.length := by
  refine ⟨tame_of_readProgress small inside, fun tame => ?_⟩
  have walks : ∀ object method, decodeHeader data off = .ok (some (object, method)) →
      WalkProgress data off fds :=
    fun object method header => (tame_iff small inside).mpr (tame.walk object method header)
  refine ⟨tame.shifts small inside, tame.returns small inside,
    fun object method s s' header => (walks object method header).rises s s', ?_⟩
  intro received len left read
  obtain ⟨-, reads, decoded⟩ := Side.parse_message read
  cases decoded with
  | hello decoded =>
      cases side with
      | server => exact CHelloMessage.accepts (tame.sup rfl) _ decoded
      | client => cases reads
  | handshakeBegin decoded => exact CHandshakeBeginMessage.accepts small _ decoded
  | handshakeAck decoded => exact CHandshakeAckMessage.accepts _ decoded
  | handshakeProtocols decoded => exact CHandshakeProtocolsMessage.accepts small _ decoded
  | bindProtocol decoded => exact CBindProtocolMessage.accepts small _ decoded
  | newObject decoded => exact CNewObjectMessage.accepts _ decoded
  | fatalError decoded => exact CFatalErrorMessage.accepts small _ decoded
  | roundtripRequest decoded => exact SeqMessage.accepts _ decoded
  | roundtripDone decoded => exact SeqMessage.accepts _ decoded
  | generic decoded =>
      intro nonzero
      obtain ⟨object, method, s, header, reaches, mark, length, message⟩ :=
        decode_accepts.mp ⟨decoded, nonzero⟩
      have walk := (walks object method header).ends s reaches
        (elementStep_eq_done.mpr ⟨mark, rfl⟩)
      have same : _ = wrap (s.i + 1) := congrArg (fun pair => pair.1.len) message
      rw [same]
      exact walk length

end OneMessage

/-! ## A read -/

/-- The parser of a side, with what a receiver does with the messages. -/
def Side.receiver {σ : Type} (side : Side) (heap : Heap) (receiver : Receiver σ) : Receiver σ :=
  { receiver with parse := side.parse heap }

/-- The loop goes on to read a message. -/
def Going {σ : Type} (receiver : Receiver σ) (data : View) (s : ParseState σ) : Prop :=
  s.needle < data.size ∧ receiver.stops s.conn = false

/-- What is asked of the parser over a read: of every message it comes to, of the needle,
and that the loop stops after at most one turn for each byte and one more. -/
structure Progress {σ : Type} (side : Side) (heap : Heap) (receiver : Receiver σ) (data : View)
    (start : ParseState σ) : Prop where
  reads : ∀ s, Reaches (parseTurn (side.receiver heap receiver) data) start s →
    Going receiver data s → ReadProgress side heap data s.fds s.needle
  rises : ∀ s s', Reaches (parseTurn (side.receiver heap receiver) data) start s →
    Next (parseTurn (side.receiver heap receiver) data) s s' →
    s.needle < s'.needle ∧ s'.needle ≤ data.size
  ends : stateAfter (parseTurn (side.receiver heap receiver) data) (data.size + 1) start = none

/-- **The parser goes on exactly when every message it comes to is tame**, whatever the
bytes, the memory around them, the descriptors, and the receiver. -/
theorem parse_progress_iff {σ : Type} (side : Side) (heap : Heap) (receiver : Receiver σ)
    (v : ByteVec) (outside : Nat → Option UInt8) (fds : List Fd) (conn : σ) :
    Progress side heap receiver (v.viewIn outside) (firstMessage ⟨v.viewIn outside, fds⟩ conn) ↔
      ∀ s, Reaches (parseTurn (side.receiver heap receiver) (v.viewIn outside))
          (firstMessage ⟨v.viewIn outside, fds⟩ conn) s →
        Going receiver (v.viewIn outside) s →
        TameAt side heap (v.viewIn outside) s.needle s.fds.length := by
  have small : (v.viewIn outside).size < 2 ^ 63 := v.length_lt
  constructor
  · intro progress s reaches going
    exact (readProgress_iff small going.1).mp (progress.reads s reaches going)
  · intro tame
    have rises : ∀ s s', Reaches (parseTurn (side.receiver heap receiver) (v.viewIn outside))
          (firstMessage ⟨v.viewIn outside, fds⟩ conn) s →
        Next (parseTurn (side.receiver heap receiver) (v.viewIn outside)) s s' →
        s.needle < s'.needle ∧ s'.needle ≤ (v.viewIn outside).size := by
      intro s s' reaches next
      obtain ⟨going, received, len, left, conn', read, -, length, rfl⟩ :=
        parseTurn_next_iff.mp next
      have progress := (readProgress_iff small going.1).mpr (tame s reaches going)
      have inside := progress.ends received len left read length
      have needle : wrap (s.needle + len) = s.needle + len := wrap_of_lt (by omega)
      simp only [needle]
      omega
    refine ⟨fun s reaches going => ?_, rises, stateAfter_eq_none rises⟩
    exact (readProgress_iff small going.1).mpr (tame s reaches going)

/-- A generic message whose string has the length minus six, in five bytes. -/
def endless : List UInt8 :=
  [100, 0x22, 0, 0, 0, 0, 0x10, 0, 0, 0, 0, 0x20, 0xfa, 0xff, 0xff, 0xff, 0x0f, 0x00]

/-- A receiver that does nothing with its messages. -/
def listless : Receiver Unit where
  parse _ _ _ := none
  stops _ := false
  setError := id
  handle _ s := some (.ok s)

/-- **The parser never gets past a string of negative length**: the walk stays where it
is. -/
theorem hang_forever :
    Side.server.parse .ample (ByteVec.viewIn ⟨endless, by decide⟩ fun _ => none) [] 0 = none ∧
      ¬ Progress .server .ample listless (ByteVec.viewIn ⟨endless, by decide⟩ fun _ => none)
        (firstMessage ⟨ByteVec.viewIn ⟨endless, by decide⟩ fun _ => none, []⟩ ()) := by
  have header : CGenericProtocolMessage.decodeHeader
      (ByteVec.viewIn ⟨endless, by decide⟩ fun _ => none) 0 = .ok (some (0, 0)) := by
    rfl
  have stays : Next (CGenericProtocolMessage.elementTurn
      (ByteVec.viewIn ⟨endless, by decide⟩ fun _ => none) 0)
      (CGenericProtocolMessage.firstElement []) (CGenericProtocolMessage.firstElement []) := by
    rfl
  constructor
  · rw [Side.parse_generic (tag_of_decodeHeader header), readGeneric, Option.map_eq_none_iff,
      CGenericProtocolMessage.decode_eq_none header]
    rintro ⟨exit, turns, exits⟩
    have never := loop_eq_none_of_closed
      (I := fun s => s = CGenericProtocolMessage.firstElement [])
      (by rintro s rfl; exact ⟨_, stays, rfl⟩) rfl turns
    cases exits.symm.trans never
  · intro progress
    have going : Going listless (ByteVec.viewIn ⟨endless, by decide⟩ fun _ => none)
        (firstMessage ⟨ByteVec.viewIn ⟨endless, by decide⟩ fun _ => none, []⟩ ()) :=
      ⟨by decide, rfl⟩
    exact Nat.lt_irrefl _
      ((progress.reads _ .refl going).rises 0 0 _ _ header .refl stays)

end Hyprwire.Wire
