import Hyprwire.Cpp.Loop
import Hyprwire.Wire.Control
import Hyprwire.Wire.Generic

/-!
# The message parser

`CMessageParser` goes over the bytes of one read from message to message. The two
ends have a `parseSingleMessage` each; here it is divided into the part that reads
(`parseServer`, `parseClient`), which is in this module, and the part that acts on
the message, which is given with the connection (`Receiver`). `handleMessage` is the
loop over both. It keeps a list of the messages that have been acted on.
-/

set_option autoImplicit false

namespace Hyprwire.Wire

open Cpp

/-- `HYPRWIRE_PROTOCOL_VER`. -/
def protocolVer : UInt32 := 1

/-! ## Messages -/

/-- A message that is sent, by its sending constructor. -/
inductive Message where
  | hello
  | handshakeBegin (versions : List UInt32)
  | handshakeAck (version : UInt32)
  | handshakeProtocols (protocols : List Str)
  | bindProtocol (protocol : Str) (seq version : UInt32)
  | newObject (seq id : UInt32)
  | fatalError (object : Option UInt32) (errorId : UInt32) (msg : Str)
  | roundtripRequest (seq : UInt32)
  | roundtripDone (seq : UInt32)
  | generic (data : List UInt8) (fds : List Fd)
  deriving DecidableEq, Repr

namespace Message

/-- `m_data`. -/
def data : Message → List UInt8
  | hello => CHelloMessage.encode
  | handshakeBegin versions => CHandshakeBeginMessage.encode versions
  | handshakeAck version => CHandshakeAckMessage.encode version
  | handshakeProtocols protocols => CHandshakeProtocolsMessage.encode protocols
  | bindProtocol protocol seq version => CBindProtocolMessage.encode protocol seq version
  | newObject seq id => CNewObjectMessage.encode seq id
  | fatalError object errorId msg => CFatalErrorMessage.encode object errorId msg
  | roundtripRequest seq => CRoundtripRequestMessage.encode seq
  | roundtripDone seq => CRoundtripDoneMessage.encode seq
  | .generic data _ => data

/-- `fds()`. -/
def fds : Message → List Fd
  | .generic _ fds => fds
  | _ => []

end Message

/-- A message that has been read. -/
inductive Received where
  | hello
  | handshakeBegin (versions : List UInt32)
  | handshakeAck (version : UInt32)
  | handshakeProtocols (protocols : List Str)
  | bindProtocol (protocol : Str) (seq version : UInt32)
  | newObject (seq id : UInt32)
  | fatalError (objectId errorId : UInt32) (errorMsg : Str)
  | roundtripRequest (seq : UInt32)
  | roundtripDone (seq : UInt32)
  | generic (msg : CGenericProtocolMessage)

/-- What the reading part of `parseSingleMessage` comes to. -/
inductive Parsed where
  /-- a message, to be acted on, and its length -/
  | message (received : Received) (len : Nat)
  /-- `return 0` -/
  | malformed
  /-- `m_error = true` and `return 0` -/
  | invalid

namespace Parsed

/-- A message with a length is a message, and one without is malformed. -/
def ofLen (len : Nat) (received : Received) : Parsed :=
  if len = 0 then malformed else message received len

end Parsed

/-- A reading part that takes no descriptors. -/
def readControl (fds : List Fd) (result : Except Fault Parsed) :
    Option (Except Fault (Parsed × List Fd)) :=
  some (result.map fun parsed => (parsed, fds))

/-- A generic message, which takes its descriptors from the queue. -/
def readGeneric (data : View) (fds : List Fd) (off : Nat) :
    Option (Except Fault (Parsed × List Fd)) :=
  (CGenericProtocolMessage.decode data fds off).map fun result => result.map fun decoded =>
    (.ofLen decoded.1.len (.generic decoded.1), decoded.2)

/-- The reading part of `parseSingleMessage` on the server. -/
def parseServer (heap : Heap) (data : View) (fds : List Fd) (off : Nat) :
    Option (Except Fault (Parsed × List Fd)) :=
  match data.checkedAt off with
  | .error fault => some (.error fault)
  | .ok byte =>
      match EMessageType.ofByte byte with
      | some .sup => readControl fds do
          let msg ← CHelloMessage.decode data off
          return .ofLen msg.len .hello
      | some .handshakeAck => readControl fds do
          let msg ← CHandshakeAckMessage.decode data off
          return .ofLen msg.len (.handshakeAck msg.version)
      | some .bindProtocol => readControl fds do
          let msg ← CBindProtocolMessage.decode heap data off
          return .ofLen msg.len (.bindProtocol msg.protocol msg.seq msg.version)
      | some .roundtripRequest => readControl fds do
          let msg ← CRoundtripRequestMessage.decode data off
          return .ofLen msg.len (.roundtripRequest msg.seq)
      | some .genericProtocolMessage => readGeneric data fds off
      | _ => readControl fds (.ok .invalid)

/-- The reading part of `parseSingleMessage` on the client. -/
def parseClient (heap : Heap) (data : View) (fds : List Fd) (off : Nat) :
    Option (Except Fault (Parsed × List Fd)) :=
  match data.checkedAt off with
  | .error fault => some (.error fault)
  | .ok byte =>
      match EMessageType.ofByte byte with
      | some .handshakeBegin => readControl fds do
          let msg ← CHandshakeBeginMessage.decode heap data off
          if msg.len ≠ 0 ∧ protocolVer ∉ msg.versionsSupported then
            return .malformed
          return .ofLen msg.len (.handshakeBegin msg.versionsSupported)
      | some .handshakeProtocols => readControl fds do
          let msg ← CHandshakeProtocolsMessage.decode heap data off
          return .ofLen msg.len (.handshakeProtocols msg.protocols)
      | some .newObject => readControl fds do
          let msg ← CNewObjectMessage.decode data off
          return .ofLen msg.len (.newObject msg.seq msg.id)
      | some .genericProtocolMessage => readGeneric data fds off
      | some .fatalProtocolError => readControl fds do
          -- The length is not looked at.
          let msg ← CFatalErrorMessage.decode heap data off
          return .message (.fatalError msg.objectId msg.errorId msg.errorMsg) msg.len
      | some .roundtripDone => readControl fds do
          let msg ← CRoundtripDoneMessage.decode data off
          return .ofLen msg.len (.roundtripDone msg.seq)
      | some .sup | some .handshakeAck | some .bindProtocol | some .roundtripRequest =>
          readControl fds (.ok .invalid)
      | some .invalid | none => readControl fds (.ok .malformed)

/-! ## Types -/

/-- The type of a message that is sent. -/
def Message.type : Message → EMessageType
  | .hello => .sup
  | .handshakeBegin _ => .handshakeBegin
  | .handshakeAck _ => .handshakeAck
  | .handshakeProtocols _ => .handshakeProtocols
  | .bindProtocol _ _ _ => .bindProtocol
  | .newObject _ _ => .newObject
  | .fatalError _ _ _ => .fatalProtocolError
  | .roundtripRequest _ => .roundtripRequest
  | .roundtripDone _ => .roundtripDone
  | .generic _ _ => .genericProtocolMessage

/-- The type of a message that has been read. -/
def Received.type : Received → EMessageType
  | .hello => .sup
  | .handshakeBegin _ => .handshakeBegin
  | .handshakeAck _ => .handshakeAck
  | .handshakeProtocols _ => .handshakeProtocols
  | .bindProtocol _ _ _ => .bindProtocol
  | .newObject _ _ => .newObject
  | .fatalError _ _ _ => .fatalProtocolError
  | .roundtripRequest _ => .roundtripRequest
  | .roundtripDone _ => .roundtripDone
  | .generic _ => .genericProtocolMessage

/-- A generic message starts with its code. -/
def Tagged : Message → Prop
  | .generic data _ => data.head? = some EMessageType.genericProtocolMessage.code
  | _ => True

/-- A message starts with the code of its type. -/
theorem Tagged.head {message : Message} (tagged : Tagged message) :
    message.data.head? = some message.type.code := by
  cases message with
  | generic data fds => exact tagged
  | _ => rfl

theorem Parsed.ofLen_eq_message {len n : Nat} {received received' : Received} :
    ofLen len received = message received' n ↔ len ≠ 0 ∧ received = received' ∧ len = n := by
  rw [ofLen]
  split
  · next zero => simp [zero]
  · next nonzero => simp [nonzero]

theorem readControl_eq_some {fds left : List Fd} {result : Except Fault Parsed} {parsed : Parsed} :
    readControl fds result = some (.ok (parsed, left)) ↔ result = .ok parsed ∧ left = fds := by
  cases result with
  | error fault => simp [readControl, Except.map]
  | ok parsed' => simp [readControl, Except.map, eq_comm]

/-- A message that a decoder has read, its length, and the descriptors it has left. -/
inductive Decoded (heap : Heap) (data : View) (fds : List Fd) (off : Nat) :
    Received → Nat → List Fd → Prop
  | hello {msg : CHelloMessage} (decoded : CHelloMessage.decode data off = .ok msg) :
      Decoded heap data fds off .hello msg.len fds
  | handshakeBegin {msg : CHandshakeBeginMessage}
      (decoded : CHandshakeBeginMessage.decode heap data off = .ok msg) :
      Decoded heap data fds off (.handshakeBegin msg.versionsSupported) msg.len fds
  | handshakeAck {msg : CHandshakeAckMessage}
      (decoded : CHandshakeAckMessage.decode data off = .ok msg) :
      Decoded heap data fds off (.handshakeAck msg.version) msg.len fds
  | handshakeProtocols {msg : CHandshakeProtocolsMessage}
      (decoded : CHandshakeProtocolsMessage.decode heap data off = .ok msg) :
      Decoded heap data fds off (.handshakeProtocols msg.protocols) msg.len fds
  | bindProtocol {msg : CBindProtocolMessage}
      (decoded : CBindProtocolMessage.decode heap data off = .ok msg) :
      Decoded heap data fds off (.bindProtocol msg.protocol msg.seq msg.version) msg.len fds
  | newObject {msg : CNewObjectMessage} (decoded : CNewObjectMessage.decode data off = .ok msg) :
      Decoded heap data fds off (.newObject msg.seq msg.id) msg.len fds
  | fatalError {msg : CFatalErrorMessage}
      (decoded : CFatalErrorMessage.decode heap data off = .ok msg) :
      Decoded heap data fds off (.fatalError msg.objectId msg.errorId msg.errorMsg) msg.len fds
  | roundtripRequest {msg : CRoundtripRequestMessage}
      (decoded : CRoundtripRequestMessage.decode data off = .ok msg) :
      Decoded heap data fds off (.roundtripRequest msg.seq) msg.len fds
  | roundtripDone {msg : CRoundtripDoneMessage}
      (decoded : CRoundtripDoneMessage.decode data off = .ok msg) :
      Decoded heap data fds off (.roundtripDone msg.seq) msg.len fds
  | generic {msg : CGenericProtocolMessage} {left : List Fd}
      (decoded : CGenericProtocolMessage.decode data fds off = some (.ok (msg, left))) :
      Decoded heap data fds off (.generic msg) msg.len left

theorem readControl_message {μ : Type} {fds left : List Fd} {result : Except Fault μ}
    {len : μ → Nat} {make : μ → Received} {received : Received} {n : Nat}
    (read : readControl fds (result >>= fun msg => pure (.ofLen (len msg) (make msg))) =
      some (.ok (.message received n, left))) :
    ∃ msg, result = .ok msg ∧ len msg ≠ 0 ∧ received = make msg ∧ n = len msg ∧ left = fds := by
  obtain ⟨parsed, rfl⟩ := readControl_eq_some.mp read
  obtain ⟨msg, decoded, made⟩ := bind_eq_ok.mp parsed
  obtain ⟨length, rfl, rfl⟩ := Parsed.ofLen_eq_message.mp (Except.ok.inj made)
  exact ⟨msg, decoded, length, rfl, rfl, rfl⟩

theorem readGeneric_message {data : View} {fds left : List Fd} {off n : Nat} {received : Received}
    (read : readGeneric data fds off = some (.ok (.message received n, left))) :
    ∃ msg, CGenericProtocolMessage.decode data fds off = some (.ok (msg, left)) ∧ msg.len ≠ 0 ∧
      received = .generic msg ∧ n = msg.len := by
  obtain ⟨result, decoded, rest⟩ := Option.map_eq_some_iff.mp read
  obtain ⟨⟨msg, left'⟩, rfl, made⟩ := map_eq_ok.mp rest
  obtain ⟨parsed, rfl⟩ := Prod.mk.inj made
  obtain ⟨length, rfl, rfl⟩ := Parsed.ofLen_eq_message.mp parsed
  exact ⟨msg, decoded, length, rfl, rfl⟩

/-- **A message that the server reads** was decoded, and has a length. -/
theorem parseServer_message {heap : Heap} {data : View} {fds left : List Fd} {off len : Nat}
    {received : Received}
    (read : parseServer heap data fds off = some (.ok (.message received len, left))) :
    data.checkedAt off = .ok received.type.code ∧ Decoded heap data fds off received len left ∧
      len ≠ 0 := by
  simp only [parseServer] at read
  cases tag : data.checkedAt off with
  | error fault => simp [tag] at read
  | ok byte =>
      simp only [tag] at read
      cases known : EMessageType.ofByte byte with
      | none => simp [known, readControl_eq_some] at read
      | some type =>
          obtain rfl := EMessageType.ofByte_eq_some.mp known
          simp only [EMessageType.ofByte_code] at read
          cases type with
          | sup =>
              obtain ⟨msg, decoded, length, rfl, rfl, rfl⟩ := readControl_message read
              exact ⟨rfl, .hello decoded, length⟩
          | handshakeAck =>
              obtain ⟨msg, decoded, length, rfl, rfl, rfl⟩ := readControl_message read
              exact ⟨rfl, .handshakeAck decoded, length⟩
          | bindProtocol =>
              obtain ⟨msg, decoded, length, rfl, rfl, rfl⟩ := readControl_message read
              exact ⟨rfl, .bindProtocol decoded, length⟩
          | roundtripRequest =>
              obtain ⟨msg, decoded, length, rfl, rfl, rfl⟩ := readControl_message read
              exact ⟨rfl, .roundtripRequest decoded, length⟩
          | genericProtocolMessage =>
              obtain ⟨msg, decoded, length, rfl, rfl⟩ := readGeneric_message read
              exact ⟨rfl, .generic decoded, length⟩
          | _ => simp [readControl_eq_some] at read

/-- **A message that the client reads** was decoded. Only the one of a fatal error can be
without a length. -/
theorem parseClient_message {heap : Heap} {data : View} {fds left : List Fd} {off len : Nat}
    {received : Received}
    (read : parseClient heap data fds off = some (.ok (.message received len, left))) :
    data.checkedAt off = .ok received.type.code ∧ Decoded heap data fds off received len left := by
  simp only [parseClient] at read
  cases tag : data.checkedAt off with
  | error fault => simp [tag] at read
  | ok byte =>
      simp only [tag] at read
      cases known : EMessageType.ofByte byte with
      | none => simp [known, readControl_eq_some] at read
      | some type =>
          obtain rfl := EMessageType.ofByte_eq_some.mp known
          simp only [EMessageType.ofByte_code] at read
          cases type with
          | handshakeBegin =>
              obtain ⟨parsed, rfl⟩ := readControl_eq_some.mp read
              obtain ⟨msg, decoded, made⟩ := bind_eq_ok.mp parsed
              split at made
              · cases made
              · obtain ⟨-, rfl, rfl⟩ := Parsed.ofLen_eq_message.mp (Except.ok.inj made)
                exact ⟨rfl, .handshakeBegin decoded⟩
          | handshakeProtocols =>
              obtain ⟨msg, decoded, -, rfl, rfl, rfl⟩ := readControl_message read
              exact ⟨rfl, .handshakeProtocols decoded⟩
          | newObject =>
              obtain ⟨msg, decoded, -, rfl, rfl, rfl⟩ := readControl_message read
              exact ⟨rfl, .newObject decoded⟩
          | genericProtocolMessage =>
              obtain ⟨msg, decoded, -, rfl, rfl⟩ := readGeneric_message read
              exact ⟨rfl, .generic decoded⟩
          | fatalProtocolError =>
              obtain ⟨parsed, rfl⟩ := readControl_eq_some.mp read
              obtain ⟨msg, decoded, made⟩ := bind_eq_ok.mp parsed
              cases made
              exact ⟨rfl, .fatalError decoded⟩
          | roundtripDone =>
              obtain ⟨msg, decoded, -, rfl, rfl, rfl⟩ := readControl_message read
              exact ⟨rfl, .roundtripDone decoded⟩
          | _ => simp [readControl_eq_some] at read

/-! ## The loop -/

/-- `eMessageParsingResult`. -/
inductive EMessageParsingResult where
  | parsedOk
  | parsedError
  | strayFds
  deriving DecidableEq, Repr

/-- What a connection of state `σ` does with messages: `parse` reads one, `stops` says
when the loop ends early, `setError` sets `m_error`, and `handle` acts on a message. It
has no value when a listener is never called because its arguments have no end. -/
structure Receiver (σ : Type) where
  parse : View → List Fd → Nat → Option (Except Fault (Parsed × List Fd))
  stops : σ → Bool
  setError : σ → σ
  handle : Received → σ → Option (Except Fault σ)

/-- `SSocketRawParsedMessage`, without the flag of a failed read. -/
structure SSocketRawParsedMessage where
  data : View
  fds : List Fd

/-- The loop before a message: the needle, the descriptors that are left, the
connection, and the messages that have been acted on. -/
structure ParseState (σ : Type) where
  needle : Nat
  fds : List Fd
  conn : σ
  handled : List Received

/-- What `handleMessage` returns, with the connection and the messages acted on. -/
structure Handled (σ : Type) where
  result : EMessageParsingResult
  conn : σ
  handled : List Received

variable {σ : Type}

/-- One turn of the `while` loop of `handleMessage`. -/
def parseTurn (receiver : Receiver σ) (data : View) (s : ParseState σ) :
    Option (Turn (ParseState σ) (Except Fault (Handled σ))) :=
  if s.needle < data.size ∧ ¬ receiver.stops s.conn then
    match receiver.parse data s.fds s.needle with
    | none => none
    | some (.error fault) => some (.leave (.error fault))
    | some (.ok (.malformed, _)) =>
        some (.leave (.ok ⟨.parsedError, s.conn, s.handled⟩))
    | some (.ok (.invalid, _)) =>
        some (.leave (.ok ⟨.parsedError, receiver.setError s.conn, s.handled⟩))
    | some (.ok (.message received len, fds)) =>
        match receiver.handle received s.conn with
        | none => none
        | some (.error fault) => some (.leave (.error fault))
        | some (.ok conn) =>
            if len = 0 then
              some (.leave (.ok ⟨.parsedError, conn, s.handled ++ [received]⟩))
            else
              some (.again ⟨wrap (s.needle + len), fds, conn, s.handled ++ [received]⟩)
  else
    let result := if s.fds ≠ [] then .strayFds else .parsedOk
    some (.leave (.ok ⟨result, s.conn, s.handled⟩))

/-- The loop before the first message of a read. -/
def firstMessage (raw : SSocketRawParsedMessage) (conn : σ) : ParseState σ :=
  { needle := 0, fds := raw.fds, conn, handled := [] }

/-- `CMessageParser::handleMessage`, for a number of turns at most. -/
def handleMessage (receiver : Receiver σ) (turns : Nat) (raw : SSocketRawParsedMessage)
    (conn : σ) : Option (Except Fault (Handled σ)) :=
  loop (parseTurn receiver raw.data) turns (firstMessage raw conn)

/-! ## What a turn does -/

/-- The loop goes on exactly after a message with a length, read and acted on. -/
theorem parseTurn_next_iff {receiver : Receiver σ} {data : View} {s s' : ParseState σ} :
    Next (parseTurn receiver data) s s' ↔
      (s.needle < data.size ∧ receiver.stops s.conn = false) ∧ ∃ received len left conn,
        receiver.parse data s.fds s.needle = some (.ok (.message received len, left)) ∧
        receiver.handle received s.conn = some (.ok conn) ∧ len ≠ 0 ∧
        s' = ⟨wrap (s.needle + len), left, conn, s.handled ++ [received]⟩ := by
  constructor
  · intro next
    simp only [Next, parseTurn, Bool.not_eq_true] at next
    split at next
    · next going =>
      refine ⟨going, ?_⟩
      split at next
      · cases next
      · cases next
      · cases next
      · cases next
      · next received len left read =>
        split at next
        · cases next
        · cases next
        · next conn acted =>
          split at next
          · cases next
          · next length =>
            exact ⟨received, len, left, conn, read, acted, length,
              (Turn.again.inj (Option.some.inj next)).symm⟩
    · cases next
  · rintro ⟨going, received, len, left, conn, read, acted, length, rfl⟩
    simp only [Next, parseTurn, Bool.not_eq_true, going, and_self, if_true, read, acted, length,
      if_false]

/-- The loop leaves with success exactly at the end of the bytes, or when it is stopped,
with no descriptors left. -/
theorem parseTurn_eq_parsedOk {receiver : Receiver σ} {data : View} {s : ParseState σ}
    {conn : σ} {handled : List Received} :
    parseTurn receiver data s = some (.leave (.ok ⟨.parsedOk, conn, handled⟩)) ↔
      (data.size ≤ s.needle ∨ receiver.stops s.conn = true) ∧ s.fds = [] ∧
        conn = s.conn ∧ handled = s.handled := by
  have stopped : (data.size ≤ s.needle ∨ receiver.stops s.conn = true) ↔
      ¬ (s.needle < data.size ∧ ¬ receiver.stops s.conn = true) := by
    rw [not_and_or, not_lt, not_not]
  rw [stopped]
  constructor
  · intro leaves
    simp only [parseTurn] at leaves
    split at leaves
    · split at leaves
      · cases leaves
      · cases leaves
      · cases leaves
      · cases leaves
      · split at leaves
        · cases leaves
        · cases leaves
        · split at leaves
          · cases leaves
          · cases leaves
    · next ended =>
      refine ⟨ended, ?_⟩
      by_cases stray : s.fds = []
      · simp only [stray, ne_eq, not_true, if_false] at leaves
        cases leaves
        exact ⟨stray, rfl, rfl⟩
      · simp only [ne_eq, stray, not_false_eq_true, if_true] at leaves
        cases leaves
  · rintro ⟨ended, noFds, rfl, rfl⟩
    simp only [parseTurn, ended, if_false, noFds, ne_eq, not_true]

/-- The connection that the loop leaves with: as it was, with an error, or after the
message of the last turn. -/
theorem parseTurn_leaves {receiver : Receiver σ} {data : View} {s : ParseState σ} {h : Handled σ}
    (leaves : parseTurn receiver data s = some (.leave (.ok h))) :
    h.conn = s.conn ∨ h.conn = receiver.setError s.conn ∨
      ∃ received, receiver.handle received s.conn = some (.ok h.conn) := by
  simp only [parseTurn] at leaves
  split at leaves
  · split at leaves
    · cases leaves
    · cases leaves
    · cases leaves; exact .inl rfl
    · cases leaves; exact .inr (.inl rfl)
    · next received _ _ _ =>
      split at leaves
      · cases leaves
      · cases leaves
      · next acted =>
        split at leaves
        · cases leaves; exact .inr (.inr ⟨received, acted⟩)
        · cases leaves
  · cases leaves; exact .inl rfl

/-- **What acting on a message and an error keep, a read keeps.** -/
theorem handleMessage_keeps {receiver : Receiver σ} {R : σ → σ → Prop} (refl : ∀ s, R s s)
    (trans : ∀ s t u, R s t → R t u → R s u)
    (handles : ∀ received s t, receiver.handle received s = some (.ok t) → R s t)
    (errs : ∀ s, R s (receiver.setError s)) {turns : Nat} {raw : SSocketRawParsedMessage}
    {conn : σ} {h : Handled σ} (run : handleMessage receiver turns raw conn = some (.ok h)) :
    R conn h.conn := by
  obtain ⟨s, reaches, leaves⟩ := exits_iff.mp ⟨turns, run⟩
  have reached : R conn s.conn :=
    Reaches.invariant (I := fun s => R conn s.conn) (fun t t' before next => by
      obtain ⟨-, received, len, left, conn', -, acted, -, rfl⟩ := parseTurn_next_iff.mp next
      exact trans _ _ _ before (handles _ _ _ acted)) reaches (refl conn)
  rcases parseTurn_leaves leaves with same | same | ⟨received, acted⟩
  · rwa [same]
  · rw [same]
    exact trans _ _ _ reached (errs _)
  · exact trans _ _ _ reached (handles _ _ _ acted)

end Hyprwire.Wire
