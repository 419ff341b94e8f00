import Hyprwire.Server.Roundtrips
import Hyprwire.Tracing.Accepted
import Hyprwire.Tracing.Ends
import Hyprwire.Tracing.Traced

/-!
# Tracing and behaviour

Both ends dispatch as they do without tracing when the messages that they read and send are
clean (`dispatchClient_traced`, `dispatchEvents_traced`). What a server sends behind a read
is always clean.

Whether a message that is read is clean is seen in its bytes: it is made of tokens and, when
the printer has a case for each of them, is printed exactly if it is not cut short
(`tracing_harmless`). An empty string at the end of an array at the end of the message is
enough to cut it short, since the printer hands on one byte less than it has
(`tracing_not_harmless`).
-/

set_option autoImplicit false

namespace Hyprwire.Server

open Cpp Wire Object Tracing

/-! ## The server -/

section Server

variable {α : Type}

/-- What acting on a message hands to `sendMessage`. -/
def handed (cfg : Config α) (received : Received) (s : ServerState α) : List Message :=
  match handle cfg received s with
  | some (.ok next) => next.client.sent.drop s.client.sent.length
  | _ => []

/-- The message that follows after `handleMessage`, if there is one. -/
def lastMessage (result : EMessageParsingResult) (s : ServerState α) : List Message :=
  (afterBatch result s).client.sent.drop s.client.sent.length

/-- `CServerSocket::dispatchClient` with tracing on. -/
def dispatchClientTraced (formatFloat : UInt32 → Str) (cfg : Config α) (turns : Nat)
    (read : Option SSocketRawParsedMessage) (s : ServerState α) :
    Option (Except Fault (ServerState α × List Received)) :=
  match read with
  | none =>
      printingAll formatFloat [.fatalError none 0xffffffff (text "fatal: invalid message on wire")]
        (some (.ok (fatal "fatal: invalid message on wire" s, [])))
  | some raw =>
      if raw.data.size = 0 then
        some (.ok (s, []))
      else
        match handleMessage (traced formatFloat (handed cfg) (receiver cfg)) turns raw s with
        | none => none
        | some (.error fault) => some (.error fault)
        | some (.ok h) =>
            printingAll formatFloat (lastMessage h.result h.conn)
              (some (.ok (afterBatch h.result h.conn, h.handled)))

/-- A short text that ends a connection is clean. -/
theorem cleanSent_fatalError {message : Str} (short : message.length < 2 ^ 28) :
    CleanSent (.fatalError none 0xffffffff message) := by
  refine ⟨?_, _, .fatalError none 0xffffffff message, ?_⟩
  · have few := length_encodeVarInt short
    simp only [Message.data, CFatalErrorMessage.encode, List.length_append, List.length_cons,
      List.length_nil, length_u32Bytes]
    omega
  · exact List.forall_mem_singleton.mpr short

/-- What follows after `handleMessage` is clean. -/
theorem cleanSent_lastMessage (result : EMessageParsingResult) (s : ServerState α) :
    ∀ message ∈ lastMessage result s, CleanSent message := by
  rw [lastMessage, afterBatch]
  split
  · rw [show (fatal _ s).client.sent = s.client.sent ++ _ from rfl, List.drop_left]
    exact List.forall_mem_singleton.mpr (cleanSent_fatalError (by decide +kernel))
  · split
    · rw [show (s.client.sendMessage _).sent = s.client.sent ++ _ from rfl, List.drop_left]
      refine List.forall_mem_singleton.mpr ⟨?_, _, .roundtripDone _, List.forall_mem_nil _⟩
      simp [Message.data, CRoundtripDoneMessage.encode, SeqMessage.encode]
    · rw [List.drop_length]
      exact List.forall_mem_nil _

/-- **The server dispatches clean messages as it does without tracing.** -/
theorem dispatchClient_traced {formatFloat : UInt32 → Str} {cfg : Config α} {turns : Nat}
    {read : Option SSocketRawParsedMessage} {s : ServerState α}
    (clean : ∀ raw, read = some raw → CleanBatch (receiver cfg) (handed cfg) raw s) :
    dispatchClientTraced formatFloat cfg turns read s = dispatchClient cfg turns read s := by
  cases read with
  | none =>
      refine printingAll_eq ?_ _
      have short := @cleanSent_fatalError (text "fatal: invalid message on wire") (by decide +kernel)
      exact List.forall_mem_singleton.mpr short.printed
  | some raw =>
      rw [dispatchClientTraced, dispatchClient, handleMessage_traced (clean raw rfl)]
      split
      · rfl
      · cases handleMessage (receiver cfg) turns raw s with
        | none => rfl
        | some result =>
            cases result with
            | error fault => rfl
            | ok h =>
                exact printingAll_eq
                  (fun message last => (cleanSent_lastMessage _ _ message last).printed) _

end Server

end Hyprwire.Server

namespace Hyprwire.Client

open Cpp Wire Object Tracing

/-! ## The client -/

section Client

variable {α : Type}

/-- What acting on a message hands to `sendMessage`. A socket that is closed keeps it from
being written, not from being printed. -/
def handed (cfg : Config α) (received : Received) (s : ClientState α) : List Message :=
  match handle cfg received { s with client := { s.client with fdIsValid := true } } with
  | some (.ok next) => (next.client.sent.drop s.client.sent.length).map Sent.message
  | _ => []

/-- What the end of `dispatchEvents` prints: a message that has waited is printed when it is
resolved, and by `sendMessage`. -/
def deferredMessages (client : CClientSocket) : List Message :=
  (client.pendingOutgoing.filterMap client.resolved).flatMap fun sent =>
    [sent.message, sent.message]

/-- `dispatchRead` with tracing on. -/
def dispatchReadTraced (formatFloat : UInt32 → Str) (cfg : Config α) (turns : Nat)
    (raw : SSocketRawParsedMessage) (s : ClientState α) :
    Option (Except Fault (Bool × ClientState α × List Received)) :=
  match handleMessage (traced formatFloat (handed cfg) (receiver cfg)) turns raw s with
  | none => none
  | some (.error fault) => some (.error fault)
  | some (.ok h) =>
      if h.result ≠ .parsedOk then
        some (.ok (false, { h.conn with client := h.conn.client.disconnectOnError }, h.handled))
      else
        let client := h.conn.client.flushPending
        printingAll formatFloat (deferredMessages h.conn.client)
          (some (.ok (!client.error, { h.conn with client }, h.handled)))

/-- `dispatchEvents` with tracing on. -/
def dispatchEventsTraced (formatFloat : UInt32 → Str) (cfg : Config α) (turns : Nat)
    (polled : Polled) (s : ClientState α) :
    Option (Except Fault (Bool × ClientState α × List Received)) :=
  match polled with
  | .readable (some raw) =>
      if s.client.error ∨ raw.data.size = 0 then
        some (.ok (false, s, []))
      else
        dispatchReadTraced formatFloat cfg turns raw s
  | _ => dispatchEvents cfg turns polled s

/-- The messages of a dispatch are clean: those of the read, and those that have waited. -/
structure CleanDispatch (cfg : Config α) (turns : Nat) (raw : SSocketRawParsedMessage)
    (s : ClientState α) : Prop where
  batch : CleanBatch (receiver cfg) (handed cfg) raw s
  deferred : ∀ h, handleMessage (receiver cfg) turns raw s = some (.ok h) →
    ∀ message ∈ deferredMessages h.conn.client, CleanSent message

/-- **The client dispatches clean messages as it does without tracing.** -/
theorem dispatchEvents_traced {formatFloat : UInt32 → Str} {cfg : Config α} {turns : Nat}
    {polled : Polled} {s : ClientState α}
    (clean : ∀ raw, polled = .readable (some raw) → CleanDispatch cfg turns raw s) :
    dispatchEventsTraced formatFloat cfg turns polled s = dispatchEvents cfg turns polled s := by
  have reads : ∀ raw, CleanDispatch cfg turns raw s →
      dispatchReadTraced formatFloat cfg turns raw s = dispatchRead cfg turns raw s := by
    intro raw clean
    rw [dispatchReadTraced, dispatchRead, handleMessage_traced clean.batch]
    cases handled : handleMessage (receiver cfg) turns raw s with
    | none => rfl
    | some result =>
        cases result with
        | error fault => rfl
        | ok h =>
            simp only [Option.map_some]
            rw [printingAll_eq fun message waited => (clean.deferred h handled message waited).printed]
            split
            · next refused => rw [Except.map, if_pos refused]
            · next parsed => rw [Except.map, if_neg parsed]
  cases polled with
  | readable read =>
      cases read with
      | none => rfl
      | some raw =>
          rw [dispatchEventsTraced, dispatchEvents, reads raw (clean raw rfl)]
          by_cases error : s.client.error = true
          · simp [error]
          · simp [error]
  | timedOut => rfl
  | hangup => rfl
  | nothing => rfl

end Client

end Hyprwire.Client

namespace Hyprwire.Tracing

open Cpp Wire Object

/-! ## Both ends -/

section Ends

variable {heap : Heap} {data : View} {fds left : List Fd} {off len : Nat} {received : Received}

/-- **Which accepted messages are printed.** -/
theorem accepted_printed_iff (filled : Filled data) (small : data.size < 2 ^ 63)
    (decoded : Decoded heap data fds off received len left) (accepted : len ≠ 0)
    (nonneg : NoNegative data fds off received.type) :
    ∃ tokens, data.rawBlock off (len - 1) = .ok (receivedData received.type tokens) ∧
      (received.type ≠ .genericProtocolMessage → ∀ token ∈ tokens, Printable token) ∧
      ((∀ token ∈ tokens, Printable token) →
        (Printed received.type (receivedData received.type tokens) ↔ ¬ CutShort tokens)) := by
  obtain ⟨tokens, holds, length, bound, known⟩ := Decoded.made filled small decoded accepted nonneg
  refine ⟨tokens, rawBlock_of_sentData holds length, known, fun printable => ?_⟩
  refine printed_received_iff printable ?_
  rw [length, sentData, List.length_append] at bound
  exact Nat.lt_of_succ_lt bound

/-- A message that is sent is printed when its lengths are short. -/
theorem Sendable.printed {message : Message} (sendable : Sendable message)
    (small : message.data.length < 2 ^ 63) :
    ∃ headers, IsSent message headers ∧
      (AllShort headers → Printed message.type message.data) := by
  obtain ⟨headers, sent⟩ := sendable
  exact ⟨headers, sent, fun short => sent.printed short small⟩

/-- **Tracing does no harm where nothing is cut short.** What is accepted without negative
lengths is printed exactly when it is not cut short, if the printer has a case for all of
it. What an end sends is printed when its lengths are short. Where all of this holds of
what is read and sent, the ends dispatch as they do without tracing. -/
theorem tracing_harmless {α β : Type} (formatFloat : UInt32 → Str) :
    (∀ (heap : Heap) (data : View) (fds left : List Fd) (off len : Nat) (received : Received),
      Filled data → data.size < 2 ^ 63 → Decoded heap data fds off received len left →
      len ≠ 0 → NoNegative data fds off received.type →
      ∃ tokens, data.rawBlock off (len - 1) = .ok (receivedData received.type tokens) ∧
        (received.type ≠ .genericProtocolMessage → ∀ token ∈ tokens, Printable token) ∧
        ((∀ token ∈ tokens, Printable token) →
          (Printed received.type (receivedData received.type tokens) ↔ ¬ CutShort tokens))) ∧
    (∀ (impls : Server.Impls) (client : Server.CServerClient), Server.ActRun impls {} client →
      ∀ message ∈ client.sent, message.data.length < 2 ^ 63 →
      ∃ headers, IsSent message headers ∧
        (AllShort headers → Printed message.type message.data)) ∧
    (∀ (impls : Client.Impls) (client : Client.CClientSocket),
      Client.Run impls Client.anyAct .opened client →
      ∀ sent ∈ client.sent, sent.message.data.length < 2 ^ 63 →
      ∃ headers, IsSent sent.message headers ∧
        (AllShort headers → Printed sent.message.type sent.message.data)) ∧
    (∀ (cfg : Server.Config α) (turns : Nat) (read : Option SSocketRawParsedMessage)
      (s : Server.ServerState α),
      (∀ raw, read = some raw → CleanBatch (Server.receiver cfg) (Server.handed cfg) raw s) →
      Server.dispatchClientTraced formatFloat cfg turns read s =
        Server.dispatchClient cfg turns read s) ∧
    (∀ (cfg : Client.Config β) (turns : Nat) (polled : Client.Polled) (s : Client.ClientState β),
      (∀ raw, polled = .readable (some raw) → Client.CleanDispatch cfg turns raw s) →
      Client.dispatchEventsTraced formatFloat cfg turns polled s =
        Client.dispatchEvents cfg turns polled s) := by
  refine ⟨?_, ?_, ?_, ?_, ?_⟩
  · intro heap data fds left off len received filled small decoded accepted nonneg
    exact accepted_printed_iff filled small decoded accepted nonneg
  · intro impls client run message listed small
    have nothing : ∀ message ∈ ({} : Server.CServerClient).sent, Sendable message :=
      List.forall_mem_nil _
    exact (run.sendable nothing message listed).printed small
  · intro impls client run sent listed small
    exact ((Client.Composed.run run .opened).sent sent listed).printed small
  · intro cfg turns read s clean
    exact Server.dispatchClient_traced clean
  · intro cfg turns polled s clean
    exact Client.dispatchEvents_traced clean

/-- A read of one message is clean when the message is. -/
theorem cleanBatch_one {σ : Type} {receiver : Receiver σ} {handed : Received → σ → List Message}
    {raw : SSocketRawParsedMessage} {conn : σ} {t : ParseState σ}
    (next : Next (parseTurn receiver raw.data) (firstMessage raw conn) t)
    (clean : CleanTurn receiver handed raw.data (firstMessage raw conn))
    (ends : ∃ fault, receiver.parse raw.data t.fds t.needle = some (.error fault)) :
    CleanBatch receiver handed raw conn := by
  obtain ⟨fault, ends⟩ := ends
  intro s reaches
  cases reaches.cases_head with
  | inl same => exact same ▸ clean
  | inr later =>
      obtain ⟨u, first, rest⟩ := later
      cases next.symm.trans first
      cases rest.cases_head with
      | inl same =>
          subst same
          intro received len left read
          cases ends.symm.trans read
      | inr later =>
          obtain ⟨v, second, -⟩ := later
          obtain ⟨-, received, len, left, conn', read, -⟩ := parseTurn_next_iff.mp second
          cases ends.symm.trans read

/-- A word is not cut short. -/
theorem not_cutShort_word (magic : WordMagic) (bits : UInt32) :
    ¬ CutShort [.word magic bits] := by
  rw [← List.nil_append [Token.word magic bits], cutShort_concat]
  rintro ⟨last, none, -⟩
  cases none

theorem length_encodeSeq (type : EMessageType) (seq : UInt32) :
    (SeqMessage.encode type seq).length < 2 ^ 63 := by
  rw [show (SeqMessage.encode type seq).length = 7 from rfl]
  decide

/-- A message that is a number is clean. -/
theorem cleanRead_seq {received : Received} {seq : UInt32}
    {length_lt : (SeqMessage.encode received.type seq).length < 2 ^ 63} :
    CleanRead (Server.reading (SeqMessage.encode received.type seq) length_lt).data 0 7
      received := by
  intro _
  refine ⟨[.word ⟨.typeUint, rfl⟩ seq], ?_, ?_, by decide, ?_, not_cutShort_word _ _⟩
  · exact @ByteVec.holds_strict ⟨SeqMessage.encode received.type seq, length_lt⟩ [] _ [] rfl
  · rfl
  · exact List.forall_mem_singleton.mpr trivial

/-- A roundtrip, asked for and answered. -/
def request : SSocketRawParsedMessage :=
  Server.reading (CRoundtripRequestMessage.encode 1) (length_encodeSeq _ 1)

def answer : SSocketRawParsedMessage :=
  Server.reading (CRoundtripDoneMessage.encode 1) (length_encodeSeq _ 1)

/-- A client without protocols. -/
def bareClient : Client.Config Unit where
  impls := []
  heap := .ample
  listener _ := .done
  frames := 0

theorem parse_request : parseServer .ample request.data [] 0 =
    some (.ok (.message (.roundtripRequest 1) 7, [])) := rfl

theorem clean_request :
    CleanBatch (Server.receiver Server.idle) (Server.handed Server.idle) request ⟨{}, ()⟩ := by
  refine cleanBatch_one (t := ⟨7, [], ⟨{ scheduledRoundtripSeq := 1 }, ()⟩, [.roundtripRequest 1]⟩)
    rfl ?_ ⟨_, rfl⟩
  intro received len left read
  cases parse_request.symm.trans read
  exact ⟨cleanRead_seq, List.forall_mem_nil _⟩

theorem clean_answer : Client.CleanDispatch bareClient 2 answer ⟨.opened, ()⟩ where
  batch := by
    refine cleanBatch_one
      (t := ⟨7, [], ⟨{ Client.CClientSocket.opened with lastAckdRoundtripSeq := 1 }, ()⟩,
        [.roundtripDone 1]⟩) rfl ?_ ⟨_, rfl⟩
    intro received len left read
    have is : (Client.receiver bareClient).parse answer.data [] 0 =
        some (.ok (.message (.roundtripDone 1) 7, [])) := rfl
    cases is.symm.trans read
    exact ⟨cleanRead_seq, List.forall_mem_nil _⟩
  deferred h handled := by
    cases handled
    exact List.forall_mem_nil _

/-- A roundtrip is asked for and answered as it is without tracing. -/
theorem tracing_harmless_roundtrip :
    (∃ tokens, request.data.rawBlock 0 6 = .ok (receivedData .roundtripRequest tokens) ∧
      (Printed .roundtripRequest (receivedData .roundtripRequest tokens) ↔ ¬ CutShort tokens)) ∧
    Printed .roundtripDone (Message.data (.roundtripDone 1)) ∧
    Printed .roundtripRequest (Message.data (.roundtripRequest 1)) ∧
    Server.dispatchClientTraced (fun _ => []) Server.idle 2 (some request) ⟨{}, ()⟩ =
      some (.ok (⟨{ sent := [.roundtripDone 1] }, ()⟩, [.roundtripRequest 1])) ∧
    Client.dispatchEventsTraced (fun _ => []) bareClient 2 (.readable (some answer)) ⟨.opened, ()⟩ =
      some (.ok (true, ⟨{ Client.CClientSocket.opened with lastAckdRoundtripSeq := 1 }, ()⟩,
        [.roundtripDone 1])) := by
  obtain ⟨accepted, serverSends, clientSends, server, client⟩ :=
    @tracing_harmless Unit Unit fun _ => []
  refine ⟨?_, ?_, ?_, ?_, ?_⟩
  · have small : request.data.size < 2 ^ 63 :=
      ByteVec.length_lt ⟨CRoundtripRequestMessage.encode 1, length_encodeSeq _ 1⟩
    have filled : Filled request.data := by
      have filled :=
        filled_viewIn ⟨CRoundtripRequestMessage.encode 1, length_encodeSeq _ 1⟩ fun _ => none
      rwa [ByteVec.viewIn_none] at filled
    obtain ⟨tokens, copied, printable, iff⟩ := accepted .ample request.data [] [] 0 7
      (.roundtripRequest 1) filled small (parseServer_message parse_request).2.1 (by decide) trivial
    exact ⟨tokens, copied, iff (printable (by decide))⟩
  · have run : Server.ActRun [] {} { sent := [.roundtripDone 1] } :=
      (Server.ActRun.single (.receive (.roundtripRequest 1)) rfl).trans (.single .answer rfl)
    obtain ⟨headers, is, printed⟩ :=
      serverSends [] _ run (.roundtripDone 1) List.mem_cons_self (by decide)
    cases is
    exact printed (List.forall_mem_nil _)
  · have run : Client.Run [] Client.anyAct .opened Client.CClientSocket.opened.roundtrip :=
      .single .roundtrip rfl
    obtain ⟨headers, is, printed⟩ := clientSends [] _ run ⟨.roundtripRequest 1, none⟩
      (List.mem_cons_of_mem _ List.mem_cons_self) (by decide)
    cases is
    exact printed (List.forall_mem_nil _)
  · have clean : ∀ raw, some request = some raw →
        CleanBatch (Server.receiver Server.idle) (Server.handed Server.idle) raw ⟨{}, ()⟩ := by
      intro raw is
      cases is
      exact clean_request
    exact server Server.idle 2 (some request) ⟨{}, ()⟩ clean
  · have clean : ∀ raw, Client.Polled.readable (some answer) = .readable (some raw) →
        Client.CleanDispatch bareClient 2 raw ⟨.opened, ()⟩ := by
      intro raw is
      cases is
      exact clean_answer
    exact client bareClient 2 (.readable (some answer)) ⟨.opened, ()⟩ clean

/-- `HANDSHAKE_PROTOCOLS` with one empty name. -/
def emptyName : List UInt8 := [0x04, 0x21, 0x20, 0x01, 0x00, 0x00]

/-- What the trace keeps of it is an array that ends with the length of its last string. -/
theorem not_printed_emptyName : ¬ Printed .handshakeProtocols (emptyName.take 5) := by
  intro printed
  obtain ⟨result, run⟩ := printed fun _ => []
  have fault : parseData (fun _ => []) .handshakeProtocols (emptyName.take 5) =
      some (.error .outOfBounds) := by rfl
  rw [fault] at run
  cases run

/-- **Tracing is not harmless**: a message that the client accepts is not printed, and the
client that reads it does not come to the end of its dispatch. -/
theorem tracing_not_harmless :
    (¬ ∀ (heap : Heap) (data : View) (fds left : List Fd) (off len : Nat) (received : Received),
      Filled data → data.size < 2 ^ 63 → Decoded heap data fds off received len left → len ≠ 0 →
      ∀ copied, data.rawBlock off (len - 1) = .ok copied → Printed received.type copied) ∧
    ¬ ∀ (formatFloat : UInt32 → Str) (cfg : Client.Config Unit) (turns : Nat)
      (polled : Client.Polled) (s : Client.ClientState Unit),
      Client.dispatchEventsTraced formatFloat cfg turns polled s =
        Client.dispatchEvents cfg turns polled s := by
  constructor
  · intro printed
    have decoded : CHandshakeProtocolsMessage.decode .ample (spanOf emptyName) 0 =
        .ok ⟨[[]], 6⟩ := by rfl
    refine not_printed_emptyName (printed .ample (spanOf emptyName) [] [] 0 6
      (.handshakeProtocols [[]]) (filled_spanOf emptyName) (by decide)
      (.handshakeProtocols decoded) (by decide) _ ?_)
    rfl
  · intro same
    have both := same (fun _ => []) bareClient 2 (.readable (some ⟨spanOf emptyName, []⟩))
      ⟨.opened, ()⟩
    have faults : Client.dispatchEventsTraced (fun _ => []) bareClient 2
        (.readable (some ⟨spanOf emptyName, []⟩)) ⟨.opened, ()⟩ = some (.error .outOfBounds) := by
      rfl
    obtain ⟨result, ends⟩ : ∃ result, Client.dispatchEvents bareClient 2
        (.readable (some ⟨spanOf emptyName, []⟩)) ⟨.opened, ()⟩ = some (.ok result) := ⟨_, rfl⟩
    rw [faults, ends] at both
    cases both

end Ends

end Hyprwire.Tracing
