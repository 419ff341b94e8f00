import Hyprwire.Tracing.Ends

/-!
# A read with tracing on

An end that traces prints every message that it reads, from a copy of its bytes without the
`END`, and every message that it hands to `sendMessage` (`traced`). What it comes to is
the same as without tracing when all of these are printed (`handleMessage_traced`).

A message that has been read is printed when it is not cut short (`CleanRead`), and one
that is sent when its lengths are short (`CleanSent`).
-/

set_option autoImplicit false

namespace Hyprwire.Tracing

open Cpp Wire Object

/-! ## Printing beside the work -/

section Printing

variable (formatFloat : UInt32 → Str)

/-- `TRACE` of a message, and what comes after it. -/
def printing {α : Type} (type : EMessageType) (data : List UInt8) (next : Option (Except Fault α)) :
    Option (Except Fault α) :=
  match parseData formatFloat type data with
  | none => none
  | some (.error fault) => some (.error fault)
  | some (.ok _) => next

/-- The messages that have been handed to `sendMessage` are printed one after the other. A
fault ends the process wherever it comes, so that they may stand behind the work that sends
them. -/
def printingAll {α : Type} : List Message → Option (Except Fault α) → Option (Except Fault α)
  | [], next => next
  | message :: rest, next =>
      printing formatFloat message.type message.data (printingAll rest next)

/-- The reading part of `parseSingleMessage`. The constructor copies the bytes of the message
without the `END`, and none for a message without a length. The client prints a generic
message behind its listener only, and a fatal error not at all. -/
def tracedParse (parse : View → List Fd → Nat → Option (Except Fault (Parsed × List Fd)))
    (data : View) (fds : List Fd) (off : Nat) : Option (Except Fault (Parsed × List Fd)) :=
  match parse data fds off with
  | some (.ok (.message received len, left)) =>
      match data.rawBlock off (len - 1) with
      | .error fault => some (.error fault)
      | .ok copied =>
          if received.type = .fatalProtocolError then
            some (.ok (.message received len, left))
          else
            printing formatFloat received.type copied (some (.ok (.message received len, left)))
  | result => result

/-- An end with tracing on, with the messages that acting on a message hands to
`sendMessage`. -/
def traced {σ : Type} (handed : Received → σ → List Message) (receiver : Receiver σ) :
    Receiver σ where
  parse := tracedParse formatFloat receiver.parse
  stops := receiver.stops
  setError := receiver.setError
  handle received conn :=
    printingAll formatFloat (handed received conn) (receiver.handle received conn)

variable {formatFloat}

theorem printing_eq {α : Type} {type : EMessageType} {data : List UInt8}
    (printed : Printed type data) (next : Option (Except Fault α)) :
    printing formatFloat type data next = next := by
  obtain ⟨result, run⟩ := printed formatFloat
  rw [printing, run]

theorem printingAll_eq {α : Type} {messages : List Message}
    (printed : ∀ message ∈ messages, Printed message.type message.data)
    (next : Option (Except Fault α)) : printingAll formatFloat messages next = next := by
  induction messages with
  | nil => rfl
  | cons message messages ih =>
      obtain ⟨first, others⟩ := List.forall_mem_cons.mp printed
      rw [printingAll, printing_eq first, ih others]

end Printing

/-! ## A read -/

section Read

variable {σ : Type} {formatFloat : UInt32 → Str} {receiver : Receiver σ}
  {handed : Received → σ → List Message} {data : View}

/-- A message that is accepted at an offset is made of tokens that the printer has a case
for, and is not cut short. -/
def CleanRead (data : View) (off len : Nat) (received : Received) : Prop :=
  len ≠ 0 → ∃ tokens, data.Holds off (sentData received.type tokens) ∧
    len = (sentData received.type tokens).length ∧ len < 2 ^ 63 ∧
    (∀ token ∈ tokens, Printable token) ∧ ¬ CutShort tokens

/-- A message that is sent fits a vector, and its lengths are short. -/
def CleanSent (message : Message) : Prop :=
  message.data.length < 2 ^ 63 ∧ ∃ headers, IsSent message headers ∧ AllShort headers

theorem CleanSent.printed {message : Message} (clean : CleanSent message) :
    Printed message.type message.data := by
  obtain ⟨small, headers, is, short⟩ := clean
  exact is.printed short small

/-- The copy of an accepted message. -/
theorem rawBlock_of_sentData {type : EMessageType} {tokens : List Token} {off len : Nat}
    (holds : data.Holds off (sentData type tokens)) (length : len = (sentData type tokens).length) :
    data.rawBlock off (len - 1) = .ok (receivedData type tokens) := by
  rw [length, sentData, List.length_append, List.length_singleton, Nat.add_sub_cancel]
  exact View.rawBlock_of_holds (View.holds_append.mp holds).1

/-- A clean message is copied and printed. -/
theorem CleanRead.printed {off len : Nat} {received : Received}
    (clean : CleanRead data off len received) :
    ∃ copied, data.rawBlock off (len - 1) = .ok copied ∧ Printed received.type copied := by
  by_cases length : len = 0
  · refine ⟨[], by rw [length]; rfl, ?_⟩
    exact printed_of_walks (fun _ => .refl 1) (Nat.zero_le 1)
  · obtain ⟨tokens, holds, same, small, printable, whole⟩ := clean length
    refine ⟨_, rawBlock_of_sentData holds same, ?_⟩
    refine (printed_received_iff printable ?_).mpr whole
    rw [same, sentData, List.length_append] at small
    exact Nat.lt_of_succ_lt small

/-- The messages of a turn are clean. -/
def CleanTurn (receiver : Receiver σ) (handed : Received → σ → List Message) (data : View)
    (s : ParseState σ) : Prop :=
  ∀ received len left,
    receiver.parse data s.fds s.needle = some (.ok (.message received len, left)) →
      CleanRead data s.needle len received ∧
        ∀ message ∈ handed received s.conn, CleanSent message

/-- **A turn with clean messages is the same with tracing.** -/
theorem parseTurn_traced {s : ParseState σ} (clean : CleanTurn receiver handed data s) :
    parseTurn (traced formatFloat handed receiver) data s = parseTurn receiver data s := by
  have parse : (traced formatFloat handed receiver).parse data s.fds s.needle =
      receiver.parse data s.fds s.needle := by
    simp only [traced, tracedParse]
    split
    · next received len left read =>
      obtain ⟨copied, copies, printed⟩ := (clean received len left read).1.printed
      rw [copies, read]
      simp only [printing_eq printed, ite_self]
    · rfl
  simp only [parseTurn, parse, show (traced formatFloat handed receiver).stops = receiver.stops from rfl,
    show (traced formatFloat handed receiver).setError = receiver.setError from rfl]
  split
  · split
    · rfl
    · rfl
    · rfl
    · rfl
    · next received len left read =>
      have handle : (traced formatFloat handed receiver).handle received s.conn =
          receiver.handle received s.conn :=
        printingAll_eq (fun message new => ((clean received len left read).2 message new).printed) _
      rw [handle]
  · rfl

/-- The messages of all turns of a read are clean. -/
def CleanBatch (receiver : Receiver σ) (handed : Received → σ → List Message)
    (raw : SSocketRawParsedMessage) (conn : σ) : Prop :=
  ∀ s, Reaches (parseTurn receiver raw.data) (firstMessage raw conn) s →
    CleanTurn receiver handed raw.data s

/-- **A read with clean messages is the same with tracing.** -/
theorem handleMessage_traced {raw : SSocketRawParsedMessage} {conn : σ}
    (clean : CleanBatch receiver handed raw conn) (turns : Nat) :
    handleMessage (traced formatFloat handed receiver) turns raw conn =
      handleMessage receiver turns raw conn :=
  loop_congr (fun s reaches => parseTurn_traced (clean s reaches)) turns

end Read

end Hyprwire.Tracing
