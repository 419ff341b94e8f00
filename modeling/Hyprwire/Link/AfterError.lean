import Hyprwire.Client.Idle
import Hyprwire.Client.Order
import Hyprwire.Server.Dispatch

/-!
# After an error

A message can put its connection into error, by what it is or by what a listener does with
it. The loop of the server looks at `m_error` before each message, so that nothing is handled
any more (`handleMessage_stops`). The loop of the client goes on with the rest of the batch,
which is without an effect only when each message of it finds nothing to do:
`nothing_after_error_iff` says so for both ends, and `done_after_fatal` is a roundtrip that is
answered behind a `FATAL_PROTOCOL_ERROR`.
-/

set_option autoImplicit false

namespace Hyprwire.Link

open Cpp Wire Object Client

/-! ## The server -/

section Server

variable {α : Type} {cfg : Server.Config α}

/-- The loop is over before a message when the connection is in error. -/
theorem parseTurn_stops {data : View} {p : ParseState (Server.ServerState α)}
    (error : p.conn.client.error = true) :
    parseTurn (Server.receiver cfg) data p =
      some (.leave (.ok ⟨if p.fds ≠ [] then .strayFds else .parsedOk, p.conn, p.handled⟩)) := by
  have stopped : ¬ (p.needle < data.size ∧ ¬ (Server.receiver cfg).stops p.conn = true) :=
    fun going => going.2 error
  rw [parseTurn, if_neg stopped]

/-- **Nothing is handled after an error on the server**: `handleMessage` returns with the
connection as the message has left it that put it into error. -/
theorem handleMessage_stops {turns : Nat} {raw : SSocketRawParsedMessage}
    {s : Server.ServerState α} {h : Handled (Server.ServerState α)}
    {p : ParseState (Server.ServerState α)}
    (run : handleMessage (Server.receiver cfg) turns raw s = some (.ok h))
    (reaches : Reaches (parseTurn (Server.receiver cfg) raw.data) (firstMessage raw s) p)
    (error : p.conn.client.error = true) : h.conn = p.conn ∧ h.handled = p.handled := by
  have exits : Exits (parseTurn (Server.receiver cfg) raw.data) p (.ok h) :=
    .after reaches ⟨turns, run⟩
  cases Exits.unique exits (.leave (parseTurn_stops error))
  exact ⟨rfl, rfl⟩

end Server

/-! ## Both ends -/

/-- **Nothing is done after an error.** On the server that is always so. On the client, where
a dispatch goes on with the rest of its batch, it is so exactly when all the messages that are
ahead find nothing to do. -/
theorem nothing_after_error_iff {α : Type} {cfg : Server.Config α} {turns : Nat}
    {raw : SSocketRawParsedMessage} {s : Server.ServerState α} {h : Handled (Server.ServerState α)}
    {state : ParseState (Server.ServerState α)}
    (run : handleMessage (Server.receiver cfg) turns raw s = some (.ok h))
    (reaches : Reaches (parseTurn (Server.receiver cfg) raw.data) (firstMessage raw s) state)
    (serverError : state.conn.client.error = true)
    (heap : Heap) (batch : Reentrant.Batch) {client : CClientSocket}
    (clientError : client.error = true) :
    (h.conn = state.conn ∧ h.handled = state.handled) ∧
      (Untouched heap batch client ↔ ∀ received,
        Ahead heap batch.data batch.fds batch.needle received → Idle client received) :=
  ⟨handleMessage_stops run reaches serverError, untouched_iff clientError⟩

/-! ## A roundtrip behind a fatal error -/

/-- `FATAL_PROTOCOL_ERROR` and `ROUNDTRIP_DONE`. -/
def fatalRead : ByteVec :=
  ⟨[12, 0x10, 0, 0, 0, 0, 0x10, 7, 0, 0, 0, 0x20, 0, 0, 14, 0x10, 5, 0, 0, 0, 0], by decide⟩

theorem parse_fatal : parseClient .ample fatalRead.strict [] 0 =
    some (.ok (.message (.fatalError 0 7 []) 14, [])) := rfl

theorem parse_done : parseClient .ample fatalRead.strict [] 14 =
    some (.ok (.message (.roundtripDone 5) 7, [])) := rfl

/-- The rest of the batch, behind the fatal error. -/
def failedBatch : Reentrant.Batch where
  data := fatalRead.strict
  queue := []
  needle := 14
  fds := []
  handled := [.fatalError 0 7 []]

/-- The client behind the fatal error. -/
def failed : Reentrant.Process where
  client := { error := true }
  frames := [.dispatchEvents 0 false]
  batches := [failedBatch]
  log := [(0, .fatalError 0 7 [])]

/-- It has read the two messages, and handled the first. -/
theorem run_failed : Reentrant.Run [] .ample Reentrant.anyEvent ⟨{}, [], [], []⟩ failed := by
  let raw : SSocketRawParsedMessage := ⟨fatalRead.strict, []⟩
  let start : Reentrant.Process := ⟨{}, [], [], []⟩
  have read : Reentrant.Step [] .ample start (.reads raw) (start.reading raw) :=
    @Reentrant.Step.read _ _ start (.readable (some raw)) _ rfl rfl
  have fails : start.client.receive (.fatalError 0 7 []) = some (.ok (failed.client, none)) := rfl
  have handles : Reentrant.Step [] .ample (start.reading raw) .handles failed :=
    @Reentrant.Step.message _ _ (start.reading raw) 0 _ (.ofRaw raw) _ _ _ _ _ rfl rfl
      (@Reentrant.next_of_parse _ (.ofRaw raw) _ _ _ _ _ _ (by decide) parse_fatal (by decide)
        fails)
  exact (Reentrant.Run.single read).trans (.single handles)

/-- The server stops, and on the client the condition is what decides. -/
theorem nothing_after_error_failed :
    ((Server.ServerState.mk { error := true } () = ⟨{ error := true }, ()⟩) ∧
        ([] : List Received) = []) ∧
      (Untouched .ample failedBatch failed.client ↔ ∀ received,
        Ahead .ample failedBatch.data failedBatch.fds failedBatch.needle received →
          Idle failed.client received) := by
  let cfg : Server.Config Unit := ⟨[], .ample, ⟨fun _ _ => .done, fun _ _ _ => .done⟩, 1⟩
  let raw : SSocketRawParsedMessage := ⟨fatalRead.strict, []⟩
  let s : Server.ServerState Unit := ⟨{ error := true }, ()⟩
  have run : handleMessage (Server.receiver cfg) 1 raw s = some (.ok ⟨.parsedOk, s, []⟩) := rfl
  exact nothing_after_error_iff run .refl rfl .ample failedBatch rfl

/-- A roundtrip is answered behind the fatal error. -/
theorem done_after_fatal : Reentrant.Run [] .ample Reentrant.anyEvent ⟨{}, [], [], []⟩ failed ∧
    failed.client.error = true ∧ ¬ Untouched .ample failedBatch failed.client := by
  refine ⟨run_failed, rfl, fun untouched => ?_⟩
  have quiet := untouched _ .refl _ _ _ (by decide) parse_done
  have acknowledged := (Prod.mk.inj (Except.ok.inj (Option.some.inj quiet))).1
  exact absurd (congrArg CClientSocket.lastAckdRoundtripSeq acknowledged) (by decide)

end Hyprwire.Link
