import Hyprwire.Client.Roundtrips
import Hyprwire.Object.Segments

/-!
# The client and several reads

The part of `dispatchEvents` that reads and parses (`parseRead`) is lawful as an endpoint. It
keeps an error, and does nothing more once there is one.
-/

set_option autoImplicit false

namespace Hyprwire.Client

open Cpp Wire Object

variable {α : Type}

/-! ## Reading and parsing -/

/-- What follows `handleMessage`, up to the calls that wait. -/
def afterParse (result : EMessageParsingResult) (s : ClientState α) : ClientState α :=
  if result ≠ .parsedOk then { s with client := s.client.disconnectOnError } else s

/-- The part of `dispatchEvents` that reads and parses, with the messages it has acted on. -/
def parseRead (cfg : Config α) (turns : Nat) (raw : SSocketRawParsedMessage) (s : ClientState α) :
    Option (Except Fault (ClientState α × List Received)) :=
  if s.client.error ∨ raw.data.size = 0 then
    some (.ok (s, []))
  else
    (handleMessage (receiver cfg) turns raw s).map fun result =>
      result.map fun h => (afterParse h.result h.conn, h.handled)

/-- `dispatchEvents` reads and parses, and then flushes what waits, if it does not return
before. -/
theorem dispatchEvents_parseRead {cfg : Config α} {turns : Nat} {raw : SSocketRawParsedMessage}
    {s t : ClientState α} {goesOn : Bool} {handled : List Received}
    (dispatched : dispatchEvents cfg turns (.readable (some raw)) s = some (.ok (goesOn, t, handled))) :
    ∃ u, parseRead cfg turns raw s = some (.ok (u, handled)) ∧
      (t = u ∨ t = { u with client := u.client.flushPending }) := by
  simp only [dispatchEvents] at dispatched
  rw [parseRead]
  split at dispatched
  · next error =>
    cases dispatched
    exact ⟨s, if_pos (.inl error), .inl rfl⟩
  · next fine =>
    split at dispatched
    · next empty =>
      cases dispatched
      exact ⟨s, if_pos (.inr empty), .inl rfl⟩
    · next some_ =>
      rw [if_neg (not_or.mpr ⟨fine, some_⟩)]
      obtain ⟨result, run, rest⟩ := Option.map_eq_some_iff.mp dispatched
      cases result with
      | error fault => cases rest
      | ok h =>
          rw [run]
          simp only [Except.map] at rest
          split at rest
          · next failed =>
            cases rest
            exact ⟨_, by simp only [Option.map_some, Except.map, afterParse, if_pos failed], .inl rfl⟩
          · next parsed =>
            cases rest
            exact ⟨_, by simp only [Option.map_some, Except.map, afterParse, if_neg parsed],
              .inr rfl⟩

/-! ## The client as an endpoint -/

theorem CClientSocket.onGeneric_alone {client : CClientSocket} {msg : CGenericProtocolMessage}
    (made : OfElements (.generic msg)) :
    client.onGeneric msg = client.onGeneric { msg with dataSpan := msg.dataSpan.guarded } := by
  obtain ⟨tokens, madeOf⟩ := made
  have same := fun (object : IWireObject) methods =>
    called_guarded (called_reads madeOf object methods msg.method)
  simp only [onGeneric, same]

theorem handle_alone {cfg : Config α} {received : Received} (made : OfElements received)
    (s : ClientState α) : handle cfg received s = handle cfg (alone received) s := by
  cases received with
  | generic msg =>
      rw [alone, handle, handle, CClientSocket.receive, CClientSocket.receive,
        CClientSocket.onGeneric_alone made]
  | _ => rfl

/-- An error of the one state is in the other one as well. -/
def KeepsError (s t : ClientState α) : Prop := s.client.error = true → t.client.error = true

/-- The listeners keep an error. -/
theorem runCode_error (cfg : Config α) (code : ClientCode α) :
    Keeps KeepsError id (runCode cfg code) := by
  refine exec_keeps (fun s error => error) (fun _ _ _ first second error => second (first error))
    (fun callback _ request s t run => ?_) cfg.frames code
  cases request with
  | call object id args =>
      obtain ⟨⟨result, client⟩, called, rest⟩ := bind_eq_ok.mp run
      cases rest
      exact (Quiet.call called).errors
  | listen object id fn =>
      obtain ⟨client, called, rest⟩ := bind_eq_ok.mp run
      cases rest
      exact (Quiet.listen called).errors
  | load =>
      cases run
      exact id
  | store memory =>
      cases run
      exact id

theorem handle_error {cfg : Config α} {received : Received} {s t : ClientState α}
    (run : handle cfg received s = some (.ok t)) (error : s.client.error = true) :
    t.client.error = true := by
  obtain ⟨result, library, rest⟩ := Option.map_eq_some_iff.mp run
  cases result with
  | error fault => cases rest
  | ok result =>
      obtain ⟨client, invocation⟩ := result
      have stays := receive_error library error
      cases invocation with
      | none =>
          cases rest
          exact stays
      | some invocation => exact runCode_error cfg _ _ _ rest stays

/-- What the client does with a read. -/
def endpoint (cfg : Config α) : Endpoint (ClientState α) where
  receiver := receiver cfg
  after := afterParse
  closed s := s.client.error
  error s := s.client.error

/-- A read without descriptors is read and parsed. -/
def Dispatches (cfg : Config α) (chunk : ByteVec) (s t : ClientState α) (handled : List Received) :
    Prop :=
  ∃ turns, parseRead cfg turns ⟨chunk.strict, []⟩ s = some (.ok (t, handled))

theorem dispatches_iff {cfg : Config α} {chunk : ByteVec} {s t : ClientState α}
    {handled : List Received} :
    Dispatches cfg chunk s t handled ↔ (endpoint cfg).Dispatch chunk s t handled := by
  refine Endpoint.dispatch_iff ?_ ?_
  · intro idle turns
    have skips : s.client.error = true ∨ chunk.strict.size = 0 :=
      idle.imp_right (congrArg List.length)
    rw [parseRead, if_pos skips]
  · intro fine some_ turns
    have going : ¬ (s.client.error = true ∨ chunk.strict.size = 0) := by
      rintro (failed | none)
      · exact absurd (fine.symm.trans failed) Bool.false_ne_true
      · exact some_ (List.length_eq_zero_iff.mp none)
    rw [parseRead, if_neg going]
    rfl

/-- **The client is lawful**, as long as storage is to be had. -/
theorem lawful (cfg : Config α) (ample : cfg.heap = .ample) :
    (endpoint cfg).Lawful .client (fun s t => s = t) where
  parse := by
    show parseClient cfg.heap = parseClient .ample
    rw [ample]
  refl := fun _ => rfl
  trans := fun first second => first.trans second
  alone := fun received s made => handle_alone made s
  same := by
    rintro received s s' t rfl run
    exact ⟨t, run, rfl⟩
  error_same := by
    rintro s s' rfl
    rfl
  stops := fun s stops => absurd stops Bool.false_ne_true
  closed := fun s closed => closed
  handles := handle_error
  sets := fun s error => rfl
  parsed := fun s => rfl
  failed := by
    intro result s other
    simp only [endpoint, afterParse, if_pos other]
    rfl
  after := by
    intro result s error
    simp only [endpoint, afterParse]
    split
    · rfl
    · exact error

end Hyprwire.Client
