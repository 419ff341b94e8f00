import Hyprwire.Client.Handles
import Hyprwire.Cpp.Guarded
import Hyprwire.Server.Acts

/-!
# A client and its server

A client socket and the server's side of its connection, joined by two channels that
keep the order of the messages. What one end has sent is its list `sent`, and the other
end has taken a number of messages from the front of it. An end takes a message by
parsing its bytes and acting on it; between messages both ends can do whatever their
applications ask for (`Step`).

`taken_newObject`, `taken_roundtripRequest` and `taken_roundtripDone` say which
message was sent when one of these was taken.
-/

set_option autoImplicit false

namespace Hyprwire.Link

open Cpp Wire Object Client Server

/-- Both ends, the numbers of messages they have taken, and the number of sequences
that the client has used. -/
structure System where
  client : CClientSocket := .opened
  server : CServerClient := {}
  toServer : Nat := 0
  toClient : Nat := 0
  used : Nat := 0

/-- The implementations and the heaps of both ends. -/
structure Config where
  clientImpls : Client.Impls
  serverImpls : Server.Impls
  clientHeap : Heap
  serverHeap : Heap

/-- The bytes of a message are read from the front as a message. -/
def Reads (parse : View → List Fd → Nat → Option (Except Fault (Parsed × List Fd)))
    (message : Message) (received : Received) : Prop :=
  ∃ (data : ByteVec) (len : Nat) (left : List Fd), data.data = message.data ∧
    parse data.strict message.fds 0 = some (.ok (.message received len, left))

theorem Reads.of {parse : View → List Fd → Nat → Option (Except Fault (Parsed × List Fd))}
    {message : Message} {received : Received} (len : Nat) (left : List Fd)
    (small : message.data.length < 2 ^ 63)
    (read : parse (ByteVec.strict ⟨message.data, small⟩) message.fds 0 =
      some (.ok (.message received len, left))) : Reads parse message received :=
  ⟨⟨_, small⟩, len, left, rfl, read⟩

/-- An act of one of the ends. -/
inductive Event where
  | client (act : Client.Act)
  | server (act : Server.Act)

/-- An act that does not take a message. -/
def Event.IsOwn : Event → Prop
  | .client (.receive _) => False
  | .server (.receive _) => False
  | _ => True

/-- The client has acted. -/
def System.withClient (s : System) (client : CClientSocket) : System :=
  { s with client, used := s.used + sequencesUsed s.client client }

/-- One step of the two ends. A server that has an error takes no more messages. -/
inductive Step (cfg : Config) (s : System) : Event → System → Prop
  | clientActs {act : Client.Act} {client : CClientSocket} (own : (Event.client act).IsOwn)
      (acts : s.client.act cfg.clientImpls act = some (.ok client)) :
      Step cfg s (.client act) (s.withClient client)
  | clientTakes {message : Message} {received : Received} {client : CClientSocket}
      (next : s.server.sent[s.toClient]? = some message)
      (reads : Reads (parseClient cfg.clientHeap) message received)
      (acts : s.client.act cfg.clientImpls (.receive received) = some (.ok client)) :
      Step cfg s (.client (.receive received))
        { s.withClient client with toClient := s.toClient + 1 }
  | serverActs {act : Server.Act} {server : CServerClient} (own : (Event.server act).IsOwn)
      (acts : s.server.act cfg.serverImpls act = some (.ok server)) :
      Step cfg s (.server act) { s with server }
  | serverTakes {sent : Sent} {received : Received} {server : CServerClient}
      (clean : s.server.error = false) (next : s.client.sent[s.toServer]? = some sent)
      (reads : Reads (parseServer cfg.serverHeap) sent.message received)
      (acts : s.server.act cfg.serverImpls (.receive received) = some (.ok server)) :
      Step cfg s (.server (.receive received)) { s with server, toServer := s.toServer + 1 }

/-- A run of steps, each allowed in the state it meets. -/
inductive Run (cfg : Config) (allowed : System → Event → Prop) (start : System) : System → Prop
  | refl : Run cfg allowed start start
  | step {s t : System} {event : Event} (run : Run cfg allowed start s)
      (step : Step cfg s event t) (may : allowed s event) : Run cfg allowed start t

theorem Run.mono {cfg : Config} {allowed weaker : System → Event → Prop} {start s : System}
    (run : Run cfg allowed start s) (imp : ∀ s event, allowed s event → weaker s event) :
    Run cfg weaker start s := by
  induction run with
  | refl => exact .refl
  | step _ step may ih => exact ih.step step (imp _ _ may)

/-- Every act is allowed. -/
def anyEvent (_ : System) (_ : Event) : Prop := True

/-- **What every step keeps holds after a run.** -/
theorem Run.invariant {cfg : Config} {allowed : System → Event → Prop} {start s : System}
    {I : System → Prop} (keeps : ∀ s t event, allowed s event → Step cfg s event t → I s → I t)
    (run : Run cfg allowed start s) (first : I start) : I s := by
  induction run with
  | refl => exact first
  | step _ step may ih => exact keeps _ _ _ may step ih

/-! ## What a message was sent as -/

/-- The first byte of a message, read from the front. -/
theorem checkedAt_zero {data : ByteVec} {bytes : List UInt8} (same : data.data = bytes)
    {byte : UInt8} (read : data.strict.checkedAt 0 = .ok byte) : bytes.head? = some byte := by
  rw [data.checkedAt_strict, List.drop_zero, same] at read
  cases bytes with
  | nil => cases read
  | cons first rest => cases read; rfl

/-- A message is taken as one of the type it was sent as. -/
theorem type_eq {message : Message} {received : Received} {data : ByteVec}
    (tagged : Tagged message) (bytes : data.data = message.data)
    (tag : data.strict.checkedAt 0 = .ok received.type.code) : message.type = received.type := by
  have head := tagged.head
  rw [checkedAt_zero bytes tag] at head
  exact (EMessageType.code_injective (Option.some.inj head)).symm

/-- The bytes of a message lie at the front of the vector. -/
theorem holds_zero {data : ByteVec} {bytes : List UInt8} (same : data.data = bytes) :
    data.strict.Holds 0 bytes := by
  have split : data.data = [] ++ bytes ++ [] := by rw [same]; simp
  exact ByteVec.holds_strict split

/-- **A taken `NEW_OBJECT` was sent as such.** -/
theorem taken_newObject {heap : Heap} {message : Message} {seq id : UInt32}
    (tagged : Tagged message) (reads : Reads (parseClient heap) message (.newObject seq id)) :
    message = .newObject seq id := by
  obtain ⟨data, len, left, bytes, read⟩ := reads
  obtain ⟨tag, decoded⟩ := parseClient_message read
  have type := type_eq tagged bytes tag
  cases message with
  | newObject seq' id' =>
      have back := CNewObjectMessage.decode_of_holds (holds_zero bytes)
        (by rw [data.size_strict, bytes]; exact Nat.le_refl 12) data.length_lt
      generalize hr : Received.newObject seq id = received at decoded
      cases decoded <;> cases hr
      rename_i decoded
      rw [decoded] at back
      cases back
      rfl
  | _ => cases type

theorem taken_roundtripRequest {heap : Heap} {message : Message} {seq : UInt32}
    (tagged : Tagged message) (reads : Reads (parseServer heap) message (.roundtripRequest seq)) :
    message = .roundtripRequest seq := by
  obtain ⟨data, len, left, bytes, read⟩ := reads
  obtain ⟨tag, decoded, -⟩ := parseServer_message read
  have type := type_eq tagged bytes tag
  cases message with
  | roundtripRequest seq' =>
      have back := @SeqMessage.decode_of_holds .roundtripRequest _ _ _ (holds_zero bytes)
        (by rw [data.size_strict, bytes]; exact Nat.le_refl 7) data.length_lt
      generalize hr : Received.roundtripRequest seq = received at decoded
      cases decoded <;> cases hr
      rename_i decoded
      rw [show SeqMessage.decode .roundtripRequest data.strict 0 = _ from decoded] at back
      cases back
      rfl
  | _ => cases type

theorem taken_roundtripDone {heap : Heap} {message : Message} {seq : UInt32}
    (tagged : Tagged message) (reads : Reads (parseClient heap) message (.roundtripDone seq)) :
    message = .roundtripDone seq := by
  obtain ⟨data, len, left, bytes, read⟩ := reads
  obtain ⟨tag, decoded⟩ := parseClient_message read
  have type := type_eq tagged bytes tag
  cases message with
  | roundtripDone seq' =>
      have back := @SeqMessage.decode_of_holds .roundtripDone _ _ _ (holds_zero bytes)
        (by rw [data.size_strict, bytes]; exact Nat.le_refl 7) data.length_lt
      generalize hr : Received.roundtripDone seq = received at decoded
      cases decoded <;> cases hr
      rename_i decoded
      rw [show SeqMessage.decode .roundtripDone data.strict 0 = _ from decoded] at back
      cases back
      rfl
  | _ => cases type

end Hyprwire.Link
