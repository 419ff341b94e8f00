import Hyprwire.Client.Dispatch
import Hyprwire.Object.Arguments
import Hyprwire.Server.Dispatch
import Hyprwire.Wire.Custody

/-!
# The owners of received descriptors

A received descriptor is passed on when its message is for an object that is there, and lands
with a listener of it (`LandsAt`). The library closes none. So what a read is handed is owned
exactly when every message of it that has descriptors lands, and none are left behind the
messages (`descriptors_owned_iff`). Where a message does not land, the descriptors stay open
and no one has them: `descriptor_lost` is a message for an object that is not there.
-/

set_option autoImplicit false

namespace Hyprwire.Link

open Cpp Wire Object CGenericProtocolMessage

/-! ## Messages -/

/-- The object that a message is for, the first with its identifier. -/
def recipient (objects : List IWireObject) (msg : CGenericProtocolMessage) :
    Option IWireObject := do
  let index ← objects.findIdx? fun o => o.id = msg.object
  objects[index]?

/-- The descriptors that a message passes on to a listener of one of the objects, whose methods
are those of one direction. -/
def passesTo (objects : List IWireObject) (methods : IProtocolObjectSpec → List SMethod) :
    Received → List Fd
  | .generic msg =>
      match recipient objects msg with
      | none => []
      | some object =>
          match object.spec with
          | none => []
          | some spec => passedFds object (methods spec) msg.method msg.dataSpan msg.fds
  | _ => []

/-- A message lands with one of the objects. -/
def LandsAt (objects : List IWireObject) (methods : IProtocolObjectSpec → List SMethod) :
    Received → Prop
  | .generic msg => ∃ object spec, recipient objects msg = some object ∧
      object.spec = some spec ∧ Lands object (methods spec) msg
  | _ => False

section Messages

variable {objects : List IWireObject} {methods : IProtocolObjectSpec → List SMethod}

theorem passesTo_first (received : Received) : passesTo objects methods received <+: received.fds := by
  cases received with
  | generic msg =>
      simp only [passesTo]
      split
      · exact List.nil_prefix
      · split
        · exact List.nil_prefix
        · exact passedFds_first _ _ _ _ _
  | _ => exact List.nil_prefix

/-- What lands is passed on. -/
theorem passesTo_of_lands {received : Received} (lands : LandsAt objects methods received) :
    passesTo objects methods received = received.fds := by
  cases received with
  | generic msg =>
      obtain ⟨object, spec, found, kind, lands⟩ := lands
      simp only [passesTo, found, kind]
      exact lands.passedFds_eq
  | _ => exact lands.elim

/-- What is passed on has landed, if its message is made of tokens. -/
theorem lands_of_passesTo {msg : CGenericProtocolMessage} {tokens : List Token}
    (madeOf : MadeOf msg tokens) (some_ : msg.fds ≠ [])
    (all : passesTo objects methods (.generic msg) = msg.fds) :
    LandsAt objects methods (.generic msg) := by
  simp only [passesTo] at all
  cases found : recipient objects msg with
  | none =>
      rw [found] at all
      exact absurd all.symm some_
  | some object =>
      rw [found] at all
      dsimp only at all
      cases kind : object.spec with
      | none =>
          rw [kind] at all
          exact absurd all.symm some_
      | some spec =>
          rw [kind] at all
          exact ⟨object, spec, found, kind, (passedFds_eq_iff madeOf some_).mp all⟩

end Messages

/-! ## Either side -/

section Sides

variable {σ : Type} (receiver : Receiver σ) (objects : σ → List IWireObject)
  (methods : IProtocolObjectSpec → List SMethod)

/-- A side reads what a decoder has decoded. -/
structure Parses : Prop where
  decoded : ∀ {data : View} {fds left : List Fd} {off len : Nat} {received : Received},
    receiver.parse data fds off = some (.ok (.message received len, left)) →
      ∃ heap, Decoded heap data fds off received len left

/-- What a side passes on of a message. -/
def passes (received : Received) (conn : σ) : List Fd := passesTo (objects conn) methods received

/-- A message lands with an object that the side has. -/
def lands (received : Received) (conn : σ) : Prop := LandsAt (objects conn) methods received

/-- None of the messages that are read has a length prefix that is negative as an `int`. -/
def ReadUnsigned (read : Option SSocketRawParsedMessage) (conn : σ) : Prop :=
  ∀ raw, read = some raw → ∀ t msg, Reaches (parseTurn receiver raw.data) (firstMessage raw conn) t →
    ActsOn receiver raw.data t (.generic msg) → Unsigned raw.data t.needle t.fds

variable {receiver objects methods}

theorem Parses.conserves (parses : Parses receiver) :
    Conserves receiver (passes objects methods) where
  takes read length := by
    obtain ⟨heap, decoded⟩ := parses.decoded read
    exact decoded.fds_eq length
  first received conn := passesTo_first received

/-- A message of a read is made of tokens, if its lengths are not negative. -/
theorem exists_madeOf (parses : Parses receiver) {data : View} {t : ParseState σ}
    {msg : CGenericProtocolMessage} (filled : Filled data) (small : data.size < 2 ^ 63)
    (acts : ActsOn receiver data t (.generic msg)) (unsigned : Unsigned data t.needle t.fds) :
    ∃ tokens, MadeOf msg tokens := by
  obtain ⟨t', next⟩ := acts.next
  obtain ⟨len', left', read'⟩ := acts.read
  obtain ⟨-, received, len, left, conn, read, -, length, -⟩ := parseTurn_next_iff.mp next
  cases read.symm.trans read'
  obtain ⟨heap, decoded⟩ := parses.decoded read
  cases decoded with
  | generic decoded =>
      obtain ⟨tokens, madeOf, -⟩ := accepted_madeOf filled small decoded length unsigned
      exact ⟨tokens, madeOf⟩

/-- **What becomes of the descriptors of a read**: some are passed on, each once and in order,
and none is closed. They are all owned if they land, and not otherwise when no length is
negative. -/
structure Disposed (custody : Custody Fd) (fds : List Fd) (unsigned lands : Prop) : Prop where
  passed : custody.passed.Sublist fds
  unclosed : custody.closed = []
  enough : lands → custody.Owns fds
  exactly : unsigned → (custody.Owns fds ↔ lands)

theorem closed_custody (receiver : Receiver σ) (passes : Received → σ → List Fd) (turns : Nat)
    (read : Option SSocketRawParsedMessage) (conn : σ) :
    (custody receiver passes turns read conn).closed = [] := by
  cases read with
  | none => rfl
  | some raw =>
      rw [custody]
      split
      · rfl
      · split
        · rfl
        · rfl

theorem Parses.disposed (parses : Parses receiver) {Q : Type}
    {recvmsg : Nat → Q → Option (List UInt8 × List Fd × Q)} {queue : Q} {turns : Nat}
    {read : Option SSocketRawParsedMessage} {fds : List Fd} {conn : σ}
    (reads : ReadFrom recvmsg queue read fds)
    (returns : ∀ raw, read = some raw → raw.data.size ≠ 0 →
      ∃ h, handleMessage receiver turns raw conn = some (.ok h)) :
    Disposed (custody receiver (passes objects methods) turns read conn) fds
      (ReadUnsigned receiver read conn)
      (ReadLands receiver (lands objects methods) fds conn read) := by
  have has : ∀ raw, read = some raw → raw.fds = fds := by
    rintro raw rfl
    cases reads
    rfl
  obtain ⟨once, iff⟩ := custody_owns_iff (@Parses.conserves σ receiver objects methods parses) has
    returns
  have enough : ReadLands receiver (lands objects methods) fds conn read →
      (custody receiver (passes objects methods) turns read conn).Owns fds := by
    intro land
    exact iff.mpr (land.mono fun raw _ t received _ _ _ lands => passesTo_of_lands lands)
  refine ⟨once, closed_custody _ _ _ _ _, enough, fun unsigned => ⟨fun owns => ?_, enough⟩⟩
  refine (iff.mp owns).mono fun raw is t received reaches acts some_ all => ?_
  cases received with
  | generic msg =>
      subst is
      have known := unsigned raw rfl t msg reaches acts
      cases reads with
      | @got collected run v bytes outside =>
          obtain ⟨tokens, madeOf⟩ :=
            exists_madeOf parses (filled_viewIn v outside) v.length_lt acts known
          exact lands_of_passesTo madeOf some_ all
  | _ => exact absurd rfl some_

end Sides

/-! ## Both sides -/

section Both

variable {α : Type}

/-- The server has the objects of its client, and hears the methods of clients. -/
def serverPasses : Received → Server.ServerState α → List Fd :=
  passes (fun s => s.client.objects) IProtocolObjectSpec.c2s

def serverLands : Received → Server.ServerState α → Prop :=
  lands (fun s => s.client.objects) IProtocolObjectSpec.c2s

/-- The client hears the methods of servers. -/
def clientPasses : Received → Client.ClientState α → List Fd :=
  passes (fun s => s.client.objects) IProtocolObjectSpec.s2c

def clientLands : Received → Client.ClientState α → Prop :=
  lands (fun s => s.client.objects) IProtocolObjectSpec.s2c

theorem parses_server (cfg : Server.Config α) : Parses (Server.receiver cfg) where
  decoded read := ⟨cfg.heap, (parseServer_message read).2.1⟩

theorem parses_client (cfg : Client.Config α) : Parses (Client.receiver cfg) where
  decoded read := ⟨cfg.heap, (parseClient_message read).2⟩

/-- A dispatch of the server that returns has handled what it read. -/
theorem handles_of_dispatchClient {cfg : Server.Config α} {turns : Nat}
    {read : Option SSocketRawParsedMessage} {s t : Server.ServerState α} {handled : List Received}
    (dispatched : Server.dispatchClient cfg turns read s = some (.ok (t, handled))) :
    ∀ raw, read = some raw → raw.data.size ≠ 0 →
      ∃ h, handleMessage (Server.receiver cfg) turns raw s = some (.ok h) := by
  rintro raw rfl some_
  obtain ⟨h, run, -⟩ := (Server.dispatchClient_eq_ok some_).mp dispatched
  exact ⟨h, run⟩

/-- A dispatch of the client that reads and returns has handled what it read. -/
theorem handles_of_dispatchEvents {cfg : Client.Config α} {turns : Nat}
    {read : Option SSocketRawParsedMessage} {s t : Client.ClientState α} {goesOn : Bool}
    {handled : List Received} (fine : s.client.error = false)
    (dispatched : Client.dispatchEvents cfg turns (.readable read) s =
      some (.ok (goesOn, t, handled))) :
    ∀ raw, read = some raw → raw.data.size ≠ 0 →
      ∃ h, handleMessage (Client.receiver cfg) turns raw s = some (.ok h) := by
  rintro raw rfl some_
  simp only [Client.dispatchEvents, fine, Bool.false_eq_true, if_false, if_neg some_] at dispatched
  obtain ⟨result, run, same⟩ := Option.map_eq_some_iff.mp dispatched
  obtain ⟨h, rfl, -⟩ := map_eq_ok.mp same
  exact ⟨h, run⟩

/-- **The owners of received descriptors.** Whatever a dispatch of either side has been handed
by a read, with whatever objects and listeners: what it passes on has been received, each once
and in order, and nothing is closed. Each descriptor has an owner when all messages that have
descriptors land and none are left, and, where no length is negative, in no other case. -/
theorem descriptors_owned_iff {α β Q : Type}
    (recvmsg : Nat → Q → Option (List UInt8 × List Fd × Q)) :
    (∀ (queue : Q) (read : Option SSocketRawParsedMessage) (fds : List Fd),
      ReadFrom recvmsg queue read fds →
      ∀ (cfg : Server.Config α) (turns : Nat) (s t : Server.ServerState α) (handled : List Received),
      Server.dispatchClient cfg turns read s = some (.ok (t, handled)) →
      Disposed (custody (Server.receiver cfg) serverPasses turns read s) fds
        (ReadUnsigned (Server.receiver cfg) read s)
        (ReadLands (Server.receiver cfg) serverLands fds s read)) ∧
    ∀ (queue : Q) (read : Option SSocketRawParsedMessage) (fds : List Fd),
      ReadFrom recvmsg queue read fds →
      ∀ (cfg : Client.Config β) (turns : Nat) (s t : Client.ClientState β) (goesOn : Bool)
        (handled : List Received), s.client.error = false →
      Client.dispatchEvents cfg turns (.readable read) s = some (.ok (goesOn, t, handled)) →
      Disposed (custody (Client.receiver cfg) clientPasses turns read s) fds
        (ReadUnsigned (Client.receiver cfg) read s)
        (ReadLands (Client.receiver cfg) clientLands fds s read) := by
  constructor
  · intro queue read fds reads cfg turns s t handled dispatched
    exact (parses_server cfg).disposed reads (handles_of_dispatchClient dispatched)
  · intro queue read fds reads cfg turns s t goesOn handled fine dispatched
    exact (parses_client cfg).disposed reads (handles_of_dispatchEvents fine dispatched)

/-- A call of method 0 of object 5 with a descriptor. -/
def descriptorCall : ByteVec :=
  ⟨[100, 0x22, 5, 0, 0, 0, 0x10, 0, 0, 0, 0, 0x40, 0], by decide⟩

/-- A server without protocols. -/
def bareServer : Server.Config Unit where
  impls := []
  heap := .ample
  app := ⟨fun _ _ => .done, fun _ _ _ => .done⟩
  frames := 1

/-- A kernel that has the call, with a descriptor. -/
def callQueued (_ : Nat) (_ : Unit) : Option (List UInt8 × List Fd × Unit) :=
  some (descriptorCall.data, [7], ())

theorem readFrom_callQueued :
    ReadFrom callQueued () (some ⟨descriptorCall.viewIn fun _ => none, [7]⟩) [7] := by
  have run : Exits (readTurn callQueued) { queue := () }
      (some ⟨descriptorCall.data, [7], ()⟩) := .leave rfl
  exact .got run rfl fun _ => none

/-- The call, as it is read. -/
def heard : CGenericProtocolMessage where
  object := 5
  method := 0
  len := 13
  dataSpan := (descriptorCall.viewIn fun _ => none).span 11 2
  fds := [7]

theorem madeOf_heard : MadeOf heard [.fd 7] := by
  have elements : (descriptorCall.viewIn fun _ => none).Holds 11 [0x40, 0] := by
    rw [ByteVec.viewIn_none]
    exact @ByteVec.holds_strict descriptorCall (descriptorCall.data.take 11) _ [] rfl
  exact ⟨View.holds_span.mpr elements, rfl, by decide, rfl⟩

/-- An object 5, whose method 0 takes a descriptor and is listened to. -/
def hearer : IWireObject where
  listeners := [some 3]
  id := 5
  version := 1
  spec := some { objectName := [111], c2s := [{ params := [0x40] }], s2c := [{ params := [0x40] }] }

theorem called_heard : hearer.called [{ params := [0x40] }] 0 heard.dataSpan heard.fds =
    some (.ok (.invoke 3 [.sint32] [.word 7])) :=
  @called_of_front hearer _ heard { params := [0x40] } 3 [.fd 7] [] rfl rfl (by decide)
    madeOf_heard rfl

theorem hearer_lands : Lands hearer [{ params := [0x40] }] heard :=
  @Lands.intro _ _ _ { params := [0x40] } 3 [.fd 7] [] rfl rfl (by decide) madeOf_heard rfl rfl

section Heard

variable {σ : Type} {receiver : Receiver σ} {conn : σ}

/-- The call is the only message of its read. -/
theorem parseTurn_heard : parseTurn receiver (descriptorCall.viewIn fun _ => none)
    ⟨13, [], conn, [.generic heard]⟩ =
      some (.leave (.ok ⟨.parsedOk, conn, [.generic heard]⟩)) := rfl

variable (next : Next (parseTurn receiver (descriptorCall.viewIn fun _ => none))
  (firstMessage ⟨descriptorCall.viewIn fun _ => none, [7]⟩ conn)
  ⟨13, [], conn, [.generic heard]⟩)
include next

theorem handleMessage_heard :
    handleMessage receiver 2 ⟨descriptorCall.viewIn fun _ => none, [7]⟩ conn =
      some (.ok ⟨.parsedOk, conn, [.generic heard]⟩) := by
  rw [handleMessage, loop_again next]
  exact loop_leave parseTurn_heard 0

theorem readLands_heard {lands : Received → σ → Prop}
    (read : receiver.parse (descriptorCall.viewIn fun _ => none) [7] 0 =
      some (.ok (.message (.generic heard) 13, [])))
    (land : lands (.generic heard) conn) :
    ReadLands receiver lands [7] conn (some ⟨descriptorCall.viewIn fun _ => none, [7]⟩) := by
  have acts : ActsOn receiver (descriptorCall.viewIn fun _ => none)
      (firstMessage ⟨descriptorCall.viewIn fun _ => none, [7]⟩ conn) (.generic heard) :=
    ⟨⟨_, next⟩, _, _, read⟩
  rw [ReadLands, if_neg (by decide), allLand_of_next next acts]
  exact ⟨fun _ => land, (allLand_of_leave parseTurn_heard ⟨_, rfl⟩).mpr rfl⟩

end Heard

/-- Both sides with the object. -/
def serverHearing : Server.ServerState Unit := ⟨{ objects := [hearer] }, ()⟩

def clientHearing : Client.ClientState Unit := ⟨{ objects := [hearer] }, ()⟩

/-- A client without protocols. -/
def bareClient : Client.Config Unit where
  impls := []
  heap := .ample
  listener _ := .done
  frames := 1

theorem server_next : Next
    (parseTurn (Server.receiver bareServer) (descriptorCall.viewIn fun _ => none))
    (firstMessage ⟨descriptorCall.viewIn fun _ => none, [7]⟩ serverHearing)
    ⟨13, [], serverHearing, [.generic heard]⟩ := by
  have asked : serverHearing.client.onGeneric heard =
      some (.ok (serverHearing.client, some (.listener 3 0 [.word 7]))) := by
    change (hearer.called [{ params := [0x40] }] 0 heard.dataSpan heard.fds).map _ = _
    rw [called_heard]
    rfl
  have handled : Server.handle bareServer (.generic heard) serverHearing =
      some (.ok serverHearing) := by
    change (serverHearing.client.onGeneric heard).map _ = _
    rw [asked]
    rfl
  exact parseTurn_next_iff.mpr
    ⟨⟨by decide, rfl⟩, .generic heard, 13, [], serverHearing, by rfl, handled, by decide, rfl⟩

theorem client_next : Next
    (parseTurn (Client.receiver bareClient) (descriptorCall.viewIn fun _ => none))
    (firstMessage ⟨descriptorCall.viewIn fun _ => none, [7]⟩ clientHearing)
    ⟨13, [], clientHearing, [.generic heard]⟩ := by
  have asked : clientHearing.client.onGeneric heard =
      some (.ok (clientHearing.client, some ⟨3, 0, [.word 7]⟩)) := by
    change (hearer.called [{ params := [0x40] }] 0 heard.dataSpan heard.fds).map _ = _
    rw [called_heard]
    rfl
  have handled : Client.handle bareClient (.generic heard) clientHearing =
      some (.ok clientHearing) := by
    change (clientHearing.client.onGeneric heard).map _ = _
    rw [asked]
    rfl
  exact parseTurn_next_iff.mpr
    ⟨⟨by decide, rfl⟩, .generic heard, 13, [], clientHearing, by rfl, handled, by decide, rfl⟩

/-- A descriptor that comes with a call that is heard is passed on, on either side. -/
theorem descriptors_owned_heard :
    (custody (Server.receiver bareServer) serverPasses 2
      (some ⟨descriptorCall.viewIn fun _ => none, [7]⟩) serverHearing).Owns [7] ∧
    (custody (Client.receiver bareClient) clientPasses 2
      (some ⟨descriptorCall.viewIn fun _ => none, [7]⟩) clientHearing).Owns [7] := by
  obtain ⟨server, client⟩ := @descriptors_owned_iff Unit Unit Unit callQueued
  constructor
  · have dispatched : Server.dispatchClient bareServer 2
        (some ⟨descriptorCall.viewIn fun _ => none, [7]⟩) serverHearing =
          some (.ok (serverHearing, [.generic heard])) :=
      (Server.dispatchClient_eq_ok (by decide)).mpr ⟨_, handleMessage_heard server_next, rfl, rfl⟩
    refine (server () _ _ readFrom_callQueued bareServer 2 _ _ _ dispatched).enough ?_
    exact readLands_heard server_next (by rfl) ⟨hearer, _, rfl, rfl, hearer_lands⟩
  · have dispatched : Client.dispatchEvents bareClient 2
        (.readable (some ⟨descriptorCall.viewIn fun _ => none, [7]⟩)) clientHearing =
          some (.ok (true, clientHearing, [.generic heard])) := by
      change (handleMessage (Client.receiver bareClient) 2 _ clientHearing).map _ = _
      rw [handleMessage_heard client_next]
      rfl
    refine (client () _ _ readFrom_callQueued bareClient 2 _ _ _ _ rfl dispatched).enough ?_
    exact readLands_heard client_next (by rfl) ⟨hearer, _, rfl, rfl, hearer_lands⟩

/-- **A descriptor is lost**: it comes with a message for an object that is not there. -/
theorem descriptor_lost :
    ¬ ∀ (read : Option SSocketRawParsedMessage) (fds : List Fd), ReadFrom callQueued () read fds →
      ∀ (cfg : Server.Config Unit) (turns : Nat) (s t : Server.ServerState Unit)
        (handled : List Received),
      Server.dispatchClient cfg turns read s = some (.ok (t, handled)) →
      (custody (Server.receiver cfg) serverPasses turns read s).Owns fds := by
  intro owned
  obtain ⟨⟨t, handled⟩, dispatched⟩ : ∃ result, Server.dispatchClient bareServer 2
      (some ⟨descriptorCall.viewIn fun _ => none, [7]⟩) ⟨{}, ()⟩ = some (.ok result) := ⟨_, rfl⟩
  have owns := owned _ _ readFrom_callQueued bareServer 2 ⟨{}, ()⟩ t handled dispatched
  have passed : (custody (Server.receiver bareServer) serverPasses 2
      (some ⟨descriptorCall.viewIn fun _ => none, [7]⟩) ⟨{}, ()⟩).passed = [] := by rfl
  rw [Custody.owns_iff (closed_custody _ _ _ _ _), passed] at owns
  cases owns

end Both

end Hyprwire.Link
