import Hyprwire.Object.Segments
import Hyprwire.Server.Dispatch

/-!
# The server and several reads

`dispatchClient` is lawful as an endpoint. After each read it answers a roundtrip, so that
states are told apart by what has been sent and what is scheduled; nothing that acts on a
message looks at these (`handle_same`).
-/

set_option autoImplicit false

namespace Hyprwire.Server

open Cpp Wire Object

variable {α : Type}

/-! ## Calls by their own bytes -/

theorem CServerClient.onGeneric_alone {client : CServerClient} {msg : CGenericProtocolMessage}
    (made : OfElements (.generic msg)) :
    client.onGeneric msg = client.onGeneric { msg with dataSpan := msg.dataSpan.guarded } := by
  obtain ⟨tokens, madeOf⟩ := made
  have same := fun (object : IWireObject) methods =>
    called_guarded (called_reads madeOf object methods msg.method)
  simp only [onGeneric, same]

theorem handle_alone {cfg : Config α} {received : Received} (made : OfElements received)
    (s : ServerState α) : handle cfg received s = handle cfg (alone received) s := by
  cases received with
  | generic msg =>
      rw [alone, handle, handle, CServerClient.receive, CServerClient.receive,
        CServerClient.onGeneric_alone made]
  | _ => rfl

/-! ## What the server does not look at -/

/-- The client without what has been sent and what is scheduled: no function of the library
looks at these while a message is acted on. -/
def CServerClient.core (client : CServerClient) : CServerClient :=
  { client with sent := [], scheduledRoundtripSeq := 0 }

/-- Two states that are told apart by what has been sent and what is scheduled only. -/
def SameCore (s t : ServerState α) : Prop :=
  s.client.core = t.client.core ∧ s.memory = t.memory

namespace CServerClient

variable {c d : CServerClient}

theorem of_core (same : c.core = d.core) :
    ∃ sent seq, d = { c with sent, scheduledRoundtripSeq := seq } := by
  obtain ⟨poll, version, maxId, error, seq, objects, sent⟩ := d
  refine ⟨sent, seq, ?_⟩
  simp only [core, mk.injEq] at same
  obtain ⟨rfl, rfl, rfl, rfl, -, rfl, -⟩ := same
  rfl

theorem createObject_core (impls : Impls) (protocol object : Str) (version seq : UInt32)
    (same : c.core = d.core) :
    (createObject impls protocol object version seq c).1 =
        (createObject impls protocol object version seq d).1 ∧
      (createObject impls protocol object version seq c).2.core =
        (createObject impls protocol object version seq d).2.core := by
  obtain ⟨sent, scheduled, rfl⟩ := of_core same
  simp only [createObject]
  split
  · exact ⟨rfl, rfl⟩
  · split
    · exact ⟨rfl, rfl⟩
    · split
      · exact ⟨rfl, rfl⟩
      · exact ⟨rfl, rfl⟩

theorem objects_core (same : c.core = d.core) : c.objects = d.objects := by
  show c.core.objects = d.core.objects
  rw [same]

theorem bound_core (impls : Impls) (made : Option Nat) (same : c.core = d.core) :
    c.bound impls made = d.bound impls made := by
  simp only [bound, objects_core same]

theorem objectAt_core (index : Nat) (same : c.core = d.core) :
    c.objectAt index = d.objectAt index := by
  simp only [objectAt, objects_core same]

/-- The answers are equal, and the clients not told apart. -/
def SameResult {β : Type} (p q : β × CServerClient) : Prop := p.1 = q.1 ∧ p.2.core = q.2.core

theorem call_core (index : Nat) (id : UInt32) (args : List Arg) (same : c.core = d.core) :
    Alike SameResult (c.call index id args) (d.call index id args) := by
  rw [call, call, objectAt_core index same]
  refine .after _ fun object => ?_
  refine .after _ fun spec => ?_
  refine .after _ fun result => ?_
  obtain ⟨sent, scheduled, rfl⟩ := of_core same
  obtain ⟨outcome, seq⟩ := result
  cases outcome with
  | error message => exact ⟨rfl, rfl⟩
  | errd => exact ⟨rfl, rfl⟩
  | send msg returned => exact ⟨rfl, rfl⟩
  | defer msg returned => exact ⟨rfl, rfl⟩

/-- The clients are not told apart. -/
def SameClient (p q : CServerClient) : Prop := p.core = q.core

theorem raiseAt_core (index : Nat) (id : UInt32) (message : Str) (same : c.core = d.core) :
    Alike SameClient (c.raiseAt index id message) (d.raiseAt index id message) := by
  rw [raiseAt, raiseAt, objectAt_core index same]
  refine .after _ fun object => ?_
  obtain ⟨sent, scheduled, rfl⟩ := of_core same
  exact rfl

theorem listen_core (index : Nat) (id : UInt32) (fn : Option Callback) (same : c.core = d.core) :
    Alike SameClient (c.listen index id fn) (d.listen index id fn) := by
  rw [listen, listen, objectAt_core index same]
  refine .after _ fun object => ?_
  obtain ⟨sent, scheduled, rfl⟩ := of_core same
  exact rfl

theorem outcome_core (index : Nat) (object : IWireObject) (outcome : Outcome)
    (same : c.core = d.core) :
    (c.outcome index object outcome).2 = (d.outcome index object outcome).2 ∧
      (c.outcome index object outcome).1.core = (d.outcome index object outcome).1.core := by
  obtain ⟨sent, scheduled, rfl⟩ := of_core same
  cases outcome <;> exact ⟨rfl, rfl⟩

end CServerClient

/-! ## The same from the same -/

section Alike

variable {cfg : Config α} {s t : ServerState α}

theorem invoke_alike {callback : ServerCode α → ServerState α → Except Fault (ServerState α)}
    (alike : ∀ code s t, SameCore s t → Alike SameCore (callback code s) (callback code t))
    (same : SameCore s t) (invocation : Option Invocation) :
    Alike SameCore (invoke cfg callback s invocation) (invoke cfg callback t invocation) := by
  cases invocation with
  | none => exact same
  | some invocation => exact alike _ _ _ same

theorem perform_alike {callback : ServerCode α → ServerState α → Except Fault (ServerState α)}
    (alike : ∀ code s t, SameCore s t → Alike SameCore (callback code s) (callback code t))
    (request : Request α) (same : SameCore s t) :
    Alike (SameAnswer SameCore) (perform cfg callback request s)
      (perform cfg callback request t) := by
  obtain ⟨core, memory⟩ := same
  cases request with
  | createObject reference object seq =>
      cases reference with
      | none => exact ⟨rfl, core, memory⟩
      | some ref =>
          obtain ⟨made, created⟩ := CServerClient.createObject_core cfg.impls ref.protocolName object
            ref.version seq core
          have after : SameCore
              { s with client := (CServerClient.createObject cfg.impls ref.protocolName object
                ref.version seq s.client).2 }
              { t with client := (CServerClient.createObject cfg.impls ref.protocolName object
                ref.version seq t.client).2 } := ⟨created, memory⟩
          simp only [perform, createObject, made, CServerClient.bound_core cfg.impls _ created]
          refine (invoke_alike alike after _).bind fun s' t' same => ?_
          exact ⟨rfl, same⟩
  | call object id args =>
      refine (CServerClient.call_core object id args core).bind fun p q same => ?_
      exact ⟨same.1, same.2, memory⟩
  | error object id message =>
      refine (CServerClient.raiseAt_core object id message core).bind fun p q same => ?_
      exact ⟨rfl, same, memory⟩
  | listen object id fn =>
      refine (CServerClient.listen_core object id fn core).bind fun p q same => ?_
      exact ⟨rfl, same, memory⟩
  | load => exact ⟨memory, core, memory⟩
  | store memory' => exact ⟨rfl, core, rfl⟩

/-- **The application does the same**, whatever has been sent and is scheduled. -/
theorem runCode_alike (code : ServerCode α) (same : SameCore s t) :
    Alike SameCore (runCode cfg code s) (runCode cfg code t) :=
  exec_alike (fun _ alike request _ _ same => perform_alike alike request same) cfg.frames code same

/-- What the library makes of a message is the same as well. -/
theorem CServerClient.receive_core {c d : CServerClient} {received : Received}
    (core : c.core = d.core) {impls : Impls} {next : CServerClient}
    {invocation : Option Invocation}
    (run : c.receive impls received = some (.ok (next, invocation))) :
    ∃ next', d.receive impls received = some (.ok (next', invocation)) ∧
      next.core = next'.core := by
  cases received with
  | generic msg =>
      simp only [receive, onGeneric, objectAt_core _ core, objects_core core] at run ⊢
      split at run
      · cases run
        exact ⟨d, rfl, core⟩
      · next index found =>
        split at run
        · cases run
        · next object listed =>
          split at run
          · cases run
          · next spec known =>
            obtain ⟨result, called, rest⟩ := Option.map_eq_some_iff.mp run
            cases result with
            | error fault => cases rest
            | ok outcome =>
                obtain ⟨same, after⟩ := outcome_core index object outcome core
                have pair : c.outcome index object outcome = (next, invocation) :=
                  Except.ok.inj rest
                rw [pair] at same after
                simp only [called, Option.map_some]
                exact ⟨_, congrArg some (congrArg Except.ok (Prod.ext rfl same.symm)), after⟩
  | bindProtocol protocol seq version =>
      obtain ⟨made, created⟩ := createObject_core impls protocol [] version seq core
      have both : bound impls (createObject impls protocol [] version seq d).2
          (createObject impls protocol [] version seq d).1 =
            bound impls (createObject impls protocol [] version seq c).2
              (createObject impls protocol [] version seq c).1 := by
        rw [← made, bound_core impls _ created]
      cases run
      exact ⟨_, congrArg some (congrArg Except.ok (Prod.ext rfl both)), created⟩
  | _ =>
      obtain ⟨sent, scheduled, rfl⟩ := of_core core
      cases run
      exact ⟨_, rfl, rfl⟩

theorem handle_same {received : Received} {s' : ServerState α} (same : SameCore s s')
    (run : handle cfg received s = some (.ok t)) :
    ∃ t', handle cfg received s' = some (.ok t') ∧ SameCore t t' := by
  obtain ⟨result, library, rest⟩ := Option.map_eq_some_iff.mp run
  cases result with
  | error fault => cases rest
  | ok result =>
      obtain ⟨client, invocation⟩ := result
      obtain ⟨client', library', core⟩ := CServerClient.receive_core same.1 library
      have after : SameCore { s with client } { s' with client := client' } := ⟨core, same.2⟩
      have both := @invoke_alike _ cfg _ _ (runCode cfg) (fun code _ _ => runCode_alike code) after
        invocation
      obtain ⟨t', rest', final⟩ := both.ok rest
      exact ⟨t', by simp only [handle, library', Option.map_some]; exact congrArg some rest', final⟩

end Alike

/-! ## The server as an endpoint -/

/-- What `dispatchClient` does with a read. -/
def endpoint (cfg : Config α) : Endpoint (ServerState α) where
  receiver := receiver cfg
  after := afterBatch
  closed _ := false
  error s := s.client.error

/-- A read without descriptors is dispatched to a client. -/
def Dispatches (cfg : Config α) (chunk : ByteVec) (s t : ServerState α) (handled : List Received) :
    Prop :=
  ∃ turns, dispatchClient cfg turns (some ⟨chunk.strict, []⟩) s = some (.ok (t, handled))

theorem dispatches_iff {cfg : Config α} {chunk : ByteVec} {s t : ServerState α}
    {handled : List Received} :
    Dispatches cfg chunk s t handled ↔ (endpoint cfg).Dispatch chunk s t handled := by
  refine Endpoint.dispatch_iff ?_ ?_
  · intro idle turns
    rcases idle with closed | empty
    · cases closed
    · have none : chunk.strict.size = 0 := congrArg List.length empty
      rw [dispatchClient, if_pos none]
  · intro _ nonempty turns
    have some_ : chunk.strict.size ≠ 0 := fun none => nonempty (List.length_eq_zero_iff.mp none)
    rw [dispatchClient, if_neg some_]
    rfl

/-- **The server is lawful**, as long as storage is to be had. -/
theorem lawful (cfg : Config α) (ample : cfg.heap = .ample) :
    (endpoint cfg).Lawful .server SameCore where
  parse := by
    show parseServer cfg.heap = parseServer .ample
    rw [ample]
  refl := fun s => ⟨rfl, rfl⟩
  trans := fun first second => ⟨first.1.trans second.1, first.2.trans second.2⟩
  alone := fun received s made => handle_alone made s
  same := handle_same
  error_same := by
    intro s t same
    show s.client.core.error = t.client.core.error
    rw [same.1]
  stops := fun s stops => stops
  closed := fun s closed => absurd closed Bool.false_ne_true
  handles := fun acted error => (handle_effect acted).1 error
  sets := fun s error => rfl
  parsed := by
    intro s
    rw [endpoint]
    simp only [afterBatch]
    split
    · next other => exact absurd rfl other
    · split
      · exact ⟨rfl, rfl⟩
      · exact ⟨rfl, rfl⟩
  failed := by
    intro result s other
    simp only [endpoint, afterBatch, if_pos other]
    rfl
  after := by
    intro result s error
    simp only [endpoint, afterBatch]
    split
    · rfl
    · split
      · exact error
      · exact error

/-- After a read without an error nothing is scheduled. -/
theorem dispatch_settles {cfg : Config α} {chunk : ByteVec} {s t : ServerState α}
    {handled : List Received} (dispatch : (endpoint cfg).Dispatch chunk s t handled)
    (some_ : chunk.data ≠ []) (fine : t.client.error = false) :
    t.client.scheduledRoundtripSeq = 0 := by
  cases dispatch with
  | skipped idle =>
      rcases idle with closed | empty
      · cases closed
      · exact absurd empty some_
  | @read turns h _ _ _ =>
      simp only [endpoint, afterBatch] at fine ⊢
      split at fine
      · cases fine
      · next parsed =>
        rw [if_neg parsed]
        split
        · rfl
        · next none => exact UInt32.le_antisymm (UInt32.not_lt.mp none) (UInt32.zero_le)

theorem feed_settles {cfg : Config α} {chunks : List ByteVec}
    {s t : ServerState α} {handled : List Received}
    (feed : Feed (endpoint cfg).Dispatch chunks s t handled)
    (nonempty : ∀ chunk ∈ chunks, chunk.data ≠ []) (fine : t.client.error = false) :
    chunks = [] ∨ t.client.scheduledRoundtripSeq = 0 := by
  induction feed with
  | done => exact .inl rfl
  | @read chunk chunks s t u handled more first rest ih =>
      right
      rcases ih (fun chunk member => nonempty chunk (List.mem_cons_of_mem _ member)) fine with
        rfl | settled
      · cases rest
        exact dispatch_settles first (nonempty chunk List.mem_cons_self) fine
      · exact settled

/-- Two states with the same connection, whatever has been written to the client. -/
def SameConnection (s t : ServerState α) : Prop :=
  { s.client with sent := t.client.sent } = t.client ∧ s.memory = t.memory

theorem SameCore.connection {s t : ServerState α} (same : SameCore s t)
    (scheduled : s.client.scheduledRoundtripSeq = t.client.scheduledRoundtripSeq) :
    SameConnection s t := by
  obtain ⟨core, memory⟩ := same
  obtain ⟨sent, seq, is⟩ := CServerClient.of_core core
  refine ⟨?_, memory⟩
  rw [is] at scheduled ⊢
  obtain rfl : s.client.scheduledRoundtripSeq = seq := scheduled
  rfl

end Hyprwire.Server
