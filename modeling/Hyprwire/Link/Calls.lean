import Hyprwire.Link.Roundtrips
import Hyprwire.Server.Utterances

/-!
# Calls and the objects they reach

A call of the client goes by the identifier of its object, which the server has given out for
the sequence of the object (`Directed`). So what the server takes for a call names the object
that it made for that sequence (`calls_reach_objects`). A call that waited has the lowest byte of
the identifier only, so that from 256 objects on it can reach another one.
-/

set_option autoImplicit false

namespace Hyprwire.Link

open Cpp Wire Object Client Server

/-! ## What a call is sent as -/

/-- The message of a call begins with the object and the method. -/
def Begins (msg : CGenericProtocolMessage) (name : UInt32) : Prop :=
  ∃ method rest, msg.data = callHeader name method ++ rest

/-- The message of a call, if it comes to one. -/
def OutcomeBegins (object : IWireObject) : CallOutcome → Prop
  | .send msg _ => object.id ≠ 0 ∧ Begins msg object.id
  | .defer msg _ => msg.dependsOnSeq = object.seq ∧ Begins msg 0
  | _ => True

theorem call_begins {object : IWireObject} {methods : List SMethod} {seq seq' id : UInt32}
    {args : List Arg} {outcome : CallOutcome}
    (made : object.call false methods seq id args = .ok (outcome, seq')) :
    OutcomeBegins object outcome := by
  cases outcome with
  | error message => trivial
  | errd => trivial
  | defer msg kind =>
      obtain ⟨-, method, arguments, fds, -, -, -, -, rfl⟩ := call_eq_defer made
      exact ⟨rfl, id, _, rfl⟩
  | send msg kind =>
      exact ⟨call_eq_send made, call_header made⟩

/-- **A call that waited begins with the lowest byte of the identifier.** -/
theorem Begins.resolveSeq {msg : CGenericProtocolMessage} (begins : Begins msg 0) (id : UInt32) :
    Begins (msg.resolveSeq id) (lowByte id) := by
  obtain ⟨method, rest, data⟩ := begins
  refine ⟨method, rest, ?_⟩
  have long : 2 < (callHeader 0 method ++ rest).length := by
    rw [List.length_append, length_callHeader]
    omega
  simp only [CGenericProtocolMessage.resolveSeq, data, if_pos long]
  simp only [callHeader, u32Bytes_lowByte]
  rfl

/-- A message that begins with an object is decoded as one to that object. -/
theorem object_of_decoded {vector : ByteVec} {fds left : List Fd} {name : UInt32}
    {msg : CGenericProtocolMessage}
    (begins : ∃ method rest, vector.data = callHeader name method ++ rest)
    (decoded : CGenericProtocolMessage.decode vector.strict fds 0 = some (.ok (msg, left)))
    (some_ : msg.len ≠ 0) : msg.object = name := by
  obtain ⟨method, rest, bytes⟩ := begins
  have holds := (View.holds_append.mp (holds_zero bytes)).1
  have inside : 0 + 11 ≤ vector.strict.size := by
    rw [vector.size_strict, bytes, List.length_append, length_callHeader]
    omega
  have header := decodeHeader_of_holds holds inside vector.length_lt
  simp only [CGenericProtocolMessage.decode, header] at decoded
  obtain ⟨exit, -, whole⟩ := Option.map_eq_some_iff.mp decoded
  obtain ⟨ends, -, same⟩ := map_eq_ok.mp whole
  cases ends with
  | done s => cases same; rfl
  | reject queue =>
      cases same
      exact absurd rfl some_

/-- A message that the server reads as a call names its object. -/
theorem taken_generic {heap : Heap} {data : List UInt8} {fds : List Fd} {name : UInt32}
    {msg : CGenericProtocolMessage} (begins : ∃ method rest, data = callHeader name method ++ rest)
    (reads : Reads (parseServer heap) (.generic data fds) (.generic msg)) : msg.object = name := by
  obtain ⟨method, rest, rfl⟩ := begins
  obtain ⟨vector, len, left, bytes, read⟩ := reads
  obtain ⟨-, decoded, some_⟩ := parseServer_message read
  generalize same : Received.generic msg = received at decoded
  cases decoded <;> cases same
  rename_i decoded
  exact object_of_decoded ⟨method, rest, bytes⟩ decoded some_

/-! ## Calls on the wire -/

/-- A message on the wire that is a call names an identifier that was given out for the sequence
of its object, or the lowest byte of it. -/
def Directs (client : CClientSocket) (given : List (UInt32 × UInt32)) (sent : Sent) : Prop :=
  ∀ origin, sent.origin = some origin → ∃ object id name method rest fds,
    client.objects[origin.object]? = some object ∧ (object.seq, id) ∈ given ∧
      (name = id ∨ name = lowByte id) ∧
      sent.message = .generic (callHeader name method ++ rest) fds

/-- A call that waits is on an object with its sequence, and names none. -/
def Waits (client : CClientSocket) (pending : Pending) : Prop :=
  ∃ object, client.objects[pending.origin.object]? = some object ∧
    pending.msg.dependsOnSeq = object.seq ∧ Begins pending.msg 0

section Client

variable {client next : CClientSocket} {given : List (UInt32 × UInt32)}

/-- The objects keep their sequences. -/
def KeepsSeqs (client next : CClientSocket) : Prop :=
  ∀ (index : Nat) (object : IWireObject), client.objects[index]? = some object →
    ∃ object', next.objects[index]? = some object' ∧ object'.seq = object.seq

theorem Directs.mono {sent : Sent} (directs : Directs client given sent)
    (keeps : KeepsSeqs client next) {more : List (UInt32 × UInt32)} (grows : given ⊆ more) :
    Directs next more sent := by
  intro origin is
  obtain ⟨object, id, name, method, rest, fds, has, listed, names, message⟩ := directs origin is
  obtain ⟨object', has', seq⟩ := keeps _ object has
  exact ⟨object', id, name, method, rest, fds, has', seq ▸ grows listed, names, message⟩

theorem Waits.mono {pending : Pending} (waits : Waits client pending)
    (keeps : KeepsSeqs client next) : Waits next pending := by
  obtain ⟨object, has, depends, begins⟩ := waits
  obtain ⟨object', has', seq⟩ := keeps _ object has
  exact ⟨object', has', depends.trans seq.symm, begins⟩

/-- What is sent, and what waits. -/
structure DirectedClient (client : CClientSocket) (given : List (UInt32 × UInt32)) : Prop where
  sent : ∀ sent ∈ client.sent, Directs client given sent
  waits : ∀ pending ∈ client.pendingOutgoing, Waits client pending

namespace DirectedClient

/-- Nothing has been sent but what no call has made. -/
theorem sameCalls (directed : DirectedClient client given) (same : SameCalls client next)
    (grows : client.sent <+: next.sent) : DirectedClient next given := by
  obtain ⟨new, sent⟩ := grows
  have none : new.filterMap Sent.origin = [] := by
    have wire := same.wire
    rw [CClientSocket.wireOrigins, ← sent, List.filterMap_append] at wire
    exact List.append_right_eq_self.mp wire
  refine ⟨?_, ?_⟩
  · rw [← sent]
    refine List.forall_mem_append.mpr
      ⟨fun sent listed => (directed.sent sent listed).mono same.seqs fun _ => id, ?_⟩
    intro sent listed origin is
    rw [List.filterMap_eq_nil_iff.mp none sent listed] at is
    cases is
  · rw [same.waiting]
    exact fun pending listed => (directed.waits pending listed).mono same.seqs

/-- The object that a call returns is listed behind the others. -/
theorem returned (directed : DirectedClient client given) (impls : Client.Impls)
    (object : IWireObject) (kind : Option (UInt32 × Str)) :
    DirectedClient (CClientSocket.returned impls object client kind).2 given := by
  refine directed.sameCalls (.returned impls object client kind) ?_
  cases kind with
  | none => exact List.prefix_rfl
  | some kind =>
      rw [CClientSocket.returned, CClientSocket.makeObject]
      split <;> exact List.prefix_rfl

/-- A call that is made at once. -/
theorem direct (directed : DirectedClient client given) {index : Nat} {object : IWireObject}
    {msg : CGenericProtocolMessage} (has : client.objects[index]? = some object)
    (listed : (object.seq, object.id) ∈ given) (begins : Begins msg object.id) :
    DirectedClient (client.direct index msg) given := by
  have objects : (client.direct index msg).objects = client.objects :=
    CClientSocket.objects_write client _
  have keeps : KeepsSeqs client (client.direct index msg) :=
    fun _ object has => ⟨object, objects ▸ has, rfl⟩
  have last : Directs (client.direct index msg) given
      ⟨.generic msg.data msg.fds, some ⟨index, client.made⟩⟩ := by
    obtain ⟨method, rest, data⟩ := begins
    intro origin is
    cases is
    exact ⟨object, object.id, object.id, method, rest, msg.fds, objects ▸ has, listed, .inl rfl,
      by rw [data]⟩
  refine ⟨?_, ?_⟩
  · show ∀ sent ∈ (client.write [⟨.generic msg.data msg.fds, some ⟨index, client.made⟩⟩]).sent, _
    rw [CClientSocket.write]
    split
    · exact List.forall_mem_append.mpr
        ⟨fun sent listed => (directed.sent sent listed).mono keeps fun _ => id,
          List.forall_mem_singleton.mpr last⟩
    · exact fun sent listed => (directed.sent sent listed).mono keeps fun _ => id
  · rw [direct_pendingOutgoing]
    exact fun pending listed => (directed.waits pending listed).mono keeps

/-- A call that waits. -/
theorem defer (directed : DirectedClient client given) {index : Nat} {object : IWireObject}
    {msg : CGenericProtocolMessage} (has : client.objects[index]? = some object)
    (depends : msg.dependsOnSeq = object.seq) (begins : Begins msg 0) :
    DirectedClient (client.defer index msg) given :=
  ⟨directed.sent, List.forall_mem_append.mpr
    ⟨directed.waits, List.forall_mem_singleton.mpr ⟨object, has, depends, begins⟩⟩⟩

/-- The calls that have waited. -/
theorem flushPending (directed : DirectedClient client given)
    (announced : ∀ object ∈ client.objects, object.id ≠ 0 → (object.seq, object.id) ∈ given) :
    DirectedClient client.flushPending given := by
  have keeps : KeepsSeqs client client.flushPending :=
    fun _ object has => ⟨object, (objects_flushPending client).symm ▸ has, rfl⟩
  have written : ∀ sent ∈ client.pendingOutgoing.filterMap client.resolved,
      Directs client.flushPending given sent := by
    intro sent listed
    obtain ⟨pending, waits, resolved⟩ := List.mem_filterMap.mp listed
    obtain ⟨object, has, depends, begins⟩ := directed.waits pending waits
    simp only [CClientSocket.resolved, CClientSocket.waiting] at resolved
    cases found : client.objectForSeq pending.msg.dependsOnSeq with
    | none => simp [found] at resolved
    | some first =>
        by_cases unknown : first.id = 0
        · simp [found, unknown] at resolved
        · simp only [found, unknown, if_false, Option.some.injEq] at resolved
          subst resolved
          rw [CClientSocket.objectForSeq] at found
          have is : first.seq = pending.msg.dependsOnSeq := by simpa using List.find?_some found
          have same : first.seq = object.seq := is.trans depends
          have given := announced first (List.mem_of_find?_eq_some found) unknown
          obtain ⟨method, rest, data⟩ := begins.resolveSeq first.id
          intro origin is
          cases is
          exact ⟨object, first.id, lowByte first.id, method, rest, _,
            (objects_flushPending client).symm ▸ has, same ▸ given, .inr rfl, by rw [data]⟩
  refine ⟨?_, ?_⟩
  · have sent : client.flushPending.sent =
        (client.write (client.pendingOutgoing.filterMap client.resolved)).sent := by
      rw [CClientSocket.flushPending_eq]
    rw [sent, CClientSocket.write]
    split
    · exact List.forall_mem_append.mpr
        ⟨fun sent listed => (directed.sent sent listed).mono keeps fun _ => id, written⟩
    · exact fun sent listed => (directed.sent sent listed).mono keeps fun _ => id
  · rw [pendingOutgoing_flushPending]
    exact fun pending listed =>
      (directed.waits pending (List.mem_filter.mp listed).1).mono keeps

/-- **What the client does keeps its calls directed.** -/
theorem act (directed : DirectedClient client given) (headed : Headed client)
    (announced : ∀ object ∈ client.objects, object.id ≠ 0 → (object.seq, object.id) ∈ given)
    {impls : Client.Impls} {act : Client.Act} (acts : client.act impls act = some (.ok next)) :
    DirectedClient next given := by
  rcases act_sameCalls acts with ⟨index, id, args, rfl⟩ | rfl | same
  · obtain ⟨⟨result, _⟩, called, rfl⟩ := map_eq_ok.mp (Option.some.inj acts)
    obtain ⟨object, spec, outcome, seq, has, -, made, after⟩ := CClientSocket.call_eq_ok.mp called
    have begins := call_begins made
    have counted : DirectedClient { client with seq } given := ⟨directed.sent, directed.waits⟩
    obtain rfl := Prod.mk.inj after |>.2
    cases outcome with
    | error message => exact counted
    | errd => exact ⟨directed.sent, directed.waits⟩
    | defer msg kind => exact (counted.defer has begins.1 begins.2).returned impls object kind
    | send msg kind =>
        have listed := announced object (List.mem_of_getElem? has) begins.1
        exact (counted.direct has listed begins.2).returned impls object kind
  · cases acts
    exact directed.flushPending announced
  · exact directed.sameCalls same (act_asks headed acts).prefix_sent

end DirectedClient

end Client

/-! ## Both ends -/

/-- All calls go by identifiers that the server has given out. -/
structure Directed (s : System) : Prop where
  agreed : Agreed s
  kept : Kept s.client
  calls : DirectedClient s.client (newObjects s.server.sent)

theorem directed_start : Directed {} where
  agreed := agreed_start
  kept := kept_opened
  calls := by
    refine ⟨fun sent listed origin is => ?_, fun _ listed => absurd listed List.not_mem_nil⟩
    rw [List.mem_singleton.mp listed] at is
    cases is

namespace Directed

variable {s t : System}

theorem announced (directed : Directed s) :
    ∀ object ∈ s.client.objects, object.id ≠ 0 →
      (object.seq, object.id) ∈ newObjects s.server.sent :=
  fun _ listed => directed.agreed.announced _ (List.mem_map_of_mem listed)

/-- What the server does gives out more identifiers. -/
theorem grows {impls : Server.Impls} {server : CServerClient} {act : Server.Act}
    (directed : Directed s) (acts : s.server.act impls act = some (.ok server)) :
    DirectedClient s.client (newObjects server.sent) := by
  obtain ⟨announced, sends⟩ := (act_creates acts).sends
  refine ⟨fun sent listed => ?_, directed.calls.waits⟩
  rw [sends.announced]
  exact (directed.calls.sent sent listed).mono (fun _ object has => ⟨object, has, rfl⟩)
    (List.subset_append_left _ _)

/-- **A step keeps the calls directed**, while there are sequences and identifiers left. -/
theorem step {cfg : Config} {event : Event} (directed : Directed s) (step : Step cfg s event t)
    (few : Few t) : Directed t := by
  refine ⟨directed.agreed.step step few, ?_, ?_⟩
  · cases step with
    | clientActs own acts => exact directed.kept.act acts
    | clientTakes next reads acts => exact directed.kept.act acts
    | serverActs own acts => exact directed.kept
    | serverTakes clean next reads acts => exact directed.kept
  · cases step with
    | clientActs own acts => exact directed.calls.act directed.kept.headed directed.announced acts
    | clientTakes next reads acts =>
        exact directed.calls.act directed.kept.headed directed.announced acts
    | serverActs own acts => exact directed.grows acts
    | serverTakes clean next reads acts => exact directed.grows acts

end Directed

theorem directed_of_run {cfg : Config} {s : System} (run : Run cfg anyEvent {} s) (few : Few s) :
    Directed s :=
  run.invariant (I := fun s => Few s → Directed s)
    (fun _ _ _ _ step directed few => (directed (few.of_step step)).step step few)
    (fun _ => directed_start) few

/-- **A call reaches the object it was made on**: what the server reads of a call names the object
that it made for the sequence of the client's object, as long as that is one of the first 255. -/
theorem calls_reach_objects {cfg : Config} {s : System} (run : Run cfg anyEvent {} s)
    (sequences : s.used < 2 ^ 32 - 1) (identifiers : s.server.objects.length < 2 ^ 32 - 1)
    {sent : Sent} {origin : Origin} (listed : sent ∈ s.client.sent)
    (call : sent.origin = some origin) {msg : CGenericProtocolMessage}
    (reads : Reads (parseServer cfg.serverHeap) sent.message (.generic msg)) :
    ∃ object id, s.client.objects[origin.object]? = some object ∧ Created s.server object.seq id ∧
      (id.toNat < 256 → msg.object = id) := by
  have directed := directed_of_run run ⟨sequences, identifiers⟩
  obtain ⟨object, id, name, method, rest, fds, has, given, names, message⟩ :=
    directed.calls.sent sent listed origin call
  rw [message] at reads
  obtain rfl := taken_generic ⟨method, rest, rfl⟩ reads
  refine ⟨object, id, has, ⟨mem_newObjects.mp given, ?_⟩, fun small => ?_⟩
  · exact List.mem_map.mp (directed.agreed.numbered.listed _ given).2
  · rcases names with same | low
    · exact same
    · rw [low, (lowByte_eq_iff id).mpr small]

/-- The call on the bound object reaches it. -/
theorem calls_reach_objects_awaiting :
    ∃ object id, (awaiting [] 1).client.objects[0]? = some object ∧
      Created (awaiting [] 1).server object.seq id ∧ (id.toNat < 256 → 1 = id) := by
  have listed : (⟨.generic (callData 1 0 (some 2) []) [], some ⟨0, 0⟩⟩ : Sent) ∈
      (awaiting [] 1).client.sent := by decide
  exact @calls_reach_objects relatives (awaiting [] 1) (run_awaiting fun _ _ _ => trivial)
    (by decide) (by decide) _ ⟨0, 0⟩ listed rfl _ (.of 17 [] (by decide) (by rfl))

end Hyprwire.Link
