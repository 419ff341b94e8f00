import Hyprwire.Link.Barrier
import Hyprwire.Link.Versions

/-!
# Messages and their answers

A server answers a greeting, an acknowledgement, a bind and a roundtrip, and the client takes note
of the answer. `Progress` says so of all that an end has taken: the answers are there (`Served`)
and have been noted (`Heeded`), the identifier of a bind is given once its answer has been taken,
and the last roundtrip that was answered is the last one that was asked for. It holds in every
run with identifiers and numbers left (`progress_of_run`).
-/

set_option autoImplicit false

namespace Hyprwire.Link

open Cpp Wire Object Client Server

/-! ## What an act of the client does -/

section Acts

variable {impls : Client.Impls} {client next : CClientSocket} {act : Client.Act}

/-- The handshake stays done. -/
theorem handshakeDone_of_act (acts : client.act impls act = some (.ok next))
    (done : client.handshakeDone = true) : next.handshakeDone = true := by
  have write : ∀ (client : CClientSocket) (messages : List Sent),
      (client.write messages).handshakeDone = client.handshakeDone := by
    intro client messages
    rw [CClientSocket.write]
    split <;> rfl
  have returned : ∀ (object : IWireObject) (client : CClientSocket) (kind : Option (UInt32 × Str)),
      (CClientSocket.returned impls object client kind).2.handshakeDone = client.handshakeDone := by
    intro object client kind
    cases kind with
    | none => rfl
    | some kind =>
        rw [CClientSocket.returned, CClientSocket.makeObject]
        split <;> rfl
  cases act with
  | call index id args =>
      obtain ⟨⟨result, _⟩, called, rfl⟩ := map_eq_ok.mp (Option.some.inj acts)
      obtain ⟨object, spec, outcome, seq, -, -, -, after⟩ := CClientSocket.call_eq_ok.mp called
      rw [congrArg Prod.snd after]
      cases outcome with
      | error message => exact done
      | errd => exact done
      | defer msg kind => exact (returned _ _ kind).trans done
      | send msg kind =>
          refine (returned object (CClientSocket.direct { client with seq } index msg) kind).trans ?_
          exact (write { client with seq } _).trans done
  | listen index id fn =>
      obtain ⟨object, -, rest⟩ := bind_eq_ok.mp (Option.some.inj acts)
      cases rest
      exact done
  | bindProtocol spec version =>
      obtain ⟨⟨object, _⟩, bound, rfl⟩ := map_eq_ok.mp (Option.some.inj acts)
      simp only [CClientSocket.bindProtocol] at bound
      split at bound
      · cases bound
        exact done
      · split at bound
        · cases bound
        · cases bound
          exact (write _ _).trans done
  | roundtrip =>
      cases acts
      rw [CClientSocket.roundtrip]
      split
      · exact done
      · exact (write _ _).trans done
  | receive message =>
      obtain ⟨received, run, rest⟩ := Option.map_eq_some_iff.mp acts
      obtain ⟨⟨_, invocation⟩, rfl, rfl⟩ := map_eq_ok.mp rest
      cases message with
      | handshakeBegin versions => cases run; exact (write _ _).trans done
      | handshakeProtocols names => cases run; rfl
      | newObject seq id =>
          cases run
          rw [CClientSocket.onSeq]
          split <;> exact done
      | generic msg =>
          rw [(CClientSocket.onGeneric_eq_ok run).1]
          exact done
      | _ => cases run; exact done
  | refuse => cases acts; exact done
  | flushPending =>
      cases acts
      rw [CClientSocket.flushPending_eq]
      exact (write _ _).trans done
  | disconnectOnError => cases acts; exact done

/-- An object with the sequence has an identifier. -/
def Given (client : CClientSocket) (seq : UInt32) : Prop :=
  ∃ id, id ≠ 0 ∧ (seq, id) ∈ client.handles

/-- An identifier that is given is at most replaced by another. -/
theorem Given.of_act {seq : UInt32} (given : Given client seq)
    (acts : client.act impls act = some (.ok next))
    (announces : ∀ seq id, act = .receive (.newObject seq id) → id ≠ 0) : Given next seq := by
  obtain ⟨id, nonzero, listed⟩ := given
  cases act_allocates acts with
  | nothing handles => exact ⟨id, nonzero, handles ▸ listed⟩
  | counted handles => exact ⟨id, nonzero, handles ▸ listed⟩
  | made handles => exact ⟨id, nonzero, handles ▸ List.mem_append_left _ listed⟩
  | assigned seq' id' index is found handles =>
      obtain ⟨place, has⟩ := List.mem_iff_getElem?.mp listed
      by_cases here : index = place
      · subst here
        rw [has] at found
        obtain rfl : seq = seq' := Option.some.inj found
        refine ⟨id', announces _ _ is, ?_⟩
        rw [handles]
        exact List.mem_iff_getElem?.mpr ⟨index,
          List.getElem?_set_self (List.getElem?_eq_some_iff.mp has).1⟩
      · refine ⟨id, nonzero, ?_⟩
        rw [handles]
        exact List.mem_iff_getElem?.mpr ⟨place, (List.getElem?_set_ne here).trans has⟩

/-- The first object with a sequence gets the identifier. -/
theorem given_onSeq {seq id : UInt32} (seated : seq ∈ client.objects.map IWireObject.seq)
    (nonzero : id ≠ 0) : Given (client.onSeq seq id) seq := by
  obtain ⟨object, listed, same⟩ := List.mem_map.mp seated
  rw [CClientSocket.onSeq]
  split
  · next none =>
    exact absurd same (of_decide_eq_false (List.findIdx?_eq_none_iff.mp none object listed))
  · next index found =>
    obtain ⟨inside, is, -⟩ := List.findIdx?_eq_some_iff_getElem.mp found
    refine ⟨id, nonzero, List.mem_map.mpr ⟨{ client.objects[index] with id }, ?_, ?_⟩⟩
    · refine List.mem_iff_getElem?.mpr ⟨index, ?_⟩
      rw [List.getElem?_modify_eq, List.getElem?_eq_getElem inside]
      rfl
    · exact congrArg (·, id) (of_decide_eq_true is)

/-- What has been sent between two states binds only protocols that have an object. -/
def Seats (client next : CClientSocket) : Prop :=
  ∃ new, next.sent = client.sent ++ new ∧ ∀ sent ∈ new, ∀ protocol seq version,
    sent.message = .bindProtocol protocol seq version → seq ∈ next.objects.map IWireObject.seq

namespace Seats

theorem nothing (same : next.sent = client.sent) : Seats client next :=
  ⟨[], same.trans (List.append_nil _).symm, fun _ none => absurd none List.not_mem_nil⟩

theorem write (client : CClientSocket) {messages : List Sent}
    (others : ∀ sent ∈ messages, ∀ protocol seq version,
      sent.message ≠ .bindProtocol protocol seq version) :
    Seats client (client.write messages) := by
  rw [CClientSocket.write]
  split
  · exact ⟨messages, rfl, fun sent listed _ _ _ is => absurd is (others sent listed _ _ _)⟩
  · exact nothing rfl

theorem sendMessage (client : CClientSocket) {message : Message} (origin : Option Origin)
    (other : ∀ protocol seq version, message ≠ .bindProtocol protocol seq version) :
    Seats client (client.sendMessage message origin) :=
  write client (List.forall_mem_singleton.mpr other)

/-- What happens before and after to the other fields makes no difference. -/
theorem congr {client' next' : CClientSocket} (seats : Seats client' next')
    (first : client'.sent = client.sent) (second : next.sent = next'.sent)
    (keep : Keep next'.objects next.objects) : Seats client next := by
  obtain ⟨new, sent, seated⟩ := seats
  refine ⟨new, by rw [second, sent, first], fun message listed protocol seq version is => ?_⟩
  have seqs := List.IsPrefix.map Kin.seq keep
  rw [List.map_map, List.map_map] at seqs
  exact seqs.subset (seated message listed protocol seq version is)

theorem sent_returned (object : IWireObject) (kind : Option (UInt32 × Str)) :
    (CClientSocket.returned impls object client kind).2.sent = client.sent := by
  cases kind with
  | none => rfl
  | some kind =>
      rw [CClientSocket.returned, CClientSocket.makeObject]
      split <;> rfl

theorem call {index : Nat} {id result : UInt32} {args : List Arg}
    (called : client.call impls index id args = .ok (result, next)) : Seats client next := by
  obtain ⟨object, spec, outcome, seq, -, -, -, after⟩ := CClientSocket.call_eq_ok.mp called
  obtain rfl : next = _ := congrArg Prod.snd after
  cases outcome with
  | error message => exact nothing rfl
  | errd => exact nothing rfl
  | defer msg kind => exact nothing (sent_returned object kind)
  | send msg kind =>
      let direct : CClientSocket := CClientSocket.direct { client with seq } index msg
      have keep : Keep direct.objects
          (CClientSocket.returned impls object direct kind).2.objects := by
        rcases @returned_objects impls direct object kind with same | ⟨made, -, more⟩
        · rw [same]
          exact .refl _
        · rw [more]
          exact .append _ _
      have sends : Seats { client with seq } (CClientSocket.sendMessage { client with seq }
          (.generic msg.data msg.fds) (some ⟨index, client.made⟩)) :=
        sendMessage _ _ fun _ _ _ same => by cases same
      exact sends.congr rfl (sent_returned object kind) keep

theorem bindProtocol {spec : IProtocolSpec} {version : UInt32} {made : Option Nat}
    (bound : client.bindProtocol spec version = .ok (made, next)) : Seats client next := by
  simp only [CClientSocket.bindProtocol] at bound
  split at bound
  · cases bound
    exact nothing rfl
  · split at bound
    · cases bound
    · cases bound
      rw [CClientSocket.sendMessage]
      split
      · refine ⟨_, rfl, List.forall_mem_singleton.mpr ?_⟩
        intro protocol seq version same
        cases same
        rw [List.map_append]
        exact List.mem_append_right _ (List.mem_singleton.mpr rfl)
      · exact nothing rfl

theorem flushPending (client : CClientSocket) : Seats client client.flushPending := by
  rw [CClientSocket.flushPending_eq]
  have written := @write client (client.pendingOutgoing.filterMap client.resolved)
  refine (written fun sent listed protocol seq version is => ?_).congr rfl rfl (.refl _)
  obtain ⟨pending, -, resolved⟩ := List.mem_filterMap.mp listed
  obtain ⟨data, fds, call⟩ := CClientSocket.resolved_generic resolved
  cases call.symm.trans is

/-- **An act binds only protocols that have an object.** -/
theorem of_act (acts : client.act impls act = some (.ok next)) : Seats client next := by
  cases act with
  | call index id args =>
      obtain ⟨⟨result, _⟩, called, rfl⟩ := map_eq_ok.mp (Option.some.inj acts)
      exact call called
  | listen index id fn =>
      obtain ⟨object, -, rest⟩ := bind_eq_ok.mp (Option.some.inj acts)
      cases rest
      exact nothing rfl
  | bindProtocol spec version =>
      obtain ⟨⟨object, _⟩, bound, rfl⟩ := map_eq_ok.mp (Option.some.inj acts)
      exact bindProtocol bound
  | roundtrip =>
      cases acts
      rw [CClientSocket.roundtrip]
      split
      · exact nothing rfl
      · let asking : CClientSocket :=
          { client with lastSentRoundtripSeq := client.lastSentRoundtripSeq + 1 }
        have sends : Seats asking (asking.sendMessage
            (.roundtripRequest (client.lastSentRoundtripSeq + 1))) :=
          sendMessage asking none fun _ _ _ same => by cases same
        exact sends.congr rfl rfl (.refl _)
  | receive message =>
      obtain ⟨received, run, rest⟩ := Option.map_eq_some_iff.mp acts
      obtain ⟨⟨_, invocation⟩, rfl, rfl⟩ := map_eq_ok.mp rest
      cases message with
      | handshakeBegin versions =>
          cases run
          exact sendMessage client none fun _ _ _ same => by cases same
      | handshakeProtocols names =>
          cases run
          obtain ⟨specs, error, isOpen, same, -⟩ := client.addServerSpecs_eq names
          rw [CClientSocket.takeServerSpecs, same]
          exact nothing rfl
      | newObject seq id =>
          cases run
          rw [CClientSocket.onSeq]
          split <;> exact nothing rfl
      | generic msg =>
          rw [(CClientSocket.onGeneric_eq_ok run).1]
          exact nothing rfl
      | _ => cases run; exact nothing rfl
  | refuse => cases acts; exact nothing rfl
  | flushPending => cases acts; exact flushPending client
  | disconnectOnError => cases acts; exact nothing rfl

end Seats

/-- A bind that is on the wire has its object. -/
def Seated (client : CClientSocket) : Prop :=
  ∀ protocol seq version, .bindProtocol protocol seq version ∈ client.sent.map Sent.message →
    seq ∈ client.objects.map IWireObject.seq

theorem Seated.of_act (seated : Seated client) (acts : client.act impls act = some (.ok next)) :
    Seated next := by
  have keeps : client.objects.map IWireObject.seq <+: next.objects.map IWireObject.seq := by
    have seqs := List.IsPrefix.map Kin.seq (client_act_kin acts)
    rwa [List.map_map, List.map_map] at seqs
  obtain ⟨new, sent, seats⟩ := Seats.of_act acts
  intro protocol seq version listed
  rw [sent, List.map_append] at listed
  rcases List.mem_append.mp listed with before | last
  · exact keeps.subset (seated protocol seq version before)
  · obtain ⟨message, member, is⟩ := List.mem_map.mp last
    exact seats message member protocol seq version is

end Acts

/-! ## What an act of the server does -/

/-- An accepted bind has the sequence that lies there. -/
theorem bind_seq {heap : Heap} {data : View} {offset : Nat} :
    Accepts (fun msg => msg.len ≠ 0 → data.u32At (offset + 2) = .ok msg.seq)
      (CBindProtocolMessage.decode heap data offset) := by
  refine accepts_catch (absurd rfl) ?_
  refine accepts_expect (absurd rfl) fun _ => ?_
  refine accepts_expect (absurd rfl) fun _ => ?_
  refine accepts_bind fun seq lies => ?_
  refine accepts_expect (absurd rfl) fun _ => accepts_bind fun ⟨strLen, varIntLen⟩ _ => ?_
  refine accepts_bind fun _ _ => accepts_bind fun protocol _ => ?_
  refine accepts_expect (absurd rfl) fun _ => accepts_bind fun version _ => ?_
  refine accepts_ite (fun _ => accepts_pure (absurd rfl)) fun _ => ?_
  exact accepts_expect (absurd rfl) fun _ => accepts_pure fun _ => lies

/-- **A taken `BIND_PROTOCOL` was sent with its sequence.** -/
theorem taken_bindProtocol {heap : Heap} {protocol protocol' : Str}
    {seq seq' version version' : UInt32}
    (reads : Reads (parseServer heap) (.bindProtocol protocol seq version)
      (.bindProtocol protocol' seq' version')) : seq' = seq := by
  obtain ⟨data, len, left, bytes, read⟩ := reads
  obtain ⟨-, decoded, accepted⟩ := parseServer_message read
  generalize is : Received.bindProtocol protocol' seq' version' = received at decoded
  cases decoded <;> cases is
  next msg decoded =>
  have lies := bind_seq _ decoded accepted
  have held := holds_zero bytes
  simp only [Message.data, CBindProtocolMessage.encode, View.holds_append] at held
  have inside : 0 + 2 < data.strict.size := by
    rw [data.size_strict, bytes]
    simp [Message.data, CBindProtocolMessage.encode]
  have written := View.u32At_inside held.1.1.1.1.1.1.2 inside data.length_lt
  exact Except.ok.inj (lies.symm.trans written)

/-- The roundtrip that the server has answered or will answer last. -/
def due (server : CServerClient) : UInt32 :=
  if server.scheduledRoundtripSeq = 0 then (dones server.sent).getLastD 0
  else server.scheduledRoundtripSeq

section Server

variable {impls : Server.Impls} {server next : CServerClient} {act : Server.Act}

/-- Only a request changes what is due: what is answered had been scheduled. -/
theorem due_of_act (acts : server.act impls act = some (.ok next))
    (other : ∀ seq, act ≠ .receive (.roundtripRequest seq)) : due next = due server := by
  cases act_answers acts with
  | quiet same => rw [due, same.scheduled, same.dones, due]
  | scheduled seq asked => exact absurd asked (other seq)
  | answered dones nonzero scheduled =>
      rw [due, if_pos scheduled, dones, List.getLastD_concat, due, if_neg nonzero]

/-- A request is due. -/
theorem due_of_request {seq : UInt32}
    (acts : server.act impls (.receive (.roundtripRequest seq)) = some (.ok next))
    (nonzero : seq ≠ 0) : due next = seq := by
  cases acts
  exact if_neg nonzero

/-- What has been sent stays sent. -/
theorem sent_of_act (acts : server.act impls act = some (.ok next)) :
    server.sent <+: next.sent := by
  obtain ⟨announced, new, sent, -⟩ := (act_creates acts).sends
  exact ⟨new, sent.symm⟩

/-- A bind that leaves no error is answered. -/
theorem bind_answered {protocol : Str} {seq version : UInt32}
    (acts : server.act impls (.receive (.bindProtocol protocol seq version)) = some (.ok next))
    (fine : next.error = false) : next.sent = server.sent ++ [.newObject seq server.maxId] := by
  obtain rfl : (CServerClient.createObject impls protocol [] version seq server).2 = next := by
    cases acts
    rfl
  simp only [CServerClient.createObject] at fine ⊢
  split at fine
  · cases fine
  · split at fine
    · cases fine
    · split at fine
      · cases fine
      · next some_ older =>
        rw [if_neg some_, if_neg older]
        rfl

/-- No identifier is zero. -/
theorem id_ne_zero (numbered : Server.Numbered server) (few : server.objects.length < 2 ^ 32 - 1)
    {id : UInt32} (listed : id ∈ server.ids) : id ≠ 0 := by
  rw [numbered.ids] at listed
  exact ne_zero_of_mem_numbers (Nat.lt_of_lt_of_le few (Nat.sub_le _ _)) listed

/-- What is announced is no zero. -/
theorem announced_ne_zero (numbered : Server.Numbered server)
    (few : server.objects.length < 2 ^ 32 - 1) {handle : UInt32 × UInt32}
    (announced : handle ∈ newObjects server.sent) : handle.2 ≠ 0 :=
  id_ne_zero numbered few (numbered.listed handle announced).2

end Server

/-! ## Answers -/

/-- The messages that the client has sent. -/
def System.upstream (s : System) : List Message := s.client.sent.map Sent.message

/-- What the server has done for a message that it has taken. The identifier of a bind is given
when the client has taken the answer. -/
def Served (s : System) : Message → Prop
  | .hello => ∃ versions, .handshakeBegin versions ∈ s.server.sent
  | .handshakeAck _ => ∃ protocols, .handshakeProtocols protocols ∈ s.server.sent
  | .bindProtocol _ seq _ => ∃ place id, s.server.sent[place]? = some (.newObject seq id) ∧
      (place < s.toClient → Given s.client seq)
  | _ => True

/-- What the client has done for a message that it has taken. -/
def Heeded (client : CClientSocket) : Message → Prop
  | .handshakeBegin _ => ∃ version, .handshakeAck version ∈ client.sent.map Sent.message
  | .handshakeProtocols _ => client.handshakeDone = true
  | _ => True

/-- Each end has answered what it has taken, if it has no error. -/
structure Progress (s : System) : Prop where
  tookUp : s.toServer ≤ s.upstream.length
  tookDown : s.toClient ≤ s.server.sent.length
  numbered : Server.Numbered s.server
  greeted : .hello ∈ s.upstream
  seated : Seated s.client
  served : s.server.error = false → ∀ message ∈ s.upstream.take s.toServer, Served s message
  heeded : s.client.error = false → ∀ message ∈ s.server.sent.take s.toClient,
    Heeded s.client message
  asked : due s.server = (asked (s.upstream.take s.toServer)).getLastD 0
  ackd : s.client.lastAckdRoundtripSeq = (dones (s.server.sent.take s.toClient)).getLastD 0

theorem take_of_grows {γ : Type} {first second : List γ} (before : first <+: second) {n : Nat}
    (within : n ≤ first.length) : second.take n = first.take n := by
  obtain ⟨rest, rfl⟩ := before
  exact List.take_append_of_le_length within

theorem take_succ_of_getElem? {γ : Type} {list : List γ} {n : Nat} {last : γ}
    (has : list[n]? = some last) : list.take (n + 1) = list.take n ++ [last] := by
  rw [List.take_add_one, has]
  rfl

/-- The server sends more. -/
theorem Served.server {s : System} {server : CServerClient} {toServer : Nat} {message : Message}
    (served : Served s message) (grows : s.server.sent <+: server.sent) :
    Served { s with server, toServer } message := by
  cases message with
  | hello => exact served.imp fun _ listed => grows.subset listed
  | handshakeAck version => exact served.imp fun _ listed => grows.subset listed
  | bindProtocol protocol seq version =>
      obtain ⟨place, id, has, given⟩ := served
      obtain ⟨inside, is⟩ := List.getElem?_eq_some_iff.mp has
      exact ⟨place, id, is ▸ List.prefix_iff_getElem?.mp grows place inside, given⟩
  | _ => trivial

/-- The client does something, and takes messages. -/
theorem Served.client {s : System} {client : CClientSocket} {toClient : Nat} {message : Message}
    (served : Served s message) (given : ∀ seq, Given s.client seq → Given client seq)
    (takes : ∀ place protocol seq version id, message = .bindProtocol protocol seq version →
      s.toClient ≤ place → place < toClient → s.server.sent[place]? = some (.newObject seq id) →
      Given client seq) :
    Served { s.withClient client with toClient } message := by
  cases message with
  | bindProtocol protocol seq version =>
      obtain ⟨place, id, has, before⟩ := served
      refine ⟨place, id, has, fun within => ?_⟩
      rcases Nat.lt_or_ge place s.toClient with early | late
      · exact given seq (before early)
      · exact takes place protocol seq version id rfl late within has
  | _ => exact served

/-- What the client has done stays done. -/
theorem Heeded.mono {client next : CClientSocket} {message : Message}
    (heeded : Heeded client message) (sent : client.sent <+: next.sent)
    (done : client.handshakeDone = true → next.handshakeDone = true) : Heeded next message := by
  cases message with
  | handshakeBegin versions => exact heeded.imp fun _ listed => (sent.map _).subset listed
  | handshakeProtocols protocols => exact done heeded
  | _ => trivial

namespace Progress

variable {s : System}

/-- What the client does keeps the answers, when it answers what it takes. -/
theorem client {impls : Client.Impls} {client : CClientSocket} {act : Client.Act} {toClient : Nat}
    (progress : Progress s) (headed : Headed s.client)
    (acts : s.client.act impls act = some (.ok client))
    (announces : ∀ seq id, act = .receive (.newObject seq id) → id ≠ 0)
    (inside : toClient ≤ s.server.sent.length)
    (heeds : client.error = false → ∀ message ∈ s.server.sent.take toClient,
      message ∈ s.server.sent.take s.toClient ∨ Heeded client message)
    (gives : ∀ place seq id, s.toClient ≤ place → place < toClient →
      s.server.sent[place]? = some (.newObject seq id) →
      seq ∈ s.client.objects.map IWireObject.seq → Given client seq)
    (ackd : client.lastAckdRoundtripSeq = (dones (s.server.sent.take toClient)).getLastD 0) :
    Progress { s.withClient client with toClient } := by
  have asks := act_asks headed acts
  have grows : s.upstream <+: client.sent.map Sent.message := asks.prefix_sent.map _
  have taken : (client.sent.map Sent.message).take s.toServer = s.upstream.take s.toServer :=
    take_of_grows grows progress.tookUp
  refine {
    tookUp := progress.tookUp.trans grows.length_le
    tookDown := inside
    numbered := progress.numbered
    greeted := grows.subset progress.greeted
    seated := progress.seated.of_act acts
    served := ?_, heeded := ?_, asked := ?_
    ackd := ackd }
  · show _ → ∀ message ∈ (client.sent.map Sent.message).take s.toServer, _
    rw [taken]
    intro fine message listed
    refine (progress.served fine message listed).client (fun _ given => given.of_act acts announces) ?_
    rintro place protocol seq version id rfl late within has
    exact gives place seq id late within has
      (progress.seated protocol seq version (List.mem_of_mem_take listed))
  · intro fine message listed
    rcases heeds fine message listed with before | last
    · have clean := not_error_before asks.errors fine
      exact (progress.heeded clean message before).mono asks.prefix_sent (handshakeDone_of_act acts)
    · exact last
  · show _ = (Link.asked ((client.sent.map Sent.message).take s.toServer)).getLastD 0
    rw [taken]
    exact progress.asked

/-- What the server does keeps the answers, when it answers what it takes. -/
theorem server {impls : Server.Impls} {server : CServerClient} {act : Server.Act} {toServer : Nat}
    (progress : Progress s) (acts : s.server.act impls act = some (.ok server))
    (few : server.objects.length < 2 ^ 32 - 1) (inside : toServer ≤ s.upstream.length)
    (serves : server.error = false → ∀ message ∈ s.upstream.take toServer,
      message ∈ s.upstream.take s.toServer ∨ Served { s with server, toServer } message)
    (asked : due server = (Link.asked (s.upstream.take toServer)).getLastD 0) :
    Progress { s with server, toServer } := by
  have grows := sent_of_act acts
  have taken : server.sent.take s.toClient = s.server.sent.take s.toClient :=
    take_of_grows grows progress.tookDown
  refine {
    tookUp := inside
    tookDown := progress.tookDown.trans grows.length_le
    numbered := progress.numbered.creates (act_creates acts) few
    greeted := progress.greeted
    seated := progress.seated
    served := ?_, heeded := ?_
    asked := asked
    ackd := ?_ }
  · intro fine message listed
    rcases serves fine message listed with before | last
    · exact (progress.served (clean_before (act_error acts) fine) message before).server grows
    · exact last
  · show _ → ∀ message ∈ server.sent.take s.toClient, _
    rw [taken]
    exact progress.heeded
  · show _ = (dones (server.sent.take s.toClient)).getLastD 0
    rw [taken]
    exact progress.ackd

/-- The client acts for itself. -/
theorem clientActs {impls : Client.Impls} {client : CClientSocket} {act : Client.Act}
    (progress : Progress s) (headed : Headed s.client) (own : (Event.client act).IsOwn)
    (acts : s.client.act impls act = some (.ok client)) : Progress (s.withClient client) := by
  refine @Progress.client s impls client act s.toClient progress headed acts
    (fun _ _ is => absurd own (is ▸ not_false)) progress.tookDown (fun _ _ listed => .inl listed)
    (fun _ _ _ late within => absurd within (Nat.not_lt.mpr late)) ?_
  have same : client.lastAckdRoundtripSeq = s.client.lastAckdRoundtripSeq := by
    cases act_asks headed acts with
    | quiet same => exact same.ackd
    | asked _ clean is =>
        rw [is, CClientSocket.roundtrip, clean, CClientSocket.sendMessage]
        simp only [Bool.false_eq_true, if_false]
        split <;> rfl
    | ackd seq is => exact absurd own (is ▸ not_false)
  exact same.trans progress.ackd

/-- The client takes a message. -/
theorem clientTakes {heap : Heap} {impls : Client.Impls} {client : CClientSocket}
    {message : Message} {received : Received} (progress : Progress s) (kept : Kept s.client)
    (tagged : Tagged message) (few : s.server.objects.length < 2 ^ 32 - 1)
    (next : s.server.sent[s.toClient]? = some message)
    (reads : Reads (parseClient heap) message received)
    (acts : s.client.act impls (.receive received) = some (.ok client)) :
    Progress { s.withClient client with toClient := s.toClient + 1 } := by
  have type : message.type = received.type := by
    obtain ⟨data, len, left, bytes, read⟩ := reads
    exact type_eq tagged bytes (parseClient_message read).1
  have inside := (List.getElem?_eq_some_iff.mp next).1
  have named : ∀ seq id, message = .newObject seq id → id ≠ 0 := fun seq id is =>
    announced_ne_zero progress.numbered few (mem_newObjects.mpr (List.mem_of_getElem? (is ▸ next)))
  refine progress.client kept.headed acts ?_ inside ?_ ?_ ?_
  · intro seq id is
    cases is
    exact named seq id (taken_newObject tagged reads)
  · intro fine other listed
    rw [take_succ_of_getElem? next] at listed
    rcases List.mem_append.mp listed with before | last
    · exact .inl before
    · obtain rfl := List.mem_singleton.mp last
      refine .inr ?_
      cases other with
      | handshakeBegin versions =>
          cases received <;> cases type
          cases acts
          have isOpen : s.client.fdIsValid = true := by
            cases valid : s.client.fdIsValid with
            | true => rfl
            | false =>
                have fails : (s.client.sendMessage (.handshakeAck protocolVer)).error = true :=
                  (write_error s.client _).trans (kept.closed valid)
                cases fine.symm.trans fails
          rw [CClientSocket.sendMessage, if_pos isOpen]
          exact ⟨_, List.mem_map.mpr ⟨_, List.mem_append_right _ (List.mem_singleton.mpr rfl), rfl⟩⟩
      | handshakeProtocols protocols =>
          cases received <;> cases type
          cases acts
          rfl
      | _ => trivial
  · intro place seq id late within has seated
    obtain rfl : place = s.toClient := by omega
    obtain rfl : message = .newObject seq id := Option.some.inj (next.symm.trans has)
    cases received with
    | newObject seq' id' =>
        cases taken_newObject tagged reads
        cases acts
        exact given_onSeq seated (named seq id rfl)
    | _ => cases type
  · have plain : (∀ seq, message ≠ .roundtripDone seq) →
        client.lastAckdRoundtripSeq = s.client.lastAckdRoundtripSeq := by
      intro other
      cases act_asks kept.headed acts with
      | quiet same => exact same.ackd
      | asked is => cases is
      | ackd seq is same =>
          cases is
          exact absurd (taken_roundtripDone tagged reads) (other seq)
    rw [take_succ_of_getElem? next, dones, List.filterMap_append]
    cases message with
    | roundtripDone seq =>
        cases received with
        | roundtripDone seq' =>
            cases taken_roundtripDone tagged reads
            cases acts
            exact List.getLastD_concat.symm
        | _ => cases type
    | _ =>
        rw [plain fun _ same => by cases same]
        exact progress.ackd.trans (congrArg (List.getLastD · 0) (List.append_nil _).symm)

/-- The server acts for itself. -/
theorem serverActs {impls : Server.Impls} {server : CServerClient} {act : Server.Act}
    (progress : Progress s) (own : (Event.server act).IsOwn)
    (acts : s.server.act impls act = some (.ok server))
    (few : server.objects.length < 2 ^ 32 - 1) : Progress { s with server } := by
  refine @Progress.server s impls server act s.toServer progress acts few progress.tookUp
    (fun _ _ listed => .inl listed) ?_
  exact (due_of_act acts fun _ is => absurd own (is ▸ not_false)).trans progress.asked

/-- The server takes a message. -/
theorem serverTakes {heap : Heap} {impls : Server.Impls} {server : CServerClient} {sent : Sent}
    {received : Received} (progress : Progress s) (tagged : Tagged sent.message)
    (numbers : ∀ seq, .roundtripRequest seq ∈ s.upstream → seq ≠ 0)
    (few : server.objects.length < 2 ^ 32 - 1) (next : s.client.sent[s.toServer]? = some sent)
    (reads : Reads (parseServer heap) sent.message received)
    (acts : s.server.act impls (.receive received) = some (.ok server)) :
    Progress { s with server, toServer := s.toServer + 1 } := by
  have type : sent.message.type = received.type := by
    obtain ⟨data, len, left, bytes, read⟩ := reads
    exact type_eq tagged bytes (parseServer_message read).1
  have next : s.upstream[s.toServer]? = some sent.message := by
    rw [System.upstream, List.getElem?_map, next]
    rfl
  generalize sent.message = message at tagged reads type next
  refine progress.server acts few (List.getElem?_eq_some_iff.mp next).1 ?_ ?_
  · intro fine other listed
    rw [take_succ_of_getElem? next] at listed
    rcases List.mem_append.mp listed with before | last
    · exact .inl before
    · obtain rfl := List.mem_singleton.mp last
      refine .inr ?_
      cases other with
      | hello =>
          cases received <;> cases type
          cases acts
          exact ⟨_, List.mem_append_right _ (List.mem_singleton.mpr rfl)⟩
      | handshakeAck version =>
          cases received <;> cases type
          cases acts
          exact ⟨_, List.mem_append_right _ (List.mem_singleton.mpr rfl)⟩
      | bindProtocol protocol seq version =>
          cases received <;> cases type
          obtain rfl := taken_bindProtocol reads
          have answered := bind_answered acts fine
          refine ⟨s.server.sent.length, s.server.maxId, ?_, fun within => ?_⟩
          · show server.sent[s.server.sent.length]? = _
            rw [answered]
            exact List.getElem?_concat_length
          · exact absurd within (Nat.not_lt.mpr progress.tookDown)
      | _ => trivial
  · have plain : (∀ seq, message ≠ .roundtripRequest seq) → due server = due s.server := by
      intro other
      refine due_of_act acts fun seq is => ?_
      cases is
      exact other seq (taken_roundtripRequest tagged reads)
    rw [take_succ_of_getElem? next, Link.asked, List.filterMap_append]
    cases message with
    | roundtripRequest seq =>
        cases received with
        | roundtripRequest seq' =>
            cases taken_roundtripRequest tagged reads
            rw [due_of_request acts (numbers seq (List.mem_of_getElem? next))]
            exact List.getLastD_concat.symm
        | _ => cases type
    | _ =>
        rw [plain fun _ same => by cases same]
        exact progress.asked.trans (congrArg (List.getLastD · 0) (List.append_nil _).symm)

end Progress

/-- There are identifiers left, and the numbers of the roundtrips have not wrapped. -/
def Enough (s : System) : Prop :=
  s.server.objects.length < 2 ^ 32 - 1 ∧ ∀ seq, .roundtripRequest seq ∈ s.upstream → seq ≠ 0

section Steps

variable {cfg : Config} {s t : System} {event : Event}

theorem Enough.of_step (enough : Enough t) (kept : Kept s.client) (step : Step cfg s event t) :
    Enough s := by
  have client : ∀ {client : CClientSocket} {act : Client.Act},
      s.client.act cfg.clientImpls act = some (.ok client) →
      (∀ seq, .roundtripRequest seq ∈ client.sent.map Sent.message → seq ≠ 0) →
      ∀ seq, .roundtripRequest seq ∈ s.upstream → seq ≠ 0 := by
    intro client act acts nonzero seq listed
    exact nonzero seq (((act_asks kept.headed acts).prefix_sent.map _).subset listed)
  cases step with
  | clientActs own acts => exact ⟨enough.1, client acts enough.2⟩
  | clientTakes next reads acts => exact ⟨enough.1, client acts enough.2⟩
  | serverActs own acts =>
      exact ⟨Nat.lt_of_le_of_lt (act_creates acts).length_le enough.1, enough.2⟩
  | serverTakes clean next reads acts =>
      exact ⟨Nat.lt_of_le_of_lt (act_creates acts).length_le enough.1, enough.2⟩

/-- **A step keeps the answers**, while there are identifiers and numbers left. -/
theorem Progress.step (progress : Progress s) (barrier : Barrier s) (enough : Enough t)
    (step : Step cfg s event t) : Progress t := by
  have before := enough.of_step barrier.kept step
  cases step with
  | clientActs own acts => exact progress.clientActs barrier.kept.headed own acts
  | clientTakes next reads acts =>
      have tagged := barrier.tagged _ (List.mem_of_getElem? next)
      exact progress.clientTakes barrier.kept tagged before.1 next reads acts
  | serverActs own acts => exact progress.serverActs own acts enough.1
  | serverTakes clean next reads acts =>
      have tagged := barrier.asking.tagged _ (List.mem_of_getElem? next)
      exact progress.serverTakes tagged before.2 enough.1 next reads acts

end Steps

end Hyprwire.Link
