import Hyprwire.Link.Answers
import Hyprwire.Server.Utterances

/-!
# The table of the client

The client gives an object the identifier that it hears for its sequence, and the last one stays.
When the server makes objects only for sequences that the client has used (`requested`), the
table of the client is what the announcements that it has taken come to (`table_replicated`).
-/

set_option autoImplicit false

namespace Hyprwire.Server

open Cpp Wire Object

/-- The sequence that an act makes an object for. -/
def Act.madeFor : Act → Option UInt32
  | .createObject _ _ _ seq => some seq
  | .receive (.bindProtocol _ seq _) => some seq
  | _ => none

/-- **An act announces what it makes**, and nothing else. -/
theorem act_announces {impls : Impls} {client next : CServerClient} {act : Act}
    (acts : client.act impls act = some (.ok next)) :
    newObjects next.sent = newObjects client.sent ∨ ∃ seq, act.madeFor = some seq ∧
      newObjects next.sent = newObjects client.sent ++ [(seq, client.maxId)] := by
  rcases act_utters acts with same | ⟨message, sent, utters⟩
  · exact .inl (congrArg newObjects same)
  · rw [sent, newObjects_append]
    cases utters with
    | binds => exact .inr ⟨_, rfl, rfl⟩
    | makes => exact .inr ⟨_, rfl, rfl⟩
    | _ => exact .inl (List.append_nil _)

end Hyprwire.Server

namespace Hyprwire.Client

open Cpp Wire Object

theorem Asks.tagged {client next : CClientSocket} {act : Act} (asks : Asks client act next)
    (tagged : ∀ sent ∈ client.sent, Tagged sent.message) :
    ∀ sent ∈ next.sent, Tagged sent.message := by
  cases asks with
  | quiet same =>
      obtain ⟨new, sent, plain⟩ := same.sends
      rw [sent]
      exact List.forall_mem_append.mpr ⟨tagged, fun sent listed => (plain sent listed).1⟩
  | asked _ clean is =>
      rw [is, CClientSocket.roundtrip, clean, CClientSocket.sendMessage]
      simp only [Bool.false_eq_true, if_false]
      split
      · exact List.forall_mem_append.mpr ⟨tagged, List.forall_mem_singleton.mpr trivial⟩
      · exact tagged
  | ackd seq _ is => exact is ▸ tagged

/-- What is announced is given to the object with the sequence, and to no other. -/
theorem mem_handles_onSeq {client : CClientSocket} {seq id : UInt32}
    (apart : (client.objects.map IWireObject.seq).Nodup) {handle : UInt32 × UInt32}
    (listed : handle ∈ (client.onSeq seq id).handles) :
    handle = (seq, id) ∨ handle.1 ≠ seq ∧ handle ∈ client.handles := by
  rw [CClientSocket.onSeq] at listed
  split at listed
  · next none =>
    obtain ⟨object, member, rfl⟩ := List.mem_map.mp listed
    exact .inr ⟨of_decide_eq_false (List.findIdx?_eq_none_iff.mp none object member), listed⟩
  · next index found =>
    obtain ⟨inside, is, -⟩ := List.findIdx?_eq_some_iff_getElem.mp found
    have same : client.objects[index].seq = seq := of_decide_eq_true is
    obtain ⟨object, member, rfl⟩ := List.mem_map.mp listed
    obtain ⟨place, at_⟩ := List.mem_iff_getElem?.mp member
    replace at_ : (client.objects.modify index _)[place]? = some object := at_
    rw [List.getElem?_modify] at at_
    obtain ⟨before, has, rfl⟩ := Option.map_eq_some_iff.mp at_
    by_cases here : index = place
    · subst here
      obtain rfl := Option.some.inj (has.symm.trans (List.getElem?_eq_getElem inside))
      rw [if_pos rfl]
      exact .inl (congrArg (·, id) same)
    · rw [if_neg here]
      refine .inr ⟨fun equal => here ?_, List.mem_map_of_mem (List.mem_of_getElem? has)⟩
      obtain ⟨within, is⟩ := List.getElem?_eq_some_iff.mp has
      have both : (client.objects.map IWireObject.seq)[index]? =
          (client.objects.map IWireObject.seq)[place]? := by
        rw [List.getElem?_map, List.getElem?_map, has, List.getElem?_eq_getElem inside]
        exact congrArg some (same.trans equal.symm)
      exact (List.getElem?_inj (by rwa [List.length_map]) apart).mp both

end Hyprwire.Client

namespace Hyprwire.Link

open Cpp Wire Object Client Server

/-! ## Announcements -/

/-- The identifier that was last given out for a sequence, zero if there is none. -/
def latest (given : List (UInt32 × UInt32)) (seq : UInt32) : UInt32 :=
  ((given.filter fun handle => handle.1 = seq).map Prod.snd).getLastD 0

section Latest

variable {given : List (UInt32 × UInt32)} {seq : UInt32}

theorem latest_concat (other id : UInt32) :
    latest (given ++ [(other, id)]) seq = if other = seq then id else latest given seq := by
  rw [latest, List.filter_append, List.map_append]
  by_cases same : other = seq
  · simp [same]
  · simp [same, latest]

theorem latest_eq_zero (absent : ∀ handle ∈ given, handle.1 ≠ seq) : latest given seq = 0 := by
  have none : given.filter (fun handle => handle.1 = seq) = [] :=
    List.filter_eq_nil_iff.mpr fun handle listed => by simpa using absent handle listed
  rw [latest, none]
  rfl

end Latest

/-- The server makes objects only for sequences that the client has used. -/
def requested (s : System) : Event → Prop
  | .server (.createObject _ _ _ seq) => seq.toNat ≤ s.used
  | _ => True

/-- The table of the client comes from the announcements that it has taken. -/
structure Copied (s : System) : Prop where
  agreed : Agreed s
  kept : Kept s.client
  tagged : ∀ sent ∈ s.client.sent, Tagged sent.message
  seated : Seated s.client
  inside : s.toClient ≤ s.server.sent.length
  asked : ∀ handle ∈ newObjects s.server.sent, handle.1.toNat ≤ s.used
  same : ∀ handle ∈ s.client.handles,
    handle.2 = latest (newObjects (s.server.sent.take s.toClient)) handle.1

theorem copied_start : Copied {} where
  agreed := agreed_start
  kept := kept_opened
  tagged := List.forall_mem_singleton.mpr trivial
  seated protocol seq version listed := by cases List.mem_singleton.mp listed
  inside := Nat.zero_le _
  asked _ none := absurd none List.not_mem_nil
  same _ none := absurd none List.not_mem_nil

namespace Copied

variable {s : System}

/-- What the client makes has no identifier, and has not been announced. -/
theorem made {impls : Client.Impls} {client : CClientSocket} {act : Client.Act} (copied : Copied s)
    (acts : s.client.act impls act = some (.ok client))
    (other : ∀ seq id, act ≠ .receive (.newObject seq id))
    (few : s.used + sequencesUsed s.client client < 2 ^ 32 - 1) :
    ∀ handle ∈ client.handles,
      handle.2 = latest (newObjects (s.server.sent.take s.toClient)) handle.1 := by
  cases act_allocates acts with
  | nothing handles => exact handles ▸ copied.same
  | counted handles => exact handles ▸ copied.same
  | assigned seq id index is => exact absurd is (other seq id)
  | made handles counter =>
      rw [handles]
      refine List.forall_mem_append.mpr ⟨copied.same, List.forall_mem_singleton.mpr ?_⟩
      refine (latest_eq_zero fun handle listed is => ?_).symm
      have counts : sequencesUsed s.client client = 1 := by
        rw [sequencesUsed, if_neg]
        rw [counter]
        intro equal
        simp at equal
      have value : (s.client.seq + 1).toNat = s.used + 1 := by
        rw [copied.agreed.sequenced.seq_succ, UInt32.toNat_ofNat']
        exact Nat.mod_eq_of_lt (by omega)
      have announced : handle ∈ newObjects s.server.sent := by
        rw [← List.take_append_drop s.toClient s.server.sent, newObjects_append]
        exact List.mem_append_left _ listed
      have before := copied.asked handle announced
      rw [is, value] at before
      omega

/-- What the client does keeps its table, when it gives the identifiers that it takes. -/
theorem client {impls : Client.Impls} {client : CClientSocket} {act : Client.Act} {toClient : Nat}
    (copied : Copied s) (acts : s.client.act impls act = some (.ok client))
    (agreed : Agreed { s.withClient client with toClient })
    (inside : toClient ≤ s.server.sent.length)
    (same : ∀ handle ∈ client.handles,
      handle.2 = latest (newObjects (s.server.sent.take toClient)) handle.1) :
    Copied { s.withClient client with toClient } where
  agreed := agreed
  kept := copied.kept.act acts
  tagged := (act_asks copied.kept.headed acts).tagged copied.tagged
  seated := copied.seated.of_act acts
  inside := inside
  asked handle listed := Nat.le_trans (copied.asked handle listed) (Nat.le_add_right _ _)
  same := same

/-- The client takes a message. -/
theorem clientTakes {heap : Heap} {impls : Client.Impls} {client : CClientSocket}
    {message : Message} {received : Received} (copied : Copied s)
    (next : s.server.sent[s.toClient]? = some message)
    (reads : Reads (parseClient heap) message received)
    (acts : s.client.act impls (.receive received) = some (.ok client))
    (agreed : Agreed { s.withClient client with toClient := s.toClient + 1 })
    (few : s.used + sequencesUsed s.client client < 2 ^ 32 - 1) :
    Copied { s.withClient client with toClient := s.toClient + 1 } := by
  have tagged := copied.agreed.tagged _ (List.mem_of_getElem? next)
  refine copied.client acts agreed (List.getElem?_eq_some_iff.mp next).1 ?_
  rw [take_succ_of_getElem? next, newObjects_append]
  by_cases announces : ∃ seq id, received = .newObject seq id
  · obtain ⟨seq, id, rfl⟩ := announces
    obtain rfl := taken_newObject tagged reads
    cases acts
    have apart : (s.client.objects.map IWireObject.seq).Nodup :=
      List.pairwise_map.mpr copied.agreed.sequenced.pairwise_seq
    intro handle listed
    rw [show newObjects [Message.newObject seq id] = [(seq, id)] from rfl, latest_concat]
    rcases mem_handles_onSeq apart listed with rfl | ⟨other, before⟩
    · exact (if_pos rfl).symm
    · rw [if_neg other.symm]
      exact copied.same handle before
  · have other : newObjects [message] = [] := by
      obtain ⟨data, len, left, bytes, read⟩ := reads
      have type := type_eq tagged bytes (parseClient_message read).1
      cases message with
      | newObject seq id =>
          cases received with
          | newObject seq' id' => exact absurd ⟨_, _, rfl⟩ announces
          | _ => cases type
      | _ => rfl
    rw [other, List.append_nil]
    refine copied.made acts (fun seq id is => announces ?_) few
    cases is
    exact ⟨_, _, rfl⟩

/-- What the server does keeps the table, when it makes objects for sequences that were used. -/
theorem server {impls : Server.Impls} {server : CServerClient} {act : Server.Act} {toServer : Nat}
    (copied : Copied s) (acts : s.server.act impls act = some (.ok server))
    (used : ∀ seq, act.madeFor = some seq → seq.toNat ≤ s.used)
    (agreed : Agreed { s with server, toServer }) : Copied { s with server, toServer } where
  agreed := agreed
  kept := copied.kept
  tagged := copied.tagged
  seated := copied.seated
  inside := copied.inside.trans (sent_of_act acts).length_le
  asked := by
    show ∀ handle ∈ newObjects server.sent, _
    rcases act_announces acts with nothing | ⟨seq, for_, announced⟩
    · rw [nothing]
      exact copied.asked
    · rw [announced]
      exact List.forall_mem_append.mpr
        ⟨copied.asked, List.forall_mem_singleton.mpr (used seq for_)⟩
  same := by
    show ∀ handle ∈ s.client.handles, handle.2 = latest (newObjects (server.sent.take _)) handle.1
    rw [take_of_grows (sent_of_act acts) copied.inside]
    exact copied.same

/-- The sequence of a bind that is taken has been used. -/
theorem used_of_bind {heap : Heap} {sent : Sent} {protocol : Str} {seq version : UInt32}
    (copied : Copied s) (listed : sent ∈ s.client.sent)
    (reads : Reads (parseServer heap) sent.message (.bindProtocol protocol seq version)) :
    seq.toNat ≤ s.used := by
  have type : sent.message.type = .bindProtocol := by
    obtain ⟨data, len, left, bytes, read⟩ := reads
    exact type_eq (copied.tagged sent listed) bytes (parseServer_message read).1
  cases is : sent.message with
  | bindProtocol protocol' seq' version' =>
      rw [is] at reads
      obtain rfl := taken_bindProtocol reads
      have seated := copied.seated protocol' seq version' (List.mem_map.mpr ⟨sent, listed, is⟩)
      refine copied.agreed.sequenced.used seq ?_
      rwa [CClientSocket.handles, List.map_map]
  | _ =>
      rw [is] at type
      cases type

/-- **A step keeps the table**, while there are sequences and identifiers left. -/
theorem step {cfg : Config} {t : System} {event : Event} (copied : Copied s)
    (step : Step cfg s event t) (may : requested s event) (few : Few t) : Copied t := by
  have agreed := copied.agreed.step step few
  cases step with
  | clientActs own acts =>
      refine copied.client acts agreed copied.inside (copied.made acts ?_ few.1)
      exact fun _ _ is => absurd own (is ▸ not_false)
  | clientTakes next reads acts => exact copied.clientTakes next reads acts agreed few.1
  | @serverActs act server own acts =>
      refine copied.server acts (fun seq for_ => ?_) agreed
      cases act with
      | createObject protocol object version seq' =>
          cases for_
          exact may
      | receive => cases own
      | _ => cases for_
  | @serverTakes sent received server clean next reads acts =>
      refine copied.server acts (fun seq for_ => ?_) agreed
      cases received with
      | bindProtocol protocol seq' version =>
          cases for_
          exact copied.used_of_bind (List.mem_of_getElem? next) reads
      | _ => cases for_

end Copied

theorem copied_of_run {cfg : Config} {s : System} (run : Run cfg requested {} s) (few : Few s) :
    Copied s :=
  run.invariant (I := fun s => Few s → Copied s)
    (fun _ _ _ may step copied few => (copied (few.of_step step)).step step may few)
    (fun _ => copied_start) few

/-- **The table of the client is that of the server, as far as it has been read**: an object has
the identifier of the last object that was announced for its sequence among the messages that
the client has taken, and none if there is none. -/
theorem table_replicated {cfg : Config} {s : System} (run : Run cfg requested {} s)
    (sequences : s.used < 2 ^ 32 - 1) (identifiers : s.server.objects.length < 2 ^ 32 - 1) :
    ∀ object ∈ s.client.objects,
      object.id = latest (newObjects (s.server.sent.take s.toClient)) object.seq :=
  fun _ listed => (copied_of_run run ⟨sequences, identifiers⟩).same _ (List.mem_map_of_mem listed)

/-! ## An object that is announced twice -/

/-- The server has made a second object for the sequence of the first. -/
def renamed : System where
  client := {
    objects := [{ id := 2, version := 1, seq := 1, protocolName := [0], spec := some parent }]
    seq := 1
    sent := [⟨.hello, none⟩, ⟨.bindProtocol [0] 1 1, none⟩, ⟨.handshakeAck 1, none⟩] }
  server := {
    firstPollDone := true
    maxId := 3
    objects := [{ id := 1, version := 1, protocolName := [0], spec := some parent },
      { id := 2, version := 1, protocolName := [0], spec := some parent }]
    sent := [.handshakeBegin [1], .newObject 1 1, .newObject 1 2] }
  toServer := 2
  toClient := 3
  used := 1

theorem run_renamed : Run relatives requested {} renamed := by
  have binds := @Run.step relatives requested {} _ _ _ .refl
    (@Step.clientActs _ _ (.bindProtocol family 1) _ trivial rfl) trivial
  have greeted := Run.step binds
    (@Step.serverTakes _ _ _ .hello _ rfl rfl (.of 7 [] (by decide) (by rfl)) rfl) trivial
  have made := Run.step greeted
    (@Step.serverTakes _ _ _ (.bindProtocol [0] 1 1) _ rfl rfl (.of 15 [] (by decide) (by rfl)) rfl)
    trivial
  have again := Run.step made
    (@Step.serverActs _ _ (.createObject [0] [] 1 1) _ trivial rfl) (Nat.le_refl 1)
  have begun := Run.step again
    (@Step.clientTakes _ _ _ (.handshakeBegin [1]) _ rfl (.of 9 [] (by decide) (by rfl)) rfl)
    trivial
  have first := Run.step begun
    (@Step.clientTakes _ _ _ (.newObject 1 1) _ rfl (.of 12 [] (by decide) (by rfl)) rfl) trivial
  exact Run.step first
    (@Step.clientTakes _ _ _ (.newObject 1 2) _ rfl (.of 12 [] (by decide) (by rfl)) rfl) trivial

/-- The object has the second identifier. -/
theorem table_replicated_renamed :
    2 = latest (newObjects (renamed.server.sent.take renamed.toClient)) 1 := by
  have listed : ({ id := 2, version := 1, seq := 1, protocolName := [0], spec := some parent } :
      IWireObject) ∈ renamed.client.objects := List.mem_singleton.mpr rfl
  exact table_replicated run_renamed (by decide) (by decide) _ listed

end Hyprwire.Link
