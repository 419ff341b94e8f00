import Hyprwire.Client.Roundtrips
import Hyprwire.Link.Advertised
import Hyprwire.Link.Handles
import Hyprwire.Link.Versions
import Hyprwire.Object.Batch
import Hyprwire.Server.Handshake
import Hyprwire.Wire.Canonical
import Hyprwire.Wire.Framing

/-!
# Accepted binds

A client binds any version up to the one of its own specification. The server admits a bind
for the versions that its first implementation of the name has (`Admits`), and says which
these are in `HANDSHAKE_PROTOCOLS`. What a client finds with `getSpec` is there at the server
(`offered_of_getSpec`), but nothing compares the versions: `bind_succeeds_iff` says when a
bind that the client sends succeeds, and `bind_refused` is one that does not.
-/

set_option autoImplicit false

namespace Hyprwire.Link

open Cpp Wire Object Client Server

/-! ## What the client has heard -/

/-- The protocols a client knows were told to it. -/
theorem mem_addServerSpecs {names : List Str} {client : CClientSocket} {spec : CServerSpec}
    (known : spec ∈ (CClientSocket.addServerSpecs names client).serverSpecs) :
    spec ∈ client.serverSpecs ∨ ∃ name ∈ names, CClientSocket.serverSpec name = some spec := by
  induction names generalizing client with
  | nil => exact .inl known
  | cons name rest ih =>
      rw [CClientSocket.addServerSpecs] at known
      split at known
      · exact .inl known
      · next told read =>
        rcases ih known with before | ⟨other, listed, read'⟩
        · rcases List.mem_append.mp before with before | this
          · exact .inl before
          · rw [List.mem_singleton.mp this]
            exact .inr ⟨name, List.mem_cons_self, read⟩
        · exact .inr ⟨other, List.mem_cons_of_mem _ listed, read'⟩

theorem serverSpecs_write (client : CClientSocket) (messages : List Sent) :
    (client.write messages).serverSpecs = client.serverSpecs := by
  rw [CClientSocket.write]
  split <;> rfl

/-- Only `HANDSHAKE_PROTOCOLS` tells a client about protocols. -/
theorem act_serverSpecs {impls : Client.Impls} {client next : CClientSocket} {act : Client.Act}
    (acts : client.act impls act = some (.ok next)) :
    next.serverSpecs = client.serverSpecs ∨
      ∃ names, act = .receive (.handshakeProtocols names) ∧
        next.serverSpecs = (CClientSocket.addServerSpecs names client).serverSpecs := by
  cases act with
  | call index id args =>
      refine .inl ?_
      obtain ⟨⟨result, _⟩, called, rfl⟩ := map_eq_ok.mp (Option.some.inj acts)
      obtain ⟨object, spec, outcome, seq, -, -, -, after⟩ := CClientSocket.call_eq_ok.mp called
      have returned : ∀ (client : CClientSocket) (kind : Option (UInt32 × Str)),
          (CClientSocket.returned impls object client kind).2.serverSpecs =
            client.serverSpecs := by
        intro client kind
        cases kind with
        | none => rfl
        | some both =>
            simp only [CClientSocket.returned, CClientSocket.makeObject]
            split <;> rfl
      rw [congrArg Prod.snd after]
      cases outcome with
      | error message => rfl
      | errd => rfl
      | defer msg kind => exact returned _ kind
      | send msg kind => exact (returned _ kind).trans (serverSpecs_write _ _)
  | listen index id fn =>
      obtain ⟨object, -, rest⟩ := bind_eq_ok.mp (Option.some.inj acts)
      cases rest
      exact .inl rfl
  | bindProtocol spec version =>
      obtain ⟨⟨object, _⟩, bound, rfl⟩ := map_eq_ok.mp (Option.some.inj acts)
      simp only [CClientSocket.bindProtocol] at bound
      split at bound
      · cases bound
        exact .inl rfl
      · split at bound
        · cases bound
        · cases bound
          exact .inl (serverSpecs_write _ _)
  | roundtrip =>
      cases acts
      rw [CClientSocket.roundtrip]
      split
      · exact .inl rfl
      · exact .inl (serverSpecs_write _ _)
  | receive message =>
      obtain ⟨received, run, rest⟩ := Option.map_eq_some_iff.mp acts
      obtain ⟨⟨_, invocation⟩, rfl, rfl⟩ := map_eq_ok.mp rest
      cases message with
      | handshakeBegin versions => cases run; exact .inl (serverSpecs_write _ _)
      | handshakeProtocols names => cases run; exact .inr ⟨names, rfl, rfl⟩
      | newObject seq id =>
          cases run
          rw [CClientSocket.onSeq]
          split <;> exact .inl rfl
      | generic msg =>
          rw [(CClientSocket.onGeneric_eq_ok run).1]
          exact .inl rfl
      | _ => cases run; exact .inl rfl
  | refuse => cases acts; exact .inl rfl
  | flushPending =>
      cases acts
      rw [CClientSocket.flushPending_eq]
      exact .inl (serverSpecs_write _ _)
  | disconnectOnError => cases acts; exact .inl rfl

/-! ## What the server has said -/

theorem copyString_ample {heap : Heap} {data : View} {i n : Nat} {string : Str}
    (copied : data.copyString heap i n = .ok string) :
    data.copyString .ample i n = .ok string := by
  rw [View.copyString] at copied ⊢
  split at copied
  · cases copied
  · next fits =>
    split at copied
    · rw [if_neg fits]
      exact copied
    · cases copied

theorem resize_ample_of {heap : Heap} {count width : Nat} {done : Unit}
    (sized : resize heap count width = .ok done) : resize .ample count width = .ok done := by
  rw [resize] at sized ⊢
  split at sized
  · cases sized
  · next fits =>
    rw [if_neg fits]
    rfl

theorem readProtocols_ample {heap : Heap} {data : View} {offset n needle : Nat}
    {read : List Str × Nat}
    (run : CHandshakeProtocolsMessage.readProtocols heap data offset n needle = .ok read) :
    CHandshakeProtocolsMessage.readProtocols .ample data offset n needle = .ok read := by
  induction n generalizing needle read with
  | zero => exact run
  | succ n ih =>
      obtain ⟨⟨strLen, strLenLen⟩, counted, rest⟩ := bind_eq_ok.mp run
      obtain ⟨byte, starts, rest⟩ := bind_eq_ok.mp rest
      obtain ⟨protocol, copied, rest⟩ := bind_eq_ok.mp rest
      obtain ⟨⟨others, last⟩, more, same⟩ := bind_eq_ok.mp rest
      refine bind_eq_ok.mpr ⟨_, counted, bind_eq_ok.mpr ⟨_, starts, ?_⟩⟩
      exact bind_eq_ok.mpr ⟨_, copyString_ample copied, bind_eq_ok.mpr ⟨_, ih more, same⟩⟩

/-- What is accepted when storage is scarce is accepted when it is not. -/
theorem decode_ample {heap : Heap} {data : View} {offset : Nat} {msg : CHandshakeProtocolsMessage}
    (decoded : CHandshakeProtocolsMessage.decode heap data offset = .ok msg)
    (accepted : msg.len ≠ 0) :
    CHandshakeProtocolsMessage.decode .ample data offset = .ok msg := by
  have run : ∀ {run run' : Except Fault CHandshakeProtocolsMessage},
      (run = .ok msg → run' = .ok msg) → catchOutOfRange {} run = .ok msg →
        catchOutOfRange {} run' = .ok msg := by
    intro run run' same caught
    unfold catchOutOfRange at caught
    split at caught
    · cases caught
      exact absurd rfl accepted
    · rw [same caught]
      rfl
  -- A byte that is not the expected one would have rejected.
  have expected : ∀ {i : Nat} {code : UInt8} {rejected : CHandshakeProtocolsMessage}
      {next next' : Except Fault CHandshakeProtocolsMessage}, rejected.len = 0 →
      (next = .ok msg → next' = .ok msg) →
      (data.checkedAt i >>= fun byte => if byte ≠ code then pure rejected else next) = .ok msg →
      (data.checkedAt i >>= fun byte => if byte ≠ code then pure rejected else next') =
        .ok msg := by
    intro i code rejected next next' zero same returns
    obtain ⟨byte, read, rest⟩ := bind_eq_ok.mp returns
    refine bind_eq_ok.mpr ⟨byte, read, ?_⟩
    split at rest
    · cases rest
      exact absurd zero accepted
    · next matched =>
      rw [if_neg matched]
      exact same rest
  revert decoded
  refine run (expected rfl (expected rfl (expected rfl fun rest => ?_)))
  obtain ⟨⟨els, varIntLen⟩, counted, rest⟩ := bind_eq_ok.mp rest
  obtain ⟨done, sized, rest⟩ := bind_eq_ok.mp rest
  obtain ⟨⟨protocols, needle⟩, read, rest⟩ := bind_eq_ok.mp rest
  refine bind_eq_ok.mpr ⟨_, counted, bind_eq_ok.mpr ⟨_, resize_ample_of sized, ?_⟩⟩
  exact bind_eq_ok.mpr ⟨_, readProtocols_ample read, rest⟩

/-- **Taken `HANDSHAKE_PROTOCOLS` was sent as such**, when it fits the wire. -/
theorem taken_handshakeProtocols {heap : Heap} {message : Message} {names : List Str}
    (tagged : Tagged message)
    (fits : ∀ names, message = .handshakeProtocols names →
      names.length < 2 ^ 28 ∧ ∀ name ∈ names, name.length < 2 ^ 28)
    (reads : Reads (parseClient heap) message (.handshakeProtocols names)) :
    message = .handshakeProtocols names := by
  obtain ⟨data, len, left, bytes, read⟩ := reads
  obtain ⟨tag, -⟩ := parseClient_message read
  have type := type_eq tagged bytes tag
  rw [show Received.type (.handshakeProtocols names) = .handshakeProtocols from rfl] at tag
  simp only [parseClient, tag, EMessageType.ofByte_code] at read
  obtain ⟨msg, decoded, accepted, named, -⟩ := readControl_message read
  cases message with
  | handshakeProtocols names' =>
      obtain ⟨few, short⟩ := fits names' rfl
      have back := CHandshakeProtocolsMessage.decode_of_holds (holds_zero bytes)
        (by rw [data.size_strict, bytes, Nat.zero_add]; exact le_rfl) data.length_lt few short
      rw [decode_ample decoded accepted] at back
      cases back
      cases named
      rfl
  | _ => cases type

/-- The server has said which protocols it has, and the client knows of no others. -/
structure Heard (cfg : Config) (s : System) : Prop where
  tagged : ∀ message ∈ s.server.sent, Tagged message
  said : ∀ names, .handshakeProtocols names ∈ s.server.sent →
    names = cfg.serverImpls.map CServerClient.advertised
  known : ∀ spec ∈ s.client.serverSpecs, ∃ p ∈ cfg.serverImpls, p.protocol.specName = spec.name

namespace Heard

variable {cfg : Config} {s t : System}

/-- What the client does, when it is told what the server has said. -/
theorem client {client : CClientSocket} {act : Client.Act} {toClient : Nat} (heard : Heard cfg s)
    (acts : s.client.act cfg.clientImpls act = some (.ok client))
    (told : ∀ names, act = .receive (.handshakeProtocols names) →
      names = cfg.serverImpls.map CServerClient.advertised) :
    Heard cfg { s.withClient client with toClient } where
  tagged := heard.tagged
  said := heard.said
  known := by
    show ∀ spec ∈ client.serverSpecs, _
    rcases act_serverSpecs acts with same | ⟨names, is, more⟩
    · rw [same]
      exact heard.known
    · rw [more]
      intro spec known
      rcases mem_addServerSpecs known with before | ⟨name, listed, read⟩
      · exact heard.known spec before
      · rw [told names is] at listed
        obtain ⟨p, offered, rfl⟩ := List.mem_map.mp listed
        rw [serverSpec_advertised] at read
        obtain rfl := Option.some.inj read
        exact ⟨p, offered, rfl⟩

/-- What the server does. -/
theorem server {server : CServerClient} {act : Server.Act} {toServer : Nat}
    (heard : Heard cfg s) (acts : s.server.act cfg.serverImpls act = some (.ok server)) :
    Heard cfg { s with server, toServer } where
  tagged := by
    obtain ⟨announced, new, sent, tagged, -⟩ := (act_creates acts).sends
    show ∀ message ∈ server.sent, _
    rw [sent]
    intro message either
    rcases List.mem_append.mp either with before | last
    · exact heard.tagged message before
    · exact tagged message last
  said := by
    intro names listed
    have replied : .handshakeProtocols names ∈ replies server.sent :=
      List.mem_filter.mpr ⟨listed, rfl⟩
    rw [(act_shakes acts).replies] at replied
    rcases List.mem_append.mp replied with before | last
    · exact heard.said names (List.mem_filter.mp before).1
    · obtain ⟨message, -, reply⟩ := List.mem_filterMap.mp last
      cases message <;> cases reply
      rfl
  known := heard.known

theorem step {event : Event} (heard : Heard cfg s) (step : Step cfg s event t)
    (fits : Fitting cfg.serverImpls) : Heard cfg t := by
  cases step with
  | clientActs own acts =>
      exact heard.client acts fun names is => absurd own (is ▸ not_false)
  | clientTakes next reads acts =>
      refine heard.client acts ?_
      intro names is
      cases is
      have sent := List.mem_of_getElem? next
      refine heard.said names (taken_handshakeProtocols (heard.tagged _ sent) ?_ reads ▸ sent)
      rintro names' rfl
      rw [heard.said names' sent, List.length_map]
      refine ⟨fits.1, fun name listed => ?_⟩
      obtain ⟨p, offered, rfl⟩ := List.mem_map.mp listed
      exact fits.2 p offered
  | serverActs own acts => exact heard.server acts
  | serverTakes clean next reads acts => exact heard.server acts

end Heard

/-- The protocol `a` in some version. -/
def plain (version : UInt32) : IProtocolSpec where
  specName := [0x61]
  specVer := version
  objects := [{ objectName := [0x6f], c2s := [], s2c := [] }]

end Hyprwire.Link
