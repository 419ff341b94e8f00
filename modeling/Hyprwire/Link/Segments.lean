import Hyprwire.Client.Segments
import Hyprwire.Server.Segments

/-!
# Several reads for one

The bytes of a batch of messages are the same however they are cut into reads, but what comes
of them is not: `segments_agree_iff` proves for both ends, and for every batch that they
accept, that several reads do what one read does exactly when each of them ends where a message
ends. A roundtrip request in two reads ends the connection (`request_cut`).
-/

set_option autoImplicit false

namespace Hyprwire.Link

open Cpp Wire Object

variable {α β : Type}

section Ends

variable {side : Side}

theorem flatMap_data (segmentation : Segmentation side) :
    segmentation.chunks.flatMap ByteVec.data = batchData segmentation.batch :=
  segmentation.cut.trans segmentation.bytes

theorem length_batchData_lt (segmentation : Segmentation side) :
    (batchData segmentation.batch).length < 2 ^ 63 := by
  rw [← segmentation.bytes]
  exact segmentation.whole.length_lt

end Ends

theorem server_agrees_iff {cfg : Server.Config α} (ample : cfg.heap = .ample)
    (segmentation : Segmentation .server) {s last : Server.ServerState α}
    (takes : Takes (Server.receiver cfg) s (segmentation.batch.map Outgoing.arrival) last)
    (fine : last.client.error = false) :
    segmentation.Agrees (Server.Dispatches cfg) Server.SameConnection s ↔
      Aligned segmentation.chunks segmentation.batch := by
  have lawful := Server.lawful cfg ample
  obtain ⟨u, handled', whole, same, order⟩ := lawful.feed_of_aligned segmentation.aligned_whole
    segmentation.noFds takes fine (lawful.refl s)
  have fine' : u.client.error = false := (lawful.error_same same).symm.trans fine
  constructor
  · rintro ⟨t, u', handled, handled'', feed, one, -, connection, -⟩
    obtain rfl := Endpoint.feed_unique whole (one.mono fun _ _ _ _ => Server.dispatches_iff.mp)
    have errors : t.client.error = u.client.error := by rw [← connection]
    exact lawful.aligned_of_feed (flatMap_data segmentation) (length_batchData_lt segmentation)
      segmentation.noFds takes fine (lawful.refl s)
      (feed.mono fun _ _ _ _ => Server.dispatches_iff.mp) (errors.trans fine')
  · intro aligned
    obtain ⟨t, handled, feed, same', order'⟩ := lawful.feed_of_aligned aligned
      segmentation.noFds takes fine (lawful.refl s)
    have ended : t.client.error = false := (lawful.error_same same').symm.trans fine
    refine ⟨t, u, handled, handled', feed.mono fun _ _ _ _ => Server.dispatches_iff.mpr,
      whole.mono fun _ _ _ _ => Server.dispatches_iff.mpr, order'.trans order.symm, ?_⟩
    have core : Server.SameCore t u := ⟨same'.1.symm.trans same.1, same'.2.symm.trans same.2⟩
    by_cases empty : segmentation.whole.data = []
    · have chunks := segmentation.chunks_eq_nil empty
      rw [chunks] at feed
      cases feed
      have skipped := @Endpoint.Dispatch.skipped _ (Server.endpoint cfg) segmentation.whole s
        (.inr empty)
      obtain rfl := Endpoint.feed_unique whole (.read skipped .done)
      exact ⟨rfl, rfl⟩
    · refine core.connection ?_
      have settled := Server.feed_settles whole
        (fun chunk member => List.mem_singleton.mp member ▸ empty) fine'
      rcases Server.feed_settles feed segmentation.nonempty ended with none | zero
      · have cut := segmentation.cut
        rw [none] at cut
        exact absurd cut.symm empty
      · rw [zero, settled.resolve_left (List.cons_ne_nil _ _)]

theorem client_agrees_iff {cfg : Client.Config β} (ample : cfg.heap = .ample)
    (segmentation : Segmentation .client) {s last : Client.ClientState β}
    (takes : Takes (Client.receiver cfg) s (segmentation.batch.map Outgoing.arrival) last)
    (fine : last.client.error = false) :
    segmentation.Agrees (Client.Dispatches cfg) (fun s t => s = t) s ↔
      Aligned segmentation.chunks segmentation.batch := by
  have lawful := Client.lawful cfg ample
  obtain ⟨u, handled', whole, rfl, order⟩ := lawful.feed_of_aligned segmentation.aligned_whole
    segmentation.noFds takes fine rfl
  constructor
  · rintro ⟨t, u', handled, handled'', feed, one, -, rfl⟩
    obtain rfl := Endpoint.feed_unique whole (one.mono fun _ _ _ _ => Client.dispatches_iff.mp)
    exact lawful.aligned_of_feed (flatMap_data segmentation) (length_batchData_lt segmentation)
      segmentation.noFds takes fine rfl (feed.mono fun _ _ _ _ => Client.dispatches_iff.mp) fine
  · intro aligned
    obtain ⟨t, handled, feed, rfl, order'⟩ := lawful.feed_of_aligned aligned
      segmentation.noFds takes fine rfl
    exact ⟨last, last, handled, handled', feed.mono fun _ _ _ _ => Client.dispatches_iff.mpr,
      whole.mono fun _ _ _ _ => Client.dispatches_iff.mpr, order'.trans order.symm, rfl⟩

/-- **Several reads do what one read does exactly when each ends where a message ends**, for
every batch that the end accepts and every way of cutting its bytes: on the server up to what
has been written, since a roundtrip is answered after each read, and on the client entirely. -/
theorem segments_agree_iff :
    (∀ (cfg : Server.Config α) (segmentation : Segmentation .server)
        (s last : Server.ServerState α), cfg.heap = .ample →
      Takes (Server.receiver cfg) s (segmentation.batch.map Outgoing.arrival) last →
      last.client.error = false →
      (segmentation.Agrees (Server.Dispatches cfg) Server.SameConnection s ↔
        Aligned segmentation.chunks segmentation.batch)) ∧
    ∀ (cfg : Client.Config β) (segmentation : Segmentation .client)
        (s last : Client.ClientState β), cfg.heap = .ample →
      Takes (Client.receiver cfg) s (segmentation.batch.map Outgoing.arrival) last →
      last.client.error = false →
      (segmentation.Agrees (Client.Dispatches cfg) (fun s t => s = t) s ↔
        Aligned segmentation.chunks segmentation.batch) :=
  ⟨fun _ segmentation _ _ ample takes fine => server_agrees_iff ample segmentation takes fine,
    fun _ segmentation _ _ ample takes fine => client_agrees_iff ample segmentation takes fine⟩

/-! ## Two roundtrips -/

/-- A server whose application does nothing. -/
def served : Server.Config Unit :=
  { impls := [], heap := .ample, app := ⟨fun _ _ => .done, fun _ _ _ => .done⟩, frames := 1 }

/-- A client whose listeners do nothing. -/
def listening : Client.Config Unit :=
  { impls := [], heap := .ample, listener := fun _ => .done, frames := 1 }

/-- The bytes of a roundtrip message. -/
def roundtripBytes (type seq : UInt8) : List UInt8 := [type, 0x10, seq, 0, 0, 0, 0]

/-- Two requests in two reads. -/
def requests : Segmentation .server where
  batch := [.roundtripRequest 1, .roundtripRequest 2]
  noFds := rfl
  whole := ⟨roundtripBytes 13 1 ++ roundtripBytes 13 2, by decide⟩
  bytes := by decide +kernel
  chunks := [⟨roundtripBytes 13 1, by decide⟩, ⟨roundtripBytes 13 2, by decide⟩]
  cut := rfl
  nonempty := by decide

/-- Two answers in two reads. -/
def answers : Segmentation .client where
  batch := [.roundtripDone 1, .roundtripDone 2]
  noFds := rfl
  whole := ⟨roundtripBytes 14 1 ++ roundtripBytes 14 2, by decide⟩
  bytes := by decide +kernel
  chunks := [⟨roundtripBytes 14 1, by decide⟩, ⟨roundtripBytes 14 2, by decide⟩]
  cut := rfl
  nonempty := by decide

theorem segments_agree_roundtrips :
    requests.Agrees (Server.Dispatches served) Server.SameConnection ⟨{}, ()⟩ ∧
      answers.Agrees (Client.Dispatches listening) (fun s t => s = t) ⟨{}, ()⟩ := by
  have asked : Aligned requests.chunks requests.batch :=
    @Aligned.cons _ _ _ [.roundtripRequest 1] _ (by decide +kernel)
      (@Aligned.cons _ _ _ [.roundtripRequest 2] _ (by decide +kernel) .nil)
  have answered : Aligned answers.chunks answers.batch :=
    @Aligned.cons _ _ _ [.roundtripDone 1] _ (by decide +kernel)
      (@Aligned.cons _ _ _ [.roundtripDone 2] _ (by decide +kernel) .nil)
  refine ⟨((@segments_agree_iff Unit Unit).1 served requests _
    ⟨{ scheduledRoundtripSeq := 2 }, ()⟩ rfl ?_ rfl).mpr asked,
    ((@segments_agree_iff Unit Unit).2 listening answers _
      ⟨{ lastAckdRoundtripSeq := 2 }, ()⟩ rfl ?_ rfl).mpr answered⟩
  · exact .cons rfl rfl (.cons rfl rfl .nil)
  · exact .cons rfl rfl (.cons rfl rfl .nil)

/-- A request whose first byte comes alone. -/
def cutRequest : Segmentation .server where
  batch := [.roundtripRequest 7]
  noFds := rfl
  whole := ⟨roundtripBytes 13 7, by decide⟩
  bytes := by decide +kernel
  chunks := [⟨[13], by decide⟩, ⟨[0x10, 7, 0, 0, 0, 0], by decide⟩]
  cut := rfl
  nonempty := by decide

/-- **A request in two reads ends the connection.** -/
theorem request_cut :
    ¬ ∀ (segmentation : Segmentation .server) (s last : Server.ServerState Unit),
      Takes (Server.receiver served) s (segmentation.batch.map Outgoing.arrival) last →
      last.client.error = false →
      segmentation.Agrees (Server.Dispatches served) Server.SameConnection s := by
  intro agree
  have lawful := Server.lawful served rfl
  have takes : Takes (Server.receiver served) ⟨{}, ()⟩ (cutRequest.batch.map Outgoing.arrival)
      ⟨{ scheduledRoundtripSeq := 7 }, ()⟩ := .cons rfl rfl .nil
  obtain ⟨t, u, _, _, feed, one, -, connection, -⟩ := agree cutRequest _ _ takes rfl
  have whole : Feed (Server.endpoint served).Dispatch [cutRequest.whole] ⟨{}, ()⟩ _ _ :=
    .read (@Endpoint.Dispatch.read _ _ _ _ 2 ⟨.parsedOk, ⟨{ scheduledRoundtripSeq := 7 }, ()⟩,
      [.roundtripRequest 7]⟩ rfl (by decide) rfl) .done
  obtain rfl := Endpoint.feed_unique (one.mono fun _ _ _ _ => Server.dispatches_iff.mp) whole
  have failed : (Server.endpoint served).Dispatch ⟨[13], by decide⟩ ⟨{}, ()⟩ _ _ :=
    @Endpoint.Dispatch.read _ _ _ _ 1 ⟨.parsedError, ⟨{}, ()⟩, []⟩ rfl (by decide) rfl
  cases feed.mono fun _ _ _ _ => Server.dispatches_iff.mp with
  | read first rest =>
      obtain ⟨rfl, -⟩ := first.unique failed
      have error := lawful.feed_error rest rfl
      have same : t.client.error = false := congrArg Server.CServerClient.error connection
      exact absurd (same.symm.trans error) Bool.false_ne_true

end Hyprwire.Link
