import Hyprwire.Wire.Progress
import Hyprwire.Wire.SocketHelpers

/-!
# Writing to a socket

`sendMessage` calls `sendmsg` until a call does something else than to fail for want of
room, and does not look at how much that call has taken. What the calls come to is a
parameter (`Sendmsg`). A message is delivered, its bytes and its descriptors once, exactly
when the first call that does not fail so takes all of it (`sendMessage_delivers_iff`): an
interrupted call loses the message, and a short one its end, which puts the messages behind
it out of step (`short_write`).
-/

set_option autoImplicit false

namespace Hyprwire.Wire

open Cpp

/-! ## `sendmsg` -/

/-- The errors of `sendmsg`, as far as they are told apart: no room (`EAGAIN` or
`EWOULDBLOCK`), a signal (`EINTR`), and those that end the connection. -/
inductive Errno where
  | again
  | interrupted
  | fatal
  deriving DecidableEq, Repr

/-- What a call of `sendmsg` comes to. One that takes bytes leaves `errno` at what it was. -/
inductive Sendmsg where
  | fails (errno : Errno)
  | takes (count : Nat) (errno : Errno)
  deriving DecidableEq, Repr

/-- `msghdr`: the bytes, and the control data if there are descriptors. -/
structure MsgHdr where
  iov : List UInt8
  control : Option (List Fd)

/-- A count in an `int`. -/
def toInt (count : Nat) : Int := (count : Int).bmod (2 ^ 32)

theorem toInt_of_lt {count : Nat} (small : count < 2 ^ 31) : toInt count = count := by
  unfold toInt
  apply Int.bmod_eq_of_le
  · exact le_trans (by decide) (Int.natCast_nonneg count)
  · exact lt_of_lt_of_le (Int.ofNat_lt.mpr small) (by decide)

namespace Sendmsg

/-- What is returned. -/
def ret : Sendmsg → Int
  | fails _ => -1
  | takes count _ => toInt count

def errno : Sendmsg → Errno
  | fails errno => errno
  | takes _ errno => errno

/-- What the kernel has taken: the first bytes, with all of the descriptors. -/
def taken (msg : MsgHdr) : Sendmsg → List Segment
  | fails _ => []
  | takes count _ => [{ bytes := msg.iov.take count, fds := msg.control.getD [] }]

/-- What a call can come to: one that takes bytes takes at least one, and not more than
there are or than one call transfers. -/
def Possible (msg : MsgHdr) : Sendmsg → Prop
  | fails _ => True
  | takes count _ => 0 < count ∧ count ≤ msg.iov.length ∧ count < 2 ^ 31

end Sendmsg

/-! ## `sendMessage` -/

/-- The header that `sendMessage` builds. It is not changed between the calls. -/
def msgHdr (message : Message) : MsgHdr where
  iov := message.data
  control := if message.fds = [] then none else some message.fds

/-- The loop of `sendMessage`, and what the kernel has taken when it returns. The wait for
room is left out. -/
def sendLoop (msg : MsgHdr) : List Sendmsg → Option (List Segment)
  | [] => none
  | call :: calls =>
      if call.ret < 0 ∧ call.errno = .again then
        (sendLoop msg calls).map fun taken => call.taken msg ++ taken
      else
        some (call.taken msg)

theorem sendLoop_cons (msg : MsgHdr) (call : Sendmsg) (calls : List Sendmsg) :
    sendLoop msg (call :: calls) =
      if call.ret < 0 ∧ call.errno = .again then
        (sendLoop msg calls).map fun taken => call.taken msg ++ taken
      else
        some (call.taken msg) := rfl

/-- Nothing is written when the descriptor is not valid. -/
def sendWhile (fdIsValid : Bool) (message : Message) (calls : List Sendmsg) :
    Option (List Segment) :=
  if fdIsValid then sendLoop (msgHdr message) calls else some []

/-- `CClientSocket::sendMessage`, with the calls of `sendmsg` it makes. -/
def CClientSocket.sendMessage (fdIsValid : Bool) (message : Message) (calls : List Sendmsg) :
    Option (List Segment) := sendWhile fdIsValid message calls

/-- `CServerClient::sendMessage`, with the calls of `sendmsg` it makes. -/
def CServerClient.sendMessage (fdIsValid : Bool) (message : Message) (calls : List Sendmsg) :
    Option (List Segment) := sendWhile fdIsValid message calls

/-- `sendMessage` of an end of the connection. -/
def Side.sendMessage : Side → Bool → Message → List Sendmsg → Option (List Segment)
  | .client => CClientSocket.sendMessage
  | .server => CServerClient.sendMessage

theorem Side.sendMessage_eq (side : Side) (message : Message) (calls : List Sendmsg) :
    side.sendMessage true message calls = sendLoop (msgHdr message) calls := by
  cases side with
  | client => rfl
  | server => rfl

/-! ## Delivery -/

/-- A message that is sent on a valid descriptor, what the calls of `sendmsg` come to, and
what the kernel has taken when `sendMessage` returns. -/
structure Written (side : Side) where
  message : Message
  calls : List Sendmsg
  taken : List Segment
  tagged : Tagged message
  possible : ∀ call ∈ calls, call.Possible (msgHdr message)
  healthy : Sendmsg.fails .fatal ∉ calls
  returns : side.sendMessage true message calls = some taken

namespace Written

variable {side : Side}

/-- The bytes have been taken, each once and in order, and so have the descriptors. -/
def Delivered (written : Written side) : Prop :=
  segmentBytes written.taken = written.message.data ∧
    segmentFds written.taken = written.message.fds

/-- The first call that does not fail for want of room takes the whole message. -/
def Whole (written : Written side) : Prop :=
  ∃ waits errno rest, (∀ call ∈ waits, call = Sendmsg.fails .again) ∧
    written.calls = waits ++ Sendmsg.takes written.message.data.length errno :: rest

end Written

/-- The bytes that arrive at the other end. -/
def stream {side : Side} (all : List (Written side)) : List UInt8 :=
  all.flatMap fun written => segmentBytes written.taken

section Loop

variable {msg : MsgHdr} {call : Sendmsg} {calls : List Sendmsg}

/-- A count that is returned is not negative. -/
theorem Sendmsg.Possible.ret {count : Nat} {errno : Errno}
    (possible : (Sendmsg.takes count errno).Possible msg) :
    (Sendmsg.takes count errno).ret = count := by
  rw [Sendmsg.ret]
  exact toInt_of_lt possible.2.2

theorem sendLoop_wait (calls : List Sendmsg) :
    sendLoop msg (.fails .again :: calls) = sendLoop msg calls := by
  have negative : (Sendmsg.fails .again).ret < 0 ∧ (Sendmsg.fails .again).errno = .again :=
    ⟨by decide, rfl⟩
  rw [sendLoop_cons, if_pos negative]
  exact Option.map_id'

theorem sendLoop_fails {errno : Errno} (other : errno ≠ .again) (calls : List Sendmsg) :
    sendLoop msg (.fails errno :: calls) = some [] := by
  have done : ¬ ((Sendmsg.fails errno).ret < 0 ∧ (Sendmsg.fails errno).errno = .again) :=
    fun both => other both.2
  rw [sendLoop_cons, if_neg done]
  rfl

/-- A call that takes bytes is the last. -/
theorem sendLoop_takes {count : Nat} {errno : Errno}
    (possible : (Sendmsg.takes count errno).Possible msg) (calls : List Sendmsg) :
    sendLoop msg (.takes count errno :: calls) =
      some [⟨msg.iov.take count, msg.control.getD []⟩] := by
  have done : ¬ ((Sendmsg.takes count errno).ret < 0 ∧
      (Sendmsg.takes count errno).errno = .again) := by
    rintro ⟨negative, -⟩
    rw [possible.ret] at negative
    exact Int.not_lt.mpr (Int.natCast_nonneg count) negative
  rw [sendLoop_cons, if_neg done]
  rfl

theorem sendLoop_waits {waits : List Sendmsg} (all : ∀ call ∈ waits, call = .fails .again)
    (calls : List Sendmsg) : sendLoop msg (waits ++ calls) = sendLoop msg calls := by
  induction waits with
  | nil => rfl
  | cons wait waits ih =>
      obtain rfl := all wait List.mem_cons_self
      rw [List.cons_append, sendLoop_wait]
      exact ih fun call member => all call (List.mem_cons_of_mem _ member)

/-- **How the loop ends**: behind some calls that fail for want of room, with another
failure or with a call that takes bytes. -/
theorem sendLoop_eq_some {taken : List Segment}
    (possible : ∀ call ∈ calls, call.Possible msg) (returns : sendLoop msg calls = some taken) :
    ∃ waits last rest, (∀ call ∈ waits, call = .fails .again) ∧ calls = waits ++ last :: rest ∧
      last ≠ .fails .again ∧ taken = last.taken msg := by
  induction calls with
  | nil => cases returns
  | cons call calls ih =>
      have here := possible call List.mem_cons_self
      have later : ∀ call ∈ calls, call.Possible msg := fun next member =>
        possible next (List.mem_cons_of_mem _ member)
      cases call with
      | takes count errno =>
          rw [sendLoop_takes here] at returns
          cases returns
          exact ⟨[], _, calls, fun _ none => absurd none List.not_mem_nil, rfl, Sendmsg.noConfusion,
            rfl⟩
      | fails errno =>
          by_cases waits : errno = .again
          · subst waits
            rw [sendLoop_wait] at returns
            obtain ⟨waits, last, rest, all, rfl, ends, rfl⟩ := ih later returns
            exact ⟨.fails .again :: waits, last, rest, List.forall_mem_cons.mpr ⟨rfl, all⟩, rfl,
              ends, rfl⟩
          · rw [sendLoop_fails waits] at returns
            cases returns
            refine ⟨[], _, calls, fun _ none => absurd none List.not_mem_nil, rfl, ?_, rfl⟩
            exact fun same => waits (Sendmsg.fails.inj same)

end Loop

/-- The descriptors go with the header. -/
theorem msgHdr_fds (message : Message) : (msgHdr message).control.getD [] = message.fds := by
  simp only [msgHdr]
  split
  · next none => rw [none]; rfl
  · rfl

namespace Written

variable {side : Side}

theorem data_ne_nil (written : Written side) : written.message.data ≠ [] := by
  intro none
  have head := written.tagged.head
  rw [none] at head
  cases head

/-- A message that one call takes whole is one segment of what is queued. -/
theorem taken_of_whole (written : Written side) (whole : written.Whole) :
    written.taken = [{ bytes := written.message.data, fds := written.message.fds }] := by
  obtain ⟨waits, errno, rest, all, calls⟩ := whole
  have member : Sendmsg.takes written.message.data.length errno ∈ written.calls :=
    calls ▸ List.mem_append_cons_self
  have returns := written.returns
  rw [Side.sendMessage_eq, calls, sendLoop_waits all,
    sendLoop_takes (written.possible _ member)] at returns
  rw [← Option.some.inj returns, msgHdr_fds]
  exact congrArg (fun bytes => [Segment.mk bytes written.message.fds]) List.take_length

/-- **A message is delivered exactly when the first call with room takes the whole of it.** -/
theorem delivered_iff (written : Written side) : written.Delivered ↔ written.Whole := by
  constructor
  · rintro ⟨bytes, -⟩
    have returns := written.returns
    rw [Side.sendMessage_eq] at returns
    obtain ⟨waits, last, rest, all, calls, -, taken⟩ := sendLoop_eq_some written.possible returns
    have possible := written.possible last (calls ▸ List.mem_append_cons_self)
    rw [taken] at bytes
    cases last with
    | fails errno => exact absurd bytes.symm written.data_ne_nil
    | takes count errno =>
        refine ⟨waits, errno, rest, all, ?_⟩
        have length : count = written.message.data.length := by
          have same := congrArg List.length bytes
          rw [segmentBytes, Sendmsg.taken, List.flatMap_singleton, List.length_take_of_le
            possible.2.1] at same
          exact same
        rw [calls, length]
  · intro whole
    rw [Delivered, written.taken_of_whole whole, segmentBytes, segmentFds,
      List.flatMap_singleton, List.flatMap_singleton]
    exact ⟨rfl, rfl⟩

/-- Messages that are delivered make up the stream. -/
theorem stream_of_delivered {all : List (Written side)}
    (delivered : ∀ written ∈ all, written.Delivered) :
    stream all = all.flatMap fun written => written.message.data := by
  rw [stream]
  exact List.flatMap_congr fun written member => (delivered written member).1

end Written

/-- **What is sent is delivered**, and the stream is what was sent, exactly when for every
message the first call that does not fail for want of room takes the whole of it. -/
theorem sendMessage_delivers_iff {side : Side} (all : List (Written side)) :
    ((∀ written ∈ all, written.Delivered) ∧
        stream all = all.flatMap fun written => written.message.data) ↔
      ∀ written ∈ all, written.Whole := by
  constructor
  · rintro ⟨delivered, -⟩ written member
    exact written.delivered_iff.mp (delivered written member)
  · intro whole
    have delivered : ∀ written ∈ all, written.Delivered := fun written member =>
      written.delivered_iff.mpr (whole written member)
    exact ⟨delivered, Written.stream_of_delivered delivered⟩

/-- A call that takes three bytes of `SUP`. -/
def shortHello : Written .client where
  message := .hello
  calls := [.takes 3 .interrupted]
  taken := [⟨CHelloMessage.encode.take 3, []⟩]
  tagged := trivial
  possible := by
    intro call member
    rw [List.mem_singleton.mp member]
    exact ⟨by decide, by decide, by decide⟩
  healthy := by decide
  returns := by decide

/-- The end of a message that is written in part is lost. -/
theorem short_write : ¬ shortHello.Delivered ∧ stream [shortHello] ≠ Message.hello.data := by
  have short : stream [shortHello] ≠ Message.hello.data := by decide
  refine ⟨fun delivered => short ?_, short⟩
  rw [stream, List.flatMap_singleton]
  exact delivered.1

end Hyprwire.Wire
