import Hyprwire.Server.ServerSocket

/-!
# Connections in error are dropped

A client in error is dropped by `dispatchExistingConnections` only at the end of a pass
that has found a hang-up, of this client or of another. `Follows` says what a pass does to
the clients: those that were listed keep their errors. From it, `Dispatching.errs` follows a
client through the passes of a dispatch, and `dispatchEvents_terminates_iff` says exactly
when no client in error is left: when every error is followed by a hang-up. `error_stays` is
a client that sends malformed bytes and stays connected.
-/

set_option autoImplicit false

namespace Hyprwire.Server

open Cpp Wire Object

variable {α : Type}

/-! ## What is kept -/

/-- The keys are given once, and the table is the one of the list. -/
structure Sound (s : CServerSocket α) : Prop where
  nodup : (s.clients.map Connection.key).Nodup
  below : ∀ c ∈ s.clients, c.key < s.nextKey
  synced : s.pollfds.map Pollfd.fd = s.internal ++ s.clients.map Connection.fd

theorem map_fd_recheckPollFds (s : CServerSocket α) :
    s.recheckPollFds.pollfds.map Pollfd.fd = s.internal ++ s.clients.map Connection.fd := by
  simp only [CServerSocket.recheckPollFds, List.map_map]
  exact List.map_id _

theorem setClient_keys (s : CServerSocket α) (key : Nat) (client : CServerClient) :
    (s.setClient key client).clients.map Connection.key = s.clients.map Connection.key := by
  simp only [CServerSocket.setClient, List.map_map]
  refine List.map_congr_left fun c _ => ?_
  simp only [Function.comp_apply]
  split <;> rfl

namespace Sound

variable {s : CServerSocket α}

theorem attempt (listening : Option Int) (wakeupFd : Int) (memory : α) :
    Sound (CServerSocket.attempt listening wakeupFd memory) where
  nodup := List.nodup_nil
  below := fun _ none => absurd none List.not_mem_nil
  synced := map_fd_recheckPollFds _

theorem memory (sound : Sound s) (memory : α) : Sound { s with memory } :=
  ⟨sound.nodup, sound.below, sound.synced⟩

theorem extractLoopFD (sound : Sound s) (exitFd : Int) : Sound (s.extractLoopFD exitFd) where
  nodup := sound.nodup
  below := sound.below
  synced := map_fd_recheckPollFds _

/-- Some of the clients are dropped, and the table is built anew. -/
theorem filter (sound : Sound s) (stays : Connection → Bool) :
    Sound (CServerSocket.recheckPollFds { s with clients := s.clients.filter stays }) where
  nodup := sound.nodup.sublist (List.filter_sublist.map _)
  below := fun c member => sound.below c (List.mem_of_mem_filter member)
  synced := map_fd_recheckPollFds _

theorem emplace (sound : Sound s) (fd : Int) : Sound (s.emplace fd) where
  nodup := by
    simp only [CServerSocket.emplace, CServerSocket.recheckPollFds, List.map_append, List.map_cons,
      List.map_nil]
    refine List.nodup_append.mpr ⟨sound.nodup, List.nodup_singleton _, ?_⟩
    intro key listed new one same
    obtain ⟨c, member, rfl⟩ := List.mem_map.mp listed
    rw [List.mem_singleton.mp one] at same
    exact absurd same (Nat.ne_of_lt (sound.below c member))
  below := by
    intro c member
    rcases List.mem_append.mp member with old | new
    · exact Nat.lt_succ_of_lt (sound.below c old)
    · rw [List.mem_singleton.mp new]
      exact Nat.lt_succ_self _
  synced := map_fd_recheckPollFds _

theorem poll (sound : Sound s) (found : Nat → Revents) : Sound (s.poll found) where
  nodup := sound.nodup
  below := sound.below
  synced := by
    refine Eq.trans ?_ sound.synced
    refine List.ext_getElem (by simp [CServerSocket.poll]) fun i _ _ => ?_
    simp [CServerSocket.poll]

/-- A client changes, but not the list of them. -/
theorem setClient (sound : Sound s) (key : Nat) (client : CServerClient) :
    Sound (s.setClient key client) := by
  have fds : (s.setClient key client).clients.map Connection.fd = s.clients.map Connection.fd := by
    simp only [CServerSocket.setClient, List.map_map]
    refine List.map_congr_left fun c _ => ?_
    simp only [Function.comp_apply]
    split <;> rfl
  refine ⟨setClient_keys s key client ▸ sound.nodup, ?_, ?_⟩
  · intro c member
    obtain ⟨c, listed, rfl⟩ := List.mem_map.mp member
    split
    · exact sound.below c listed
    · exact sound.below c listed
  · rw [fds]
    exact sound.synced

/-- A client is the only one with its key. -/
theorem eq_of_key (sound : Sound s) {c c' : Connection} (listed : c ∈ s.clients)
    (listed' : c' ∈ s.clients) (same : c.key = c'.key) : c = c' :=
  List.inj_on_of_nodup_map sound.nodup listed listed' same

end Sound

/-- What the turns of a pass make of a socket: a client is new, or was listed before and has
kept its error. -/
structure Follows (s t : CServerSocket α) : Prop where
  sound : Sound t
  next : s.nextKey ≤ t.nextKey
  old : ∀ c' ∈ t.clients, s.nextKey ≤ c'.key ∨
    ∃ c ∈ s.clients, c.key = c'.key ∧ (c.client.error = true → c'.client.error = true)

namespace Follows

variable {s t u : CServerSocket α}

theorem refl (sound : Sound s) : Follows s s :=
  ⟨sound, le_rfl, fun c member => .inr ⟨c, member, rfl, id⟩⟩

theorem trans (first : Follows s t) (second : Follows t u) : Follows s u where
  sound := second.sound
  next := first.next.trans second.next
  old := by
    intro c'' member
    rcases second.old c'' member with new | ⟨c', member', key', error'⟩
    · exact .inl (first.next.trans new)
    · rcases first.old c' member' with new | ⟨c, listed, key, error⟩
      · exact .inl (key' ▸ new)
      · exact .inr ⟨c, listed, key.trans key', error' ∘ error⟩

theorem memory (follows : Follows s t) (memory : α) : Follows s { t with memory } :=
  ⟨follows.sound.memory memory, follows.next, follows.old⟩

/-- A client that was listed at the beginning has changed, and has kept its error. -/
theorem setClient (sound : Sound s) (follows : Follows s t) {c : Connection}
    (listed : c ∈ s.clients) {client : CServerClient}
    (error : c.client.error = true → client.error = true) :
    Follows s (t.setClient c.key client) where
  sound := follows.sound.setClient _ _
  next := follows.next
  old := by
    intro changed member
    obtain ⟨c', member', rfl⟩ := List.mem_map.mp member
    rcases follows.old c' member' with new | ⟨c₀, listed₀, key, kept⟩
    · left
      split
      · exact new
      · exact new
    · right
      split
      · next same =>
        obtain rfl := sound.eq_of_key listed₀ listed (key.trans same)
        exact ⟨c₀, listed, key, error⟩
      · exact ⟨c₀, listed₀, key, kept⟩

theorem emplace (sound : Sound s) (fd : Int) : Follows s (s.emplace fd) where
  sound := sound.emplace fd
  next := Nat.le_succ _
  old := by
    intro c member
    rcases List.mem_append.mp member with old | new
    · exact .inr ⟨c, old, rfl, id⟩
    · rw [List.mem_singleton.mp new]
      exact .inl le_rfl

/-- Some of the clients are dropped. -/
theorem filter (sound : Sound s) (stays : Connection → Bool) :
    Follows s (CServerSocket.recheckPollFds { s with clients := s.clients.filter stays }) where
  sound := sound.filter _
  next := le_rfl
  old := fun c member => .inr ⟨c, List.mem_of_mem_filter member, rfl, id⟩

end Follows

theorem Meanwhile.follows {impls : Impls} {key : Nat} {s t : CServerSocket α} {rebuilt : Bool}
    (meanwhile : Meanwhile impls key s rebuilt t) (sound : Sound s) : Follows s t := by
  induction meanwhile with
  | nothing => exact .refl sound
  | acts _ listed _ _ performed ih =>
      exact ih.trans (.setClient ih.sound (.refl ih.sound) listed performed.error)
  | addClient fd _ ih => exact ih.trans (.emplace ih.sound fd)
  | removeClient fd _ _ ih => exact ih.trans (.filter ih.sound _)

/-- The table stays as it is, or is built anew, with nothing found yet. -/
theorem Meanwhile.table {impls : Impls} {key : Nat} {s t : CServerSocket α} {rebuilt : Bool}
    (meanwhile : Meanwhile impls key s rebuilt t) :
    (rebuilt = false → t.pollfds = s.pollfds) ∧
      (rebuilt = true → ∀ pfd ∈ t.pollfds, pfd.revents = {}) := by
  have anew : ∀ u : CServerSocket α, ∀ pfd ∈ u.recheckPollFds.pollfds, pfd.revents = {} := by
    intro u pfd member
    obtain ⟨fd, -, rfl⟩ := List.mem_map.mp member
    rfl
  induction meanwhile with
  | nothing => exact ⟨fun _ => rfl, nofun⟩
  | acts _ _ _ _ _ ih => exact ih
  | addClient => exact ⟨nofun, fun _ => anew _⟩
  | removeClient => exact ⟨nofun, fun _ => anew _⟩

/-- While the table stays as it is, the clients stay at their places. -/
theorem Meanwhile.places {impls : Impls} {key : Nat} {s t : CServerSocket α} {rebuilt : Bool}
    (meanwhile : Meanwhile impls key s rebuilt t) (stays : rebuilt = false) :
    t.internalFds = s.internalFds ∧
      t.clients.map Connection.key = s.clients.map Connection.key := by
  induction meanwhile with
  | nothing => exact ⟨rfl, rfl⟩
  | acts _ _ _ _ _ ih => exact ⟨(ih stays).1, (setClient_keys _ _ _).trans (ih stays).2⟩
  | addClient => cases stays
  | removeClient => cases stays

/-! ## One turn -/

/-- A turn comes across a client that hangs up: both conditions were polled, and the table
is still the one that was polled after the client was dispatched. -/
def Visited.Hangup (visited : Visited) : Prop :=
  visited.revents.pollin = true ∧ visited.revents.pollhup = true ∧ visited.rebuilt = false

theorem look_eq_ok {i : Nat} {p q : Pass α} (looked : p.look i = .ok q) :
    ∃ pfd c, p.socket.pollfds[i]? = some pfd ∧
      p.socket.clients[i - p.socket.internalFds]? = some c ∧
      q = if pfd.revents.pollhup then
          { p with
            socket := p.socket.setClient c.key c.client.setError, needsPollRecheck := true }
        else p := by
  simp only [Pass.look] at looked
  split at looked
  · next pfd c polled listed =>
    refine ⟨pfd, c, polled, listed, ?_⟩
    split at looked
    · next hangup =>
      rw [if_pos hangup]
      exact (Except.ok.inj looked).symm
    · next none =>
      rw [if_neg none]
      exact (Except.ok.inj looked).symm
  · cases looked

/-- What a client does while it is dispatched, with what the application does meanwhile. -/
theorem Meanwhile.dispatched_follows {cfg : Config α} {p : Pass α} {c : Connection} {turns : Nat}
    {read : Option SSocketRawParsedMessage} {t : ServerState α} {handled : List Received}
    {rebuilt : Bool} {socket : CServerSocket α}
    (meanwhile : Meanwhile cfg.impls c.key p.socket rebuilt socket) (sound : Sound p.socket)
    (listed : c ∈ p.socket.clients)
    (dispatched : dispatchClient cfg turns read ⟨c.client, p.socket.memory⟩ =
      some (.ok (t, handled))) : Follows p.socket (p.dispatched c.key t socket).socket := by
  obtain ⟨trace, performed, -, -⟩ := dispatchClient_trace dispatched
  exact (Follows.setClient sound (meanwhile.follows sound) listed performed.error).memory _

theorem Visit.follows {cfg : Config α} {i : Nat} {p q : Pass α} {visited : Visited}
    (visit : Visit cfg i p visited (.ok q)) (sound : Sound p.socket) :
    Follows p.socket q.socket := by
  generalize same : Except.ok q = result at visit
  cases visit with
  | unread =>
      cases same
      exact .refl sound
  | missing => cases same
  | @read pfd c turns read t handled rebuilt socket polled ready listed dispatched meanwhile =>
      have there := meanwhile.dispatched_follows sound (List.mem_of_getElem? listed) dispatched
      obtain ⟨pfd, c', -, again, rfl⟩ := look_eq_ok same.symm
      split
      · exact there.trans (.setClient there.sound (.refl there.sound) (List.mem_of_getElem? again)
          fun _ => rfl)
      · exact there

/-- A hang-up is noted exactly when a turn comes across one. -/
theorem Visit.hangup {cfg : Config α} {i : Nat} {p q : Pass α} {visited : Visited}
    (visit : Visit cfg i p visited (.ok q)) :
    q.needsPollRecheck = true ↔ p.needsPollRecheck = true ∨ visited.Hangup := by
  generalize same : Except.ok q = result at visit
  cases visit with
  | unread _ silent =>
      cases same
      refine (or_iff_left fun hangup => ?_).symm
      rw [hangup.1] at silent
      cases silent
  | missing => cases same
  | @read pfd c turns read t handled rebuilt socket polled ready listed dispatched meanwhile =>
      obtain ⟨pfd', c', again, -, rfl⟩ := look_eq_ok same.symm
      have table : socket.pollfds[i]? = some pfd' := again
      cases rebuilt with
      | false =>
          rw [meanwhile.table.1 rfl, polled] at table
          cases table
          split
          · next hangup => exact iff_of_true rfl (.inr ⟨ready, hangup, rfl⟩)
          · next none => exact (or_iff_left fun hangup => none hangup.2.1).symm
      | true =>
          have nothing : pfd'.revents = {} :=
            meanwhile.table.2 rfl pfd' (List.mem_of_getElem? table)
          rw [nothing, if_neg Bool.false_ne_true]
          exact (or_iff_left fun hangup => nomatch hangup.2.2).symm

theorem Visits.follows {cfg : Config α} {i : Nat} {p q : Pass α} {visits : List Visited}
    (passed : Visits cfg i p visits (.ok q)) (sound : Sound p.socket) :
    Follows p.socket q.socket := by
  generalize same : Except.ok q = result at passed
  induction passed with
  | done =>
      cases same
      exact .refl sound
  | thrown => cases same
  | next visit _ ih =>
      have first := visit.follows sound
      exact first.trans (ih first.sound same)

theorem Visits.hangup {cfg : Config α} {i : Nat} {p q : Pass α} {visits : List Visited}
    (passed : Visits cfg i p visits (.ok q)) :
    q.needsPollRecheck = true ↔
      p.needsPollRecheck = true ∨ ∃ visited ∈ visits, visited.Hangup := by
  generalize same : Except.ok q = result at passed
  induction passed with
  | done =>
      cases same
      exact (or_iff_left fun ⟨_, absent, _⟩ => absurd absent List.not_mem_nil).symm
  | thrown => cases same
  | next visit _ ih => rw [ih same, visit.hangup, List.exists_mem_cons_iff, or_assoc]

/-! ## A dispatch -/

namespace CServerSocket

/-- A client is listed under a key. -/
def Lists (s : CServerSocket α) (key : Nat) : Prop := ∃ c ∈ s.clients, c.key = key

/-- A client is listed under a key, and is in error. -/
def Errs (s : CServerSocket α) (key : Nat) : Prop :=
  ∃ c ∈ s.clients, c.key = key ∧ c.client.error = true

end CServerSocket

namespace Passed

/-- The pass has come across a hang-up, of whatever client. -/
def FindsHangup (p : Passed α) : Prop := ∃ visited ∈ p.visits, visited.Hangup

/-- A client came into error in the pass: by what it has sent, or by the application. -/
def Raises (p : Passed α) (key : Nat) : Prop := p.ended.socket.Errs key ∧ ¬ p.start.Errs key

/-- The application has removed a client in the pass. -/
def Removes (p : Passed α) (key : Nat) : Prop := p.start.Lists key ∧ ¬ p.ended.socket.Lists key

end Passed

/-- Every error of a client, the one it had before or one that is raised in a pass, is
followed by a hang-up in the same pass or in a later one, or by the removal of the client. -/
def Cleared (key : Nat) (errs : Prop) (passes : List (Passed α)) : Prop :=
  (errs → ∃ p ∈ passes, p.FindsHangup ∨ p.Removes key) ∧
    ∀ before p after, passes = before ++ p :: after → p.Raises key →
      ∃ later ∈ p :: after, later.FindsHangup ∨ later.Removes key

/-- No client in error is listed, and the table has the descriptors of the socket itself
and of the clients that are listed. -/
def Terminated (s : CServerSocket α) : Prop :=
  (∀ c ∈ s.clients, c.client.error = false) ∧
    s.pollfds.map Pollfd.fd = s.internal ++ s.clients.map Connection.fd

/-- Whether a client is in error after some passes. -/
def Carried (key : Nat) : Prop → List (Passed α) → Prop
  | errs, [] => errs
  | errs, p :: rest =>
      Carried key ((errs ∧ ¬ p.Removes key ∨ p.Raises key) ∧ ¬ p.FindsHangup) rest

theorem carried_append (key : Nat) (errs : Prop) (passes rest : List (Passed α)) :
    Carried key errs (passes ++ rest) ↔ Carried key (Carried key errs passes) rest := by
  induction passes generalizing errs with
  | nil => rfl
  | cons p passes ih => exact ih _

theorem cleared_cons {key : Nat} {errs : Prop} {p : Passed α} {rest : List (Passed α)} :
    Cleared key errs (p :: rest) ↔
      Cleared key ((errs ∧ ¬ p.Removes key ∨ p.Raises key) ∧ ¬ p.FindsHangup) rest := by
  have exclusive : p.Raises key → ¬ p.Removes key := by
    rintro ⟨⟨c, listed, same, -⟩, -⟩ ⟨-, gone⟩
    exact gone ⟨c, listed, same⟩
  simp only [Cleared, List.exists_mem_cons_iff]
  constructor
  · rintro ⟨before, raised⟩
    refine ⟨?_, fun first p' last split raises => ?_⟩
    · rintro ⟨⟨errs, stays⟩ | raises, quiet⟩
      · exact (before errs).resolve_left fun cleared => cleared.elim quiet stays
      · exact (raised [] p rest rfl raises).resolve_left fun cleared =>
          cleared.elim quiet (exclusive raises)
    · exact raised (p :: first) p' last (congrArg (List.cons p) split) raises
  · rintro ⟨before, raised⟩
    refine ⟨fun errs => ?_, fun first p' last split raises => ?_⟩
    · by_contra none
      obtain ⟨here, later⟩ := not_or.mp none
      obtain ⟨quiet, stays⟩ := not_or.mp here
      exact later (before ⟨.inl ⟨errs, stays⟩, quiet⟩)
    · cases first with
      | nil =>
          obtain ⟨rfl, rfl⟩ := List.cons.inj split
          by_contra none
          obtain ⟨here, later⟩ := not_or.mp none
          exact later (before ⟨.inr raises, fun hangup => here (.inl hangup)⟩)
      | cons p'' first =>
          obtain ⟨rfl, tail⟩ := List.cons.inj split
          exact raised first p' last tail raises

theorem not_carried_iff {key : Nat} {errs : Prop} {passes : List (Passed α)} :
    ¬ Carried key errs passes ↔ Cleared key errs passes := by
  induction passes generalizing errs with
  | nil =>
      refine ⟨fun none => ⟨fun errs => absurd errs none, ?_⟩, fun cleared errs => ?_⟩
      · intro before p after split
        exact absurd split.symm (List.append_ne_nil_of_right_ne_nil _ (List.cons_ne_nil _ _))
      · obtain ⟨p, none, -⟩ := cleared.1 errs
        exact List.not_mem_nil none
  | cons p rest ih => exact ih.trans cleared_cons.symm

theorem finish_errs (p : Pass α) (key : Nat) :
    p.finish.Errs key ↔ p.socket.Errs key ∧ ¬ p.needsPollRecheck = true := by
  rw [Pass.finish]
  split
  · next noted =>
    refine iff_of_false ?_ fun both => both.2 noted
    rintro ⟨c, member, -, errs⟩
    have kept := (List.mem_filter.mp member).2
    rw [errs] at kept
    cases kept
  · next none => exact (and_iff_left none).symm

theorem finish_follows {p : Pass α} (sound : Sound p.socket) : Follows p.socket p.finish := by
  rw [Pass.finish]
  split
  · exact .filter sound _
  · exact .refl sound

/-- **What `dispatchPending` does to the errors.** -/
theorem Pending.errs {cfg : Config α} {s t : CServerSocket α} {passes : List (Passed α)}
    {hadAny : Bool} (pending : Pending cfg s passes hadAny t) (sound : Sound s) :
    Sound t ∧ ∀ key, t.Errs key ↔ Carried key (s.Errs key) passes := by
  induction pending with
  | @accepted s t found passes hadAny fd asks _ ih =>
      obtain ⟨still, errs⟩ := ih ((sound.poll found).emplace fd)
      refine ⟨still, fun key => (errs key).trans ?_⟩
      have same : ((s.poll found).emplace fd).Errs key ↔ s.Errs key := by
        constructor
        · rintro ⟨c, member, one, error⟩
          rcases List.mem_append.mp member with old | new
          · exact ⟨c, old, one, error⟩
          · rw [List.mem_singleton.mp new] at error
            cases error
        · rintro ⟨c, member, one, error⟩
          exact ⟨c, List.mem_append_left _ member, one, error⟩
      rw [same]
  | @existing s found visits p none visited =>
      have follows : Follows (s.poll found) p.socket := visited.follows (sound.poll found)
      refine ⟨(finish_follows follows.sound).sound, fun key => ?_⟩
      have hangup : p.needsPollRecheck = true ↔ ∃ visited ∈ visits, visited.Hangup :=
        visited.hangup.trans (or_iff_right Bool.false_ne_true)
      rw [finish_errs, hangup]
      refine and_congr_left' ?_
      constructor
      · intro errs
        by_cases before : s.Errs key
        · obtain ⟨c, listed, same, -⟩ := errs
          exact .inl ⟨before, fun removed => removed.2 ⟨c, listed, same⟩⟩
        · exact .inr ⟨errs, before⟩
      · rintro (⟨⟨c, listed, rfl, error⟩, stays⟩ | raised)
        · -- The client is still listed, and it is the same one.
          have still : p.socket.Lists c.key := by
            by_contra gone
            exact stays ⟨⟨c, listed, rfl⟩, gone⟩
          obtain ⟨c', listed', same⟩ := still
          rcases follows.old c' listed' with new | ⟨c₀, listed₀, key, kept⟩
          · exact absurd (same ▸ sound.below c listed) (Nat.not_lt.mpr new)
          · obtain rfl := sound.eq_of_key listed₀ listed (key.trans same)
            exact ⟨c', listed', same, kept error⟩
        · exact raised.1

theorem Dispatching.errs {cfg : Config α} {s t : CServerSocket α} {passes : List (Passed α)}
    (dispatching : Dispatching cfg s passes t) (sound : Sound s) :
    Sound t ∧ ∀ key, t.Errs key ↔ Carried key (s.Errs key) passes := by
  induction dispatching with
  | last pending => exact pending.errs sound
  | again pending _ ih =>
      obtain ⟨between, first⟩ := pending.errs sound
      obtain ⟨still, second⟩ := ih between
      refine ⟨still, fun key => ?_⟩
      rw [carried_append, ← first key]
      exact second key

/-- **What a dispatch does to the errors.** -/
theorem DispatchEvents.errs {cfg : Config α} {block : Bool} {s t : CServerSocket α}
    {passes : List (Passed α)} (dispatched : DispatchEvents cfg block s passes t)
    (sound : Sound s) : Sound t ∧ ∀ key, t.Errs key ↔ Carried key (s.Errs key) passes := by
  cases dispatched with
  | now all => exact all.errs sound
  | @block _ u _ found _ _ all waited =>
      obtain ⟨between, first⟩ := all.errs sound
      obtain ⟨still, second⟩ := waited.errs (between.poll found)
      refine ⟨still, fun key => ?_⟩
      rw [carried_append, ← first key]
      exact second key

theorem Reachable.sound {s : CServerSocket α} (reached : Reachable s) : Sound s := by
  induction reached with
  | attempt listening wakeupFd memory => exact .attempt _ _ _
  | extractLoopFD exitFd _ ih => exact ih.extractLoopFD exitFd
  | addClient fd _ ih => exact ih.emplace fd
  | removeClient fd _ _ ih => exact ih.filter _
  | application memory _ _ _ _ ih => exact (ih.setClient _ _).memory memory
  | dispatchEvents _ dispatched ih => exact (dispatched.errs ih).1

/-- **A dispatch leaves no client in error exactly when every error is followed by a
hang-up** in the same pass or in a later one (or by the removal of the client). -/
theorem dispatchEvents_terminates_iff {cfg : Config α} {block : Bool} {s t : CServerSocket α}
    {passes : List (Passed α)} (reached : Reachable s)
    (dispatched : DispatchEvents cfg block s passes t) :
    Terminated t ↔ ∀ key, Cleared key (s.Errs key) passes := by
  obtain ⟨still, errs⟩ := dispatched.errs reached.sound
  refine (and_iff_left still.synced).trans ?_
  constructor
  · intro none key
    refine not_carried_iff.mp fun carried => ?_
    obtain ⟨c, listed, -, error⟩ := (errs key).mpr carried
    rw [none c listed] at error
    cases error
  · intro cleared c listed
    by_contra error
    exact not_carried_iff.mpr (cleared c.key)
      ((errs c.key).mp ⟨c, listed, rfl, Bool.not_eq_false _ ▸ error⟩)

/-! ## A client that sends malformed bytes -/

/-- A socket without a path, which one client was added to. -/
def attended : CServerSocket Unit := (CServerSocket.attempt none 4 ()).emplace 5

theorem attended_reachable : Reachable attended := .addClient 5 (.attempt none 4 ())

/-- The client has sent something, and may have hung up. -/
def sending (hungUp : Bool) (i : Nat) : Revents := if i = 2 then ⟨true, hungUp⟩ else {}

/-- Nothing has happened. -/
def silence (_ : Nat) : Revents := {}

/-- The client after it was sent the message that ends a connection. -/
def broken : CServerClient where
  error := true
  sent := [.fatalError none 0xffffffff (text "fatal: failed to handle message on wire")]

/-- The variables of the pass that reads the malformed byte. -/
def malformedPass (hungUp : Bool) : Pass Unit where
  socket := { attended.poll (sending hungUp) with clients := [{ key := 0, fd := 5, client := broken }] }
  hadAny := true
  needsPollRecheck := hungUp

theorem malformed_visits (hungUp : Bool) :
    Visits idle 2 { socket := attended.poll (sending hungUp) } [⟨⟨true, hungUp⟩, false⟩]
      (.ok (malformedPass hungUp)) := by
  have dispatched : dispatchClient idle 1 (some (reading [0xff] (by decide))) ⟨{}, ()⟩ =
      some (.ok (⟨broken, ()⟩, [])) := by
    rfl
  have read := @Visit.read Unit idle 2 { socket := attended.poll (sending hungUp) }
    ⟨5, ⟨true, hungUp⟩⟩ { key := 0, fd := 5 } _ _ _ _ _ _ rfl rfl rfl dispatched .nothing
  refine .next (q := malformedPass hungUp) ?_ (.done le_rfl)
  cases hungUp with
  | true => exact read
  | false => exact read

/-- The pass that reads the malformed byte. -/
theorem malformed_pending (hungUp : Bool) :
    Pending idle attended [⟨attended.poll (sending hungUp), [⟨⟨true, hungUp⟩, false⟩],
      malformedPass hungUp⟩] true (malformedPass hungUp).finish :=
  .existing (fun asks => Bool.noConfusion asks.1) (malformed_visits hungUp)

/-- A client that hangs up is dropped. -/
theorem dispatchEvents_terminates_hangup :
    ∃ (passes : List (Passed Unit)) (t : CServerSocket Unit),
      DispatchEvents idle false attended passes t ∧ Terminated t := by
  have more : Pending idle (malformedPass true).finish
      [⟨(malformedPass true).finish.poll silence, [],
        { socket := (malformedPass true).finish.poll silence }⟩]
      false ((malformedPass true).finish.poll silence) :=
    .existing (fun asks => Bool.noConfusion asks.1) (.done le_rfl)
  have dispatched := DispatchEvents.now (.again (malformed_pending true) (.last more))
  refine ⟨_, _, dispatched, (dispatchEvents_terminates_iff attended_reachable dispatched).mpr ?_⟩
  have hangup : Visited.Hangup ⟨⟨true, true⟩, false⟩ := ⟨rfl, rfl, rfl⟩
  intro key
  refine cleared_cons.mpr ⟨fun errs => ?_, fun before p after split raises => ?_⟩
  · exact absurd ⟨_, List.mem_singleton_self _, hangup⟩ errs.2
  · -- Nobody is left that could come into error.
    have last : p ∈ [_] := split ▸ List.mem_append_right _ List.mem_cons_self
    obtain ⟨⟨c, listed, -⟩, -⟩ := (List.mem_singleton.mp last) ▸ raises
    exact absurd listed List.not_mem_nil

/-- A client that sends a malformed byte and stays connected is kept, in error. -/
theorem error_stays :
    ∃ (passes : List (Passed Unit)) (t : CServerSocket Unit),
      Reachable attended ∧ DispatchEvents idle false attended passes t ∧
        (∃ c ∈ t.clients, c.client.error = true ∧ c.fd ∈ t.pollfds.map Pollfd.fd) ∧
        ¬ Terminated t := by
  have more : Pending idle (malformedPass false).finish
      [⟨(malformedPass false).finish.poll silence, [⟨{}, false⟩],
        { socket := (malformedPass false).finish.poll silence }⟩]
      false ((malformedPass false).finish.poll silence) :=
    .existing (fun asks => Bool.noConfusion asks.1)
      (.next (@Visit.unread Unit idle 2 _ ⟨5, {}⟩ rfl rfl) (.done le_rfl))
  have kept : (⟨0, 5, broken⟩ : Connection) ∈ ((malformedPass false).finish.poll silence).clients :=
    List.mem_singleton_self _
  refine ⟨_, _, attended_reachable, .now (.again (malformed_pending false) (.last more)),
    ⟨_, kept, rfl, ?_⟩, fun terminated => ?_⟩
  · decide
  · exact absurd (terminated.1 _ kept) Bool.noConfusion

end Hyprwire.Server
