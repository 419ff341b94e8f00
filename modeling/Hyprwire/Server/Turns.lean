import Hyprwire.Server.Terminated

/-!
# What a pass dispatches

The table that is polled has the descriptors of the socket itself first, and then those of
the clients in their order: `Aligned`. Every operation builds it anew when the list of
clients has changed, so that it is the table of the list in every state (`Operated`).

`Turns` is the loop of `dispatchExistingConnections` with the client that each turn
dispatches, and with the variables after that (`turns_iff_visits`). While no listener
changes the list, a pass dispatches the clients whose own descriptors are readable, each of
them once and no other, and drops those that have hung up (`aligned_and_dispatched`).
-/

set_option autoImplicit false

namespace Hyprwire.Server

open Cpp Wire Object

variable {α : Type}

/-! ## Turns -/

/-- A client that a turn dispatches: what is read from it, and the variables after that. -/
structure Serving (α : Type) where
  client : Connection
  read : Option SSocketRawParsedMessage
  handled : Pass α

/-- A turn of the loop of `dispatchExistingConnections`: its index, what it comes across,
and the client that it dispatches. -/
structure Turned (α : Type) where
  index : Nat
  visited : Visited
  served : Option (Serving α) := none

/-- The key of the client that a turn dispatches. -/
def Turned.key (turned : Turned α) : Option Nat :=
  turned.served.map fun serving => serving.client.key

/-- A client is found readable in the table and is dispatched. -/
inductive Serves (cfg : Config α) (i : Nat) (p : Pass α) : Visited → Serving α → Prop
  | read {pfd : Pollfd} {c : Connection} {turns : Nat} {read : Option SSocketRawParsedMessage}
      {t : ServerState α} {handled : List Received} {rebuilt : Bool} {socket : CServerSocket α}
      (polled : p.socket.pollfds[i]? = some pfd) (ready : pfd.revents.pollin = true)
      (listed : p.socket.clients[i - p.socket.internalFds]? = some c)
      (dispatched : dispatchClient cfg turns read ⟨c.client, p.socket.memory⟩ =
        some (.ok (t, handled)))
      (meanwhile : Meanwhile cfg.impls c.key p.socket rebuilt socket) :
      Serves cfg i p ⟨pfd.revents, rebuilt⟩ ⟨c, read, p.dispatched c.key t socket⟩

/-- The loop of `dispatchExistingConnections` from an index on, with its turns. -/
inductive Turns (cfg : Config α) :
    Nat → Pass α → List (Turned α) → Except Fault (Pass α) → Prop
  | done {i : Nat} {p : Pass α} (all : p.socket.pollfds.length ≤ i) : Turns cfg i p [] (.ok p)
  | unread {i : Nat} {p : Pass α} {pfd : Pollfd} {rest : List (Turned α)}
      {result : Except Fault (Pass α)} (polled : p.socket.pollfds[i]? = some pfd)
      (silent : pfd.revents.pollin = false) (more : Turns cfg (i + 1) p rest result) :
      Turns cfg i p (⟨i, ⟨pfd.revents, false⟩, none⟩ :: rest) result
  | missing {i : Nat} {p : Pass α} {pfd : Pollfd} (polled : p.socket.pollfds[i]? = some pfd)
      (ready : pfd.revents.pollin = true)
      (unlisted : p.socket.clients[i - p.socket.internalFds]? = none) :
      Turns cfg i p [⟨i, ⟨pfd.revents, false⟩, none⟩] (.error .outOfRange)
  | thrown {i : Nat} {p : Pass α} {visited : Visited} {serving : Serving α} {fault : Fault}
      (serves : Serves cfg i p visited serving)
      (looked : serving.handled.look i = .error fault) :
      Turns cfg i p [⟨i, visited, some serving⟩] (.error fault)
  | next {i : Nat} {p q : Pass α} {visited : Visited} {serving : Serving α}
      {rest : List (Turned α)} {result : Except Fault (Pass α)}
      (serves : Serves cfg i p visited serving) (looked : serving.handled.look i = .ok q)
      (more : Turns cfg (i + 1) q rest result) :
      Turns cfg i p (⟨i, visited, some serving⟩ :: rest) result

theorem Serves.visit {cfg : Config α} {i : Nat} {p : Pass α} {visited : Visited}
    {serving : Serving α} (serves : Serves cfg i p visited serving) :
    Visit cfg i p visited (serving.handled.look i) := by
  cases serves with
  | read polled ready listed dispatched meanwhile =>
      exact .read polled ready listed dispatched meanwhile

theorem Turns.visits {cfg : Config α} {i : Nat} {p : Pass α} {turns : List (Turned α)}
    {result : Except Fault (Pass α)} (turned : Turns cfg i p turns result) :
    Visits cfg i p (turns.map Turned.visited) result := by
  induction turned with
  | done all => exact .done all
  | unread polled silent _ ih => exact .next (.unread polled silent) ih
  | missing polled ready unlisted => exact .thrown (.missing polled ready unlisted)
  | thrown serves looked => exact .thrown (looked ▸ serves.visit)
  | next serves looked _ ih => exact .next (looked ▸ serves.visit) ih

theorem Visits.turns {cfg : Config α} {i : Nat} {p : Pass α} {visits : List Visited}
    {result : Except Fault (Pass α)} (visited : Visits cfg i p visits result) :
    ∃ turns, turns.map Turned.visited = visits ∧ Turns cfg i p turns result := by
  induction visited with
  | done all => exact ⟨[], rfl, .done all⟩
  | @thrown i p visited fault visit =>
      generalize same : Except.error fault = result at visit
      cases visit with
      | unread => cases same
      | missing polled ready unlisted =>
          cases same
          exact ⟨_, rfl, .missing polled ready unlisted⟩
      | read polled ready listed dispatched meanwhile =>
          have turned := Turns.thrown (.read polled ready listed dispatched meanwhile) same.symm
          rw [same] at turned
          exact ⟨_, rfl, turned⟩
  | @next i p q visited rest result visit _ ih =>
      obtain ⟨turns, rfl, turned⟩ := ih
      generalize same : Except.ok q = result at visit
      cases visit with
      | unread polled silent =>
          cases same
          exact ⟨_, rfl, .unread polled silent turned⟩
      | missing => cases same
      | read polled ready listed dispatched meanwhile =>
          exact ⟨_, rfl, .next (.read polled ready listed dispatched meanwhile) same.symm turned⟩

/-- **The turns are those of the loop.** -/
theorem turns_iff_visits {cfg : Config α} {i : Nat} {p : Pass α} {visits : List Visited}
    {result : Except Fault (Pass α)} :
    Visits cfg i p visits result ↔
      ∃ turns, turns.map Turned.visited = visits ∧ Turns cfg i p turns result := by
  constructor
  · exact Visits.turns
  · rintro ⟨turns, rfl, turned⟩
    exact turned.visits

/-! ## The table and the list -/

/-- The table has an entry for every descriptor of the socket itself, and behind them those
of the clients. -/
def Aligned (s : CServerSocket α) : Prop :=
  s.pollfds.length = s.internalFds + s.clients.length ∧
    ∀ i c, s.clients[i]? = some c → (s.pollfds[s.internalFds + i]?).map Pollfd.fd = some c.fd

theorem length_internal (s : CServerSocket α) : s.internal.length = s.internalFds := by
  simp only [CServerSocket.internal, CServerSocket.internalFds]
  split <;> rfl

theorem Sound.aligned {s : CServerSocket α} (sound : Sound s) : Aligned s := by
  have length := congrArg List.length sound.synced
  rw [List.length_append, List.length_map, List.length_map, length_internal] at length
  refine ⟨length, fun i c listed => ?_⟩
  rw [← List.getElem?_map, sound.synced, ← length_internal,
    List.getElem?_append_right (Nat.le_add_right _ _), Nat.add_sub_cancel_left, List.getElem?_map,
    listed]
  rfl

namespace CServerSocket

/-- The entries of the clients in the table. -/
def entries (s : CServerSocket α) : List (Nat × Revents) :=
  (s.clients.map Connection.key).zip ((s.pollfds.drop s.internalFds).map Pollfd.revents)

/-- The clients whose own descriptors are readable. -/
def readable (s : CServerSocket α) : List Nat :=
  (s.entries.filter fun entry => entry.2.pollin).map Prod.fst

/-- The clients whose own descriptors are readable, and have hung up. -/
def hungUp (s : CServerSocket α) : List Nat :=
  (s.entries.filter fun entry => entry.2.pollin && entry.2.pollhup).map Prod.fst

end CServerSocket

/-- The states of a socket that was opened, after each of its operations. -/
inductive Operated : CServerSocket α → Prop
  | attempt (listening : Option Int) (wakeupFd : Int) (memory : α) :
      Operated (CServerSocket.attempt listening wakeupFd memory)
  | extractLoopFD {s : CServerSocket α} (exitFd : Int) (operated : Operated s) :
      Operated (s.extractLoopFD exitFd)
  | addClient {s : CServerSocket α} (fd : Int) (operated : Operated s) : Operated (s.emplace fd)
  | removeClient {s : CServerSocket α} (fd : Int) (operated : Operated s)
      (listed : ∃ c ∈ s.clients, c.fd = fd) : Operated (s.removeClient fd)
  | application {s : CServerSocket α} {impls : Impls} {c : Connection} {trace : List Performed}
      {client : CServerClient} (memory : α) (operated : Operated s) (listed : c ∈ s.clients)
      (own : ∀ performed ∈ trace, performed.act.ByApplication)
      (performed : Trace impls c.client trace client) :
      Operated { s.setClient c.key client with memory }
  | poll {s : CServerSocket α} (found : Nat → Revents) (operated : Operated s) :
      Operated (s.poll found)
  | dispatchNewConnections {s : CServerSocket α} (fd : Int) (operated : Operated s)
      (asks : s.NewConnection) : Operated (s.emplace fd)
  | dispatchExistingConnections {s : CServerSocket α} {cfg : Config α} {turns : List (Turned α)}
      {p : Pass α} (operated : Operated s)
      (turned : Turns cfg s.internalFds { socket := s } turns (.ok p)) : Operated p.finish

theorem Operated.sound {s : CServerSocket α} (operated : Operated s) : Sound s := by
  induction operated with
  | attempt listening wakeupFd memory => exact .attempt _ _ _
  | extractLoopFD exitFd _ ih => exact ih.extractLoopFD exitFd
  | addClient fd _ ih => exact ih.emplace fd
  | removeClient fd _ _ ih => exact ih.filter _
  | application memory _ _ _ _ ih => exact (ih.setClient _ _).memory memory
  | poll found _ ih => exact ih.poll found
  | dispatchNewConnections fd _ _ ih => exact ih.emplace fd
  | dispatchExistingConnections _ turned ih =>
      exact (finish_follows (turned.visits.follows ih).sound).sound

/-! ## A pass over a list that stays -/

/-- The table and the places of the clients are as they were. -/
structure Places (s t : CServerSocket α) : Prop where
  table : t.pollfds = s.pollfds
  internal : t.internalFds = s.internalFds
  keys : t.clients.map Connection.key = s.clients.map Connection.key

theorem Places.refl (s : CServerSocket α) : Places s s := ⟨rfl, rfl, rfl⟩

theorem Places.trans {s t u : CServerSocket α} (first : Places s t) (second : Places t u) :
    Places s u :=
  ⟨second.table.trans first.table, second.internal.trans first.internal,
    second.keys.trans first.keys⟩

theorem Places.setClient (s : CServerSocket α) (key : Nat) (client : CServerClient) :
    Places s (s.setClient key client) := ⟨rfl, rfl, setClient_keys s key client⟩

theorem Serves.places {cfg : Config α} {i : Nat} {p : Pass α} {visited : Visited}
    {serving : Serving α} (serves : Serves cfg i p visited serving)
    (stays : visited.rebuilt = false) : Places p.socket serving.handled.socket := by
  cases serves with
  | @read pfd c turns read t received rebuilt socket polled ready listed dispatched meanwhile =>
      obtain ⟨internal, keys⟩ := meanwhile.places stays
      refine Places.trans ⟨meanwhile.table.1 stays, internal, keys⟩ ?_
      exact ⟨rfl, rfl, setClient_keys socket c.key t.client⟩

theorem look_places {i : Nat} {p q : Pass α} (looked : p.look i = .ok q) :
    Places p.socket q.socket := by
  obtain ⟨pfd, c, -, -, rfl⟩ := look_eq_ok looked
  split
  · exact .setClient _ _ _
  · exact .refl _

/-- The entry of the table at the place of a client. -/
theorem entries_drop {s t : CServerSocket α} (places : Places s t) {i : Nat} {pfd : Pollfd}
    {c : Connection} (behind : s.internalFds ≤ i) (polled : t.pollfds[i]? = some pfd)
    (listed : t.clients[i - t.internalFds]? = some c) :
    s.entries.drop (i - s.internalFds) =
      (c.key, pfd.revents) :: s.entries.drop (i + 1 - s.internalFds) := by
  have key : (s.clients.map Connection.key)[i - s.internalFds]? = some c.key := by
    rw [← places.keys, List.getElem?_map, ← places.internal, listed]
    rfl
  have revents : ((s.pollfds.drop s.internalFds).map Pollfd.revents)[i - s.internalFds]? =
      some pfd.revents := by
    rw [List.getElem?_map, List.getElem?_drop, Nat.add_sub_cancel' behind, ← places.table, polled]
    rfl
  have entry : s.entries[i - s.internalFds]? = some (c.key, pfd.revents) :=
    List.getElem?_zip_eq_some.mpr ⟨key, revents⟩
  obtain ⟨within, is⟩ := List.getElem?_eq_some_iff.mp entry
  rw [List.drop_eq_getElem_cons within, is, Nat.succ_sub behind]

/-- There is a client for every entry behind those of the socket itself. -/
theorem listed_of_polled {s t : CServerSocket α} (aligned : Aligned s) (places : Places s t)
    {i : Nat} {pfd : Pollfd} (behind : s.internalFds ≤ i) (polled : t.pollfds[i]? = some pfd) :
    ∃ c, t.clients[i - t.internalFds]? = some c := by
  have within := (List.getElem?_eq_some_iff.mp polled).1
  have length := congrArg List.length places.keys
  rw [List.length_map, List.length_map] at length
  have there : i - t.internalFds < t.clients.length := by
    rw [places.table, aligned.1] at within
    rw [places.internal, length]
    omega
  exact ⟨_, List.getElem?_eq_getElem there⟩

theorem look_listed {i : Nat} {p : Pass α} {pfd : Pollfd} {c : Connection}
    (polled : p.socket.pollfds[i]? = some pfd)
    (listed : p.socket.clients[i - p.socket.internalFds]? = some c) : ∃ q, p.look i = .ok q := by
  rw [Pass.look, polled, listed]
  dsimp only
  split
  · exact ⟨_, rfl⟩
  · exact ⟨_, rfl⟩

/-- What a client is dispatched from. -/
theorem Serves.found {cfg : Config α} {i : Nat} {p : Pass α} {visited : Visited}
    {serving : Serving α} (serves : Serves cfg i p visited serving) :
    ∃ pfd, p.socket.pollfds[i]? = some pfd ∧ pfd.revents = visited.revents ∧
      pfd.revents.pollin = true ∧
      p.socket.clients[i - p.socket.internalFds]? = some serving.client := by
  cases serves with
  | read polled ready listed dispatched meanwhile => exact ⟨_, polled, rfl, ready, listed⟩

theorem Serves.follows {cfg : Config α} {i : Nat} {p : Pass α} {visited : Visited}
    {serving : Serving α} (serves : Serves cfg i p visited serving) (sound : Sound p.socket) :
    Follows p.socket serving.handled.socket := by
  cases serves with
  | read polled ready listed dispatched meanwhile =>
      exact meanwhile.dispatched_follows sound (List.mem_of_getElem? listed) dispatched

/-- While the list stays, the table is looked at again where the client was found. -/
theorem Serves.looks {cfg : Config α} {s : CServerSocket α} {i : Nat} {p : Pass α}
    {visited : Visited} {serving : Serving α} (serves : Serves cfg i p visited serving)
    (aligned : Aligned s) (places : Places s p.socket) (behind : s.internalFds ≤ i)
    (stays : visited.rebuilt = false) : ∃ q, serving.handled.look i = .ok q := by
  have after := places.trans (serves.places stays)
  obtain ⟨pfd, polled, -⟩ := serves.found
  rw [places.table, ← after.table] at polled
  obtain ⟨c', listed⟩ := listed_of_polled aligned after behind polled
  exact look_listed polled listed

/-- **A pass over a list that stays** does not throw, and dispatches the clients whose own
entries are readable, in their order. -/
theorem Turns.dispatches {cfg : Config α} {s : CServerSocket α} {i : Nat} {p : Pass α}
    {turns : List (Turned α)} {result : Except Fault (Pass α)} (turned : Turns cfg i p turns result)
    (aligned : Aligned s) (places : Places s p.socket) (behind : s.internalFds ≤ i)
    (stays : ∀ turn ∈ turns, turn.visited.rebuilt = false) :
    (∃ q, result = .ok q) ∧ turns.filterMap Turned.key =
      ((s.entries.drop (i - s.internalFds)).filter fun entry => entry.2.pollin).map Prod.fst := by
  induction turned with
  | @done i p all =>
      refine ⟨⟨p, rfl⟩, ?_⟩
      have none : s.entries.drop (i - s.internalFds) = [] := by
        refine List.drop_eq_nil_of_le ?_
        rw [places.table] at all
        simp only [CServerSocket.entries, List.length_zip, List.length_map, List.length_drop]
        omega
      rw [none]
      rfl
  | @unread i p pfd rest result polled silent more ih =>
      obtain ⟨c, listed⟩ := listed_of_polled aligned places behind polled
      obtain ⟨ok, keys⟩ := ih places (Nat.le_succ_of_le behind)
        fun turn member => stays turn (List.mem_cons_of_mem _ member)
      refine ⟨ok, ?_⟩
      rw [entries_drop places behind polled listed, List.filter_cons_of_neg (by simp [silent]),
        ← keys]
      rfl
  | missing polled ready unlisted =>
      obtain ⟨c, listed⟩ := listed_of_polled aligned places behind polled
      cases unlisted.symm.trans listed
  | thrown serves looked =>
      obtain ⟨q, looks⟩ := serves.looks aligned places behind (stays _ List.mem_cons_self)
      cases looked.symm.trans looks
  | @next i p q visited serving rest result serves looked more ih =>
      have after := places.trans (serves.places (stays _ List.mem_cons_self))
      obtain ⟨ok, keys⟩ := ih (after.trans (look_places looked)) (Nat.le_succ_of_le behind)
        fun turn member => stays turn (List.mem_cons_of_mem _ member)
      obtain ⟨pfd, polled, -, ready, listed⟩ := serves.found
      refine ⟨ok, ?_⟩
      rw [entries_drop places behind polled listed, List.filter_cons_of_pos (by simpa using ready),
        List.map_cons, ← keys]
      rfl

/-- A pass over a table in which no client is readable leaves the variables alone. -/
theorem Turns.silent {cfg : Config α} {s : CServerSocket α} {i : Nat} {p q : Pass α}
    {turns : List (Turned α)} (turned : Turns cfg i p turns (.ok q)) (aligned : Aligned s)
    (places : Places s p.socket) (behind : s.internalFds ≤ i)
    (nobody : ∀ entry ∈ s.entries.drop (i - s.internalFds), entry.2.pollin = false) : q = p := by
  generalize same : Except.ok q = result at turned
  induction turned with
  | done =>
      cases same
      rfl
  | unread polled silent more ih =>
      obtain ⟨c, listed⟩ := listed_of_polled aligned places behind polled
      rw [entries_drop places behind polled listed, List.forall_mem_cons] at nobody
      exact ih places (Nat.le_succ_of_le behind) nobody.2 same
  | missing => cases same
  | thrown => cases same
  | next serves looked more ih =>
      obtain ⟨pfd, polled, -, ready, listed⟩ := serves.found
      rw [entries_drop places behind polled listed, List.forall_mem_cons] at nobody
      cases ready.symm.trans nobody.1

/-- A pass that dispatches a client has found one that is readable. -/
theorem Turns.readable {cfg : Config α} {s : CServerSocket α} {q : Pass α}
    {turns : List (Turned α)} (turned : Turns cfg s.internalFds { socket := s } turns (.ok q))
    (aligned : Aligned s) (any : q.hadAny = true) : ∃ entry ∈ s.entries, entry.2.pollin = true := by
  by_contra nobody
  have same := turned.silent aligned (.refl s) le_rfl fun entry member =>
    Bool.eq_false_iff.mpr fun ready => nobody ⟨entry, List.mem_of_mem_drop member, ready⟩
  rw [same] at any
  cases any

/-! ## Who is dropped -/

/-- A client in error at the end of a pass that has found a hang-up is dropped. -/
theorem finish_drops {p : Pass α} (sound : Sound p.socket) {key : Nat}
    (noted : p.needsPollRecheck = true) (errs : p.socket.Errs key) : ¬ p.finish.Lists key := by
  rintro ⟨c, member, same⟩
  rw [Pass.finish, if_pos noted] at member
  obtain ⟨listed, clean⟩ := List.mem_filter.mp member
  obtain ⟨c', listed', same', error⟩ := errs
  rw [sound.eq_of_key listed listed' (same.trans same'.symm), error] at clean
  cases clean

/-- A client in error stays in error, as long as it is listed. -/
theorem Follows.drops {s : CServerSocket α} {p : Pass α} (follows : Follows s p.socket)
    (sound : Sound s) {key : Nat} (errs : s.Errs key) (noted : p.needsPollRecheck = true) :
    ¬ p.finish.Lists key := by
  obtain ⟨c, listed, rfl, error⟩ := errs
  intro lists
  have still : p.socket.Lists c.key := by
    obtain ⟨c', member, same⟩ := lists
    rw [Pass.finish, if_pos noted] at member
    exact ⟨c', List.mem_of_mem_filter member, same⟩
  obtain ⟨c', listed', same⟩ := still
  refine finish_drops follows.sound noted ⟨c', listed', same, ?_⟩ lists
  rcases follows.old c' listed' with new | ⟨c₀, listed₀, key, kept⟩
  · exact absurd (same ▸ sound.below c listed) (Nat.not_lt.mpr new)
  · rw [sound.eq_of_key listed₀ listed (key.trans same)] at kept
    exact kept error

/-- The turn of a client that has hung up sets its error. -/
theorem look_hangup {i : Nat} {p q : Pass α} {pfd : Pollfd} {c : Connection}
    (looked : p.look i = .ok q) (polled : p.socket.pollfds[i]? = some pfd)
    (listed : p.socket.clients[i - p.socket.internalFds]? = some c)
    (hangup : pfd.revents.pollhup = true) :
    q.needsPollRecheck = true ∧ q.socket.Errs c.key := by
  obtain ⟨pfd', c', polled', listed', rfl⟩ := look_eq_ok looked
  cases polled.symm.trans polled'
  cases listed.symm.trans listed'
  rw [if_pos hangup]
  refine ⟨rfl, { c with client := c.client.setError }, ?_, rfl, rfl⟩
  refine List.mem_map.mpr ⟨c, List.mem_of_getElem? listed, ?_⟩
  rw [if_pos rfl]

theorem Turns.noted {cfg : Config α} {i : Nat} {p q : Pass α} {turns : List (Turned α)}
    (turned : Turns cfg i p turns (.ok q)) (before : p.needsPollRecheck = true) :
    q.needsPollRecheck = true :=
  (turned.visits.hangup).mpr (.inl before)

/-- **A pass over a list that stays** drops the clients that are readable and have hung up. -/
theorem Turns.drops {cfg : Config α} {s : CServerSocket α} {i : Nat} {p q : Pass α}
    {turns : List (Turned α)} (turned : Turns cfg i p turns (.ok q)) (aligned : Aligned s)
    (places : Places s p.socket) (sound : Sound p.socket) (behind : s.internalFds ≤ i)
    (stays : ∀ turn ∈ turns, turn.visited.rebuilt = false) {key : Nat}
    (hungUp : key ∈ ((s.entries.drop (i - s.internalFds)).filter fun entry =>
      entry.2.pollin && entry.2.pollhup).map Prod.fst) : ¬ q.finish.Lists key := by
  generalize same : Except.ok q = result at turned
  induction turned with
  | @done i p all =>
      have none : s.entries.drop (i - s.internalFds) = [] := by
        refine List.drop_eq_nil_of_le ?_
        rw [places.table] at all
        simp only [CServerSocket.entries, List.length_zip, List.length_map, List.length_drop]
        omega
      rw [none] at hungUp
      exact absurd hungUp List.not_mem_nil
  | @unread i p pfd rest result polled silent more ih =>
      obtain ⟨c, listed⟩ := listed_of_polled aligned places behind polled
      rw [entries_drop places behind polled listed, List.filter_cons_of_neg (by simp [silent])]
        at hungUp
      exact ih places sound (Nat.le_succ_of_le behind)
        (fun turn member => stays turn (List.mem_cons_of_mem _ member)) hungUp same
  | missing => cases same
  | thrown => cases same
  | @next i p q' visited serving rest result serves looked more ih =>
      obtain ⟨pfd, polled, is, ready, listed⟩ := serves.found
      have there := serves.places (stays _ List.mem_cons_self)
      have after := (places.trans there).trans (look_places looked)
      have kept := ((looked ▸ serves.visit).follows sound).sound
      rw [entries_drop places behind polled listed] at hungUp
      by_cases hangup : pfd.revents.pollhup = true
      · rw [List.filter_cons_of_pos (by simp [ready, hangup])] at hungUp
        rcases List.mem_cons.mp hungUp with rfl | later
        · -- This is the client of the turn, which the loop looks at again.
          obtain ⟨c', again⟩ := listed_of_polled aligned (places.trans there) behind
            (by rwa [there.table])
          have one : c'.key = serving.client.key := by
            have keys := congrArg (·[i - p.socket.internalFds]?) there.keys
            have place := again
            rw [there.internal] at place
            simp only [List.getElem?_map, listed, place] at keys
            exact Option.some.inj keys
          obtain ⟨noted, errs⟩ := look_hangup looked (by rwa [there.table]) again hangup
          rw [one] at errs
          cases same
          exact (more.visits.follows kept).drops kept errs (more.noted noted)
        · exact ih after kept (Nat.le_succ_of_le behind)
            (fun turn member => stays turn (List.mem_cons_of_mem _ member)) later same
      · rw [List.filter_cons_of_neg (by simp [hangup])] at hungUp
        exact ih after kept (Nat.le_succ_of_le behind)
          (fun turn member => stays turn (List.mem_cons_of_mem _ member)) hungUp same

/-! ## Every operation, and every pass -/

theorem nodup_readable {s : CServerSocket α} (sound : Sound s) : s.readable.Nodup := by
  have entries : s.entries.map Prod.fst = s.clients.map Connection.key := by
    refine List.map_fst_zip ?_
    rw [List.length_map, List.length_map, List.length_drop, sound.aligned.1]
    omega
  have nodup := sound.nodup
  rw [← entries] at nodup
  exact nodup.sublist (List.filter_sublist.map _)

/-- **The table is aligned with the list after every operation**, and a pass in which no
listener changes the list dispatches every client whose own descriptor is readable, once,
and no other one, and drops those that have hung up. -/
theorem aligned_and_dispatched {s : CServerSocket α} (operated : Operated s) :
    Aligned s ∧ ∀ (cfg : Config α) (turns : List (Turned α)) (result : Except Fault (Pass α)),
      Turns cfg s.internalFds { socket := s } turns result →
      (∀ turn ∈ turns, turn.visited.rebuilt = false) →
      ∃ q, result = .ok q ∧ turns.filterMap Turned.key = s.readable ∧ s.readable.Nodup ∧
        ∀ key ∈ s.hungUp, ¬ q.finish.Lists key := by
  have sound := operated.sound
  have aligned := sound.aligned
  refine ⟨aligned, fun cfg turns result turned stays => ?_⟩
  obtain ⟨⟨q, rfl⟩, keys⟩ := turned.dispatches aligned (.refl s) le_rfl stays
  rw [Nat.sub_self, List.drop_zero] at keys
  refine ⟨q, rfl, keys, nodup_readable sound, fun key hungUp => ?_⟩
  refine turned.drops aligned (.refl s) sound le_rfl stays ?_
  rwa [Nat.sub_self, List.drop_zero]

/-- A socket with a path that has accepted a client, which has hung up. -/
def left : CServerSocket Unit :=
  ((CServerSocket.attempt (some 3) 4 ()).emplace 5).poll fun i => if i = 3 then ⟨true, true⟩ else {}

theorem left_operated : Operated left := .poll _ (.addClient 5 (.attempt (some 3) 4 ()))

/-- The client is read once, and dropped. -/
theorem aligned_and_dispatched_left :
    Aligned left ∧ ∃ (turns : List (Turned Unit)) (q : Pass Unit),
      turns.filterMap Turned.key = [0] ∧ ¬ q.finish.Lists 0 := by
  obtain ⟨aligned, dispatched⟩ := aligned_and_dispatched left_operated
  have nothing : dispatchClient idle 1 (some (reading [] (by decide))) ⟨{}, ()⟩ =
      some (.ok (⟨{}, ()⟩, [])) := rfl
  have read := @Serves.read Unit idle 3 { socket := left } ⟨5, ⟨true, true⟩⟩
    { key := 0, fd := 5 } _ _ _ _ _ _ rfl rfl rfl nothing .nothing
  have turned := Turns.next read rfl (.done le_rfl)
  obtain ⟨q, -, keys, -, gone⟩ := dispatched idle _ _ turned fun turn member => by
    rw [List.mem_singleton.mp member]
  exact ⟨aligned, _, q, keys, gone 0 (by decide)⟩

end Hyprwire.Server
