import Hyprwire.Server.Table
import Hyprwire.Server.Terminated

/-!
# The clients of a server are apart

A server socket has many clients, and dispatches them in one loop, while its list changes and
its listeners act on any of them. The connection of each is still one of its own: what becomes of
it comes of acts on this connection alone (`Lives`), whatever the others do. So what holds of a
single connection in every run holds of each client in every state of the socket
(`Reachable.client`), and the tables of all clients are in order (`every_table_in_order`).
-/

set_option autoImplicit false

namespace Hyprwire.Server

open Cpp Wire Object

variable {α : Type}

/-- Acts on one connection, with the implementations that the server has by then. -/
def Lives : CServerClient → CServerClient → Prop :=
  Relation.ReflTransGen fun client next => ∃ impls act, client.act impls act = some (.ok next)

theorem Lives.of_run {impls : Impls} {client next : CServerClient}
    (run : ActRun impls client next) : Lives client next := by
  induction run with
  | refl => exact .refl
  | step _ acts ih => exact ih.tail ⟨impls, _, acts⟩

theorem Lives.setError (client : CServerClient) : Lives client client.setError :=
  .single ⟨[], .refuse, rfl⟩

/-- Every connection comes of acts on it alone. -/
def Apart (s : CServerSocket α) : Prop := ∀ c ∈ s.clients, Lives {} c.client

namespace Apart

variable {s : CServerSocket α}

/-- One connection has changed. -/
theorem setClient (apart : Apart s) {key : Nat} {client : CServerClient} (lives : Lives {} client) :
    Apart (s.setClient key client) := by
  intro c listed
  obtain ⟨c', listed', rfl⟩ := List.mem_map.mp listed
  split
  · exact lives
  · exact apart c' listed'

/-- A connection is new. -/
theorem emplace (apart : Apart s) (fd : Int) : Apart (s.emplace fd) := by
  intro c listed
  rcases List.mem_append.mp listed with old | new
  · exact apart c old
  · rw [List.mem_singleton.mp new]
    exact .refl

/-- Some connections are dropped. -/
theorem filter (apart : Apart s) (stays : Connection → Bool) :
    Apart (CServerSocket.recheckPollFds { s with clients := s.clients.filter stays }) :=
  fun c listed => apart c (List.mem_of_mem_filter listed)

/-- What the application does while a client is dispatched. -/
theorem meanwhile {impls : Impls} {key : Nat} {t : CServerSocket α} {rebuilt : Bool}
    (apart : Apart s) (changes : Meanwhile impls key s rebuilt t) : Apart t := by
  induction changes with
  | nothing => exact apart
  | acts _ listed _ _ performed ih =>
      exact ih.setClient ((ih _ listed).trans (Lives.of_run performed.run))
  | addClient fd _ ih => exact ih.emplace fd
  | removeClient fd _ _ ih => exact ih.filter _

/-- What follows in a turn sets an error at most. -/
theorem look {p q : Pass α} {i : Nat} (apart : Apart p.socket) (looked : p.look i = .ok q) :
    Apart q.socket := by
  rw [Pass.look] at looked
  split at looked
  · next pfd c _ has =>
    split at looked
    · cases looked
      exact apart.setClient ((apart c (List.mem_of_getElem? has)).trans (Lives.setError _))
    · cases looked
      exact apart
  · cases looked

/-- **A turn of the loop** dispatches one client, by acts on its connection. -/
theorem visit {cfg : Config α} {i : Nat} {p q : Pass α} {visited : Visited}
    (apart : Apart p.socket) (visit : Visit cfg i p visited (.ok q)) : Apart q.socket := by
  generalize same : Except.ok q = result at visit
  cases visit with
  | unread polled silent =>
      cases same
      exact apart
  | missing polled ready unlisted => cases same
  | @read pfd c _ _ t _ _ socket polled ready listed dispatched changes =>
      have lives := (apart c (List.mem_of_getElem? listed)).trans
        (Lives.of_run (dispatchClient_run dispatched))
      have set : Apart (socket.setClient c.key t.client) := (apart.meanwhile changes).setClient lives
      have dispatched : Apart (p.dispatched c.key t socket).socket := set
      exact dispatched.look same.symm

theorem visits {cfg : Config α} {i : Nat} {p q : Pass α} {all : List Visited}
    (apart : Apart p.socket) (visits : Visits cfg i p all (.ok q)) : Apart q.socket := by
  generalize same : Except.ok q = result at visits
  induction visits with
  | done all =>
      cases same
      exact apart
  | thrown visit => cases same
  | next visit _ ih => exact ih (apart.visit visit) same

theorem finish {p : Pass α} (apart : Apart p.socket) : Apart p.finish := by
  rw [Pass.finish]
  split
  · exact apart.filter _
  · exact apart

theorem pending {cfg : Config α} {t : CServerSocket α} {passes : List (Passed α)} {hadAny : Bool}
    (apart : Apart s) (pending : Pending cfg s passes hadAny t) : Apart t := by
  induction pending with
  | accepted fd asks more ih => exact ih (emplace (by exact apart) fd)
  | @existing s found visits p none visited =>
      have polled : Apart (s.poll found) := apart
      exact (Apart.visits polled visited).finish

theorem dispatching {cfg : Config α} {t : CServerSocket α} {passes : List (Passed α)}
    (apart : Apart s) (dispatching : Dispatching cfg s passes t) : Apart t := by
  induction dispatching with
  | last last => exact apart.pending last
  | again first _ ih => exact ih (apart.pending first)

theorem dispatchEvents {cfg : Config α} {block : Bool} {t : CServerSocket α}
    {passes : List (Passed α)} (apart : Apart s)
    (dispatched : DispatchEvents cfg block s passes t) : Apart t := by
  cases dispatched with
  | now all => exact apart.dispatching all
  | @block _ u _ found _ _ all waited =>
      have first : Apart u := apart.dispatching all
      have polled : Apart (u.poll found) := first
      exact polled.dispatching waited

end Apart

/-- **The clients of every reachable socket are apart.** -/
theorem Reachable.apart {s : CServerSocket α} (reached : Reachable s) : Apart s := by
  induction reached with
  | attempt listening wakeupFd memory => exact fun _ none => absurd none List.not_mem_nil
  | extractLoopFD exitFd _ ih => exact ih
  | addClient fd _ ih => exact ih.emplace fd
  | removeClient fd _ _ ih => exact ih.filter _
  | application memory _ listed _ performed ih =>
      exact ih.setClient ((ih _ listed).trans (Lives.of_run performed.run))
  | dispatchEvents _ dispatched ih => exact ih.dispatchEvents dispatched

/-- **What every act on a single connection keeps holds of each client of a server.** -/
theorem Reachable.client {s : CServerSocket α} (reached : Reachable s) {I : CServerClient → Prop}
    (first : I {}) (keeps : ∀ impls act client next,
      client.act impls act = some (.ok next) → I client → I next) :
    ∀ c ∈ s.clients, I c.client := by
  have kept : ∀ client, Lives {} client → I client := by
    intro client lives
    induction lives with
    | refl => exact first
    | tail _ last ih =>
        obtain ⟨impls, act, acts⟩ := last
        exact keeps _ _ _ _ acts ih
  exact fun c listed => kept _ (reached.apart c listed)

/-- **The table of every client is in order**, whatever the others do: its objects are numbered
from one on, no two share an identifier, and every identifier that was announced to it is that of
one object, for one sequence. -/
theorem every_table_in_order {s : CServerSocket α} (reached : Reachable s) {c : Connection}
    (listed : c ∈ s.clients) (few : c.client.objects.length < 2 ^ 32 - 1) :
    c.client.ids.map UInt32.toNat = List.range' 1 (c.client.maxId.toNat - 1) ∧
      c.client.ids.Nodup ∧
      ∀ seq seq' id, (seq, id) ∈ newObjects c.client.sent →
        (seq', id) ∈ newObjects c.client.sent → seq = seq' ∧ id ∈ c.client.ids := by
  have keeps : ∀ impls act client next, client.act impls act = some (.ok next) →
      (client.objects.length < 2 ^ 32 - 1 → Numbered client) →
        next.objects.length < 2 ^ 32 - 1 → Numbered next := by
    intro impls act client next acts holds few
    have creates := act_creates acts
    exact (holds (Nat.lt_of_le_of_lt creates.length_le few)).creates creates few
  have numbered := @Reachable.client _ _ reached
    (fun client => client.objects.length < 2 ^ 32 - 1 → Numbered client)
    (fun _ => numbered_start) keeps c listed few
  refine ⟨numbered.range few, numbered.nodup_ids few, fun seq seq' id one two => ?_⟩
  exact ⟨congrArg Prod.fst (numbered.announced_once one two rfl), (numbered.listed _ one).2⟩

/-! ## Two clients -/

/-- A client for which the application has made an object. -/
def provided : CServerClient :=
  (CServerClient.createObject oneKind.impls [112] [] 1 7 {}).2

/-- One of two clients has an object. -/
def pair : CServerSocket Unit :=
  { (((CServerSocket.attempt none 4 ()).emplace 5).emplace 6).setClient 0 provided with
    memory := () }

theorem pair_reachable : Reachable pair := by
  have two : Reachable (((CServerSocket.attempt none 4 ()).emplace 5).emplace 6) :=
    .addClient 6 (.addClient 5 (.attempt none 4 ()))
  have creates : Trace oneKind.impls {} [⟨.createObject [112] [] 1 7, {}, provided⟩] provided :=
    .single rfl
  refine @Reachable.application Unit _ oneKind.impls ⟨0, 5, {}⟩ _ provided () two
    List.mem_cons_self ?_ creates
  exact List.forall_mem_singleton.mpr trivial

theorem every_table_in_order_pair :
    provided.ids.map UInt32.toNat = List.range' 1 (provided.maxId.toNat - 1) ∧
      provided.ids.Nodup ∧
      ∀ seq seq' id, (seq, id) ∈ newObjects provided.sent →
        (seq', id) ∈ newObjects provided.sent → seq = seq' ∧ id ∈ provided.ids :=
  @every_table_in_order Unit pair pair_reachable ⟨0, 5, provided⟩ List.mem_cons_self (by decide)

end Hyprwire.Server
