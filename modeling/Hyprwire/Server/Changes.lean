import Hyprwire.Server.Handshake
import Hyprwire.Server.Turns

/-!
# Changes of the list while it is dispatched

A listener may add and remove clients while `dispatchExistingConnections` goes through the
table. The table is built anew then, and nothing is found in it until the next `poll`, so
that the loop blames no client for the hang-up of another one (`Turns.blames`), and a client
that is passed over is found again (`Chained.serves`). What goes wrong is the index: the
loop looks at the same place again after the listener, and throws when the list has become
too short for it, with `m_pollmtx` locked. `changes_safe_iff` says that this is all, and
`change_throws` is a listener that removes its own client.
-/

set_option autoImplicit false

namespace Hyprwire.Server

open Cpp Wire Object

variable {α : Type}

/-! ## Rounds -/

/-- A poll, with the turns of the pass that is made after it, if one is made. -/
structure Round (α : Type) where
  start : CServerSocket α
  turns : List (Turned α) := []

/-- A poll of `dispatchPending` and what follows: a connection is accepted, or a pass is
made. Another poll follows when `true` is returned. -/
inductive Polls (cfg : Config α) (s : CServerSocket α) :
    Round α → Except Fault (Bool × CServerSocket α) → Prop
  | accepted (found : Nat → Revents) (fd : Int) (asks : (s.poll found).NewConnection) :
      Polls cfg s ⟨s.poll found, []⟩ (.ok (true, (s.poll found).emplace fd))
  | existing {found : Nat → Revents} {turns : List (Turned α)} {result : Except Fault (Pass α)}
      (none : ¬ (s.poll found).NewConnection)
      (turned : Turns cfg s.internalFds { socket := s.poll found } turns result) :
      Polls cfg s ⟨s.poll found, turns⟩ (result.map fun p => (p.hadAny, p.finish))

/-- How far a dispatch comes. -/
inductive Ending (α : Type)
  | returned (socket : CServerSocket α)
  | thrown (fault : Fault)
  | running

/-- `m_pollmtx` has been unlocked: the call stands behind the loops, and nothing unlocks it
when an exception passes. -/
def Ending.Unlocked : Ending α → Prop
  | .returned _ => True
  | _ => False

/-- The rounds of `while (dispatchPending())`. After a connection has been accepted,
`dispatchPending` calls itself, which is one more round as well. -/
inductive Rounds (cfg : Config α) : CServerSocket α → List (Round α) → Ending α → Prop
  | running (s : CServerSocket α) : Rounds cfg s [] .running
  | last {s t : CServerSocket α} {round : Round α} (polls : Polls cfg s round (.ok (false, t))) :
      Rounds cfg s [round] (.returned t)
  | again {s t : CServerSocket α} {round : Round α} {rest : List (Round α)} {ending : Ending α}
      (polls : Polls cfg s round (.ok (true, t))) (more : Rounds cfg t rest ending) :
      Rounds cfg s (round :: rest) ending
  | thrown {s : CServerSocket α} {round : Round α} {fault : Fault}
      (polls : Polls cfg s round (.error fault)) : Rounds cfg s [round] (.thrown fault)

/-- `dispatchEvents`, as far as it comes. The poll that waits is a round without turns. -/
inductive Events (cfg : Config α) :
    Bool → CServerSocket α → List (Round α) → Ending α → Prop
  | now {s : CServerSocket α} {rounds : List (Round α)} {ending : Ending α}
      (all : Rounds cfg s rounds ending) : Events cfg false s rounds ending
  | block {s t : CServerSocket α} {found : Nat → Revents} {rounds rest : List (Round α)}
      {ending : Ending α} (all : Rounds cfg s rounds (.returned t))
      (waited : Rounds cfg (t.poll found) rest ending) :
      Events cfg true s (rounds ++ ⟨t.poll found, []⟩ :: rest) ending
  | before {s : CServerSocket α} {rounds : List (Round α)} {ending : Ending α}
      (all : Rounds cfg s rounds ending) (on : ∀ t, ending ≠ .returned t) :
      Events cfg true s rounds ending

/-! ## The rounds are those of the loops -/

theorem Pending.polls {cfg : Config α} {s t : CServerSocket α} {passes : List (Passed α)}
    {hadAny : Bool} (pending : Pending cfg s passes hadAny t) :
    (hadAny = false → ∃ rounds, Rounds cfg s rounds (.returned t)) ∧
      (hadAny = true → ∀ rest ending, Rounds cfg t rest ending →
        ∃ rounds, Rounds cfg s rounds ending) := by
  induction pending with
  | @accepted s t found passes hadAny fd asks _ ih =>
      constructor
      · intro last
        obtain ⟨rounds, all⟩ := ih.1 last
        exact ⟨_, .again (.accepted found fd asks) all⟩
      · intro again rest ending more
        obtain ⟨rounds, all⟩ := ih.2 again rest ending more
        exact ⟨_, .again (.accepted found fd asks) all⟩
  | @existing s found visits p none visited =>
      obtain ⟨turns, -, turned⟩ := turns_iff_visits.mp visited
      have polls := Polls.existing none turned
      rw [Except.map] at polls
      constructor
      · intro last
        rw [last] at polls
        exact ⟨_, .last polls⟩
      · intro again rest ending more
        rw [again] at polls
        exact ⟨_, .again polls more⟩

theorem Polls.dispatching {cfg : Config α} {s t : CServerSocket α} {round : Round α}
    {again : Bool} (polls : Polls cfg s round (.ok (again, t))) :
    (again = false → ∃ passes, Dispatching cfg s passes t) ∧
      (again = true → ∀ rest u, Dispatching cfg t rest u → ∃ passes, Dispatching cfg s passes u) := by
  generalize same : Except.ok (again, t) = outcome at polls
  cases polls with
  | accepted found fd asks =>
      cases same
      refine ⟨nofun, fun _ rest u more => ?_⟩
      cases more with
      | last pending => exact ⟨_, .last (.accepted fd asks pending)⟩
      | again pending more => exact ⟨_, .again (.accepted fd asks pending) more⟩
  | @existing found turns result none turned =>
      cases result with
      | error fault => cases same
      | ok p =>
          obtain ⟨rfl, rfl⟩ := Prod.mk.inj (Except.ok.inj same)
          have pending := Pending.existing none turned.visits
          constructor
          · intro last
            rw [last] at pending
            exact ⟨_, .last pending⟩
          · intro again rest u more
            rw [again] at pending
            exact ⟨_, .again pending more⟩

/-- The loop returns with the same sockets. -/
theorem rounds_iff_dispatching {cfg : Config α} {s t : CServerSocket α} :
    (∃ rounds, Rounds cfg s rounds (.returned t)) ↔ ∃ passes, Dispatching cfg s passes t := by
  constructor
  · rintro ⟨rounds, all⟩
    generalize same : Ending.returned t = ending at all
    induction all with
    | running => cases same
    | last polls =>
        cases same
        exact polls.dispatching.1 rfl
    | again polls _ ih =>
        obtain ⟨rest, more⟩ := ih same
        exact polls.dispatching.2 rfl rest t more
    | thrown => cases same
  · rintro ⟨passes, dispatching⟩
    induction dispatching with
    | last pending => exact pending.polls.1 rfl
    | again pending _ ih =>
        obtain ⟨rest, more⟩ := ih
        exact pending.polls.2 rfl rest _ more

/-- **A dispatch returns with the same sockets.** -/
theorem events_iff_dispatchEvents {cfg : Config α} {block : Bool} {s t : CServerSocket α} :
    (∃ rounds, Events cfg block s rounds (.returned t)) ↔
      ∃ passes, DispatchEvents cfg block s passes t := by
  constructor
  · rintro ⟨rounds, events⟩
    generalize same : Ending.returned t = ending at events
    cases events with
    | now all =>
        cases same
        obtain ⟨passes, dispatching⟩ := rounds_iff_dispatching.mp ⟨_, all⟩
        exact ⟨passes, .now dispatching⟩
    | block all waited =>
        cases same
        obtain ⟨passes, first⟩ := rounds_iff_dispatching.mp ⟨_, all⟩
        obtain ⟨rest, second⟩ := rounds_iff_dispatching.mp ⟨_, waited⟩
        exact ⟨_, .block first second⟩
    | before all on => exact absurd same.symm (on t)
  · rintro ⟨passes, dispatched⟩
    cases dispatched with
    | now all =>
        obtain ⟨rounds, first⟩ := rounds_iff_dispatching.mpr ⟨_, all⟩
        exact ⟨_, .now first⟩
    | block all waited =>
        obtain ⟨rounds, first⟩ := rounds_iff_dispatching.mpr ⟨_, all⟩
        obtain ⟨rest, second⟩ := rounds_iff_dispatching.mpr ⟨_, waited⟩
        exact ⟨_, .block first second⟩

/-! ## The index -/

/-- The listeners leave more clients than stand before the one that was dispatched. -/
def Turned.Stays (turned : Turned α) : Prop :=
  ∀ serving, turned.served = some serving →
    turned.index - serving.handled.socket.internalFds < serving.handled.socket.clients.length

theorem Turned.Stays.unserved {turned : Turned α} (unserved : turned.served = none) :
    turned.Stays := by
  intro serving served
  cases unserved.symm.trans served

theorem look_iff {i : Nat} {p : Pass α} (aligned : Aligned p.socket) :
    (∃ q, p.look i = .ok q) ↔ i - p.socket.internalFds < p.socket.clients.length := by
  constructor
  · rintro ⟨q, looked⟩
    obtain ⟨pfd, c, -, listed, -⟩ := look_eq_ok looked
    exact (List.getElem?_eq_some_iff.mp listed).1
  · intro stays
    have within : i < p.socket.pollfds.length := by
      rw [aligned.1]
      omega
    exact look_listed (List.getElem?_eq_getElem within) (List.getElem?_eq_getElem stays)

theorem Meanwhile.internal {impls : Impls} {key : Nat} {s t : CServerSocket α} {rebuilt : Bool}
    (meanwhile : Meanwhile impls key s rebuilt t) : t.internalFds = s.internalFds := by
  induction meanwhile with
  | nothing => rfl
  | acts _ _ _ _ _ ih => exact ih
  | addClient _ _ ih => exact ih
  | removeClient _ _ _ ih => exact ih

theorem Serves.internal {cfg : Config α} {i : Nat} {p : Pass α} {visited : Visited}
    {serving : Serving α} (serves : Serves cfg i p visited serving) :
    serving.handled.socket.internalFds = p.socket.internalFds := by
  cases serves with
  | read polled ready listed dispatched meanwhile => exact meanwhile.internal

/-- **A pass throws exactly when a listener leaves too few clients.** -/
theorem Turns.completes_iff {cfg : Config α} {i : Nat} {p : Pass α} {turns : List (Turned α)}
    {result : Except Fault (Pass α)} (turned : Turns cfg i p turns result) (sound : Sound p.socket)
    (behind : p.socket.internalFds ≤ i) :
    (∃ q, result = .ok q) ↔ ∀ turn ∈ turns, turn.Stays := by
  induction turned with
  | @done i p all => exact iff_of_true ⟨p, rfl⟩ fun _ none => absurd none List.not_mem_nil
  | @unread i p pfd rest result polled silent more ih =>
      rw [ih sound (Nat.le_succ_of_le behind), List.forall_mem_cons]
      exact (and_iff_right (Turned.Stays.unserved rfl)).symm
  | @missing i p pfd polled ready unlisted =>
      obtain ⟨c, listed⟩ := listed_of_polled sound.aligned (.refl p.socket) behind polled
      cases unlisted.symm.trans listed
  | @thrown i p visited serving fault serves looked =>
      constructor
      · rintro ⟨q, ok⟩
        cases ok
      · intro stays
        obtain ⟨q, looks⟩ := (look_iff (serves.follows sound).sound.aligned).mpr
          (stays _ (List.mem_singleton_self _) serving rfl)
        cases looked.symm.trans looks
  | @next i p q visited serving rest result serves looked more ih =>
      have handled := (serves.follows sound).sound
      have places := look_places looked
      have kept : q.socket.internalFds = p.socket.internalFds :=
        places.internal.trans serves.internal
      rw [ih ((looked ▸ serves.visit).follows sound).sound (kept ▸ Nat.le_succ_of_le behind),
        List.forall_mem_cons]
      refine (and_iff_right fun other same => ?_).symm
      cases same
      exact (look_iff handled.aligned).mp ⟨q, looked⟩

/-! ## The blame -/

/-- The client whose error is set when the table is looked at again. -/
def Turned.blamed (turned : Turned α) : Option Connection :=
  turned.served.bind fun serving =>
    (serving.handled.socket.pollfds[turned.index]?).bind fun pfd =>
      if pfd.revents.pollhup then
        serving.handled.socket.clients[turned.index - serving.handled.socket.internalFds]?
      else
        none

/-- Nobody else's error is set. -/
theorem look_blamed {turned : Turned α} {serving : Serving α} {q : Pass α}
    (served : turned.served = some serving) (looked : serving.handled.look turned.index = .ok q) :
    q.socket = turned.blamed.elim serving.handled.socket fun c =>
      serving.handled.socket.setClient c.key c.client.setError := by
  obtain ⟨pfd, c, polled, listed, rfl⟩ := look_eq_ok looked
  rw [Turned.blamed, served, Option.bind_some, polled, Option.bind_some, listed]
  split
  · rfl
  · rfl

/-- The table of a pass is the one that was polled, with the clients at their places, or
nothing has been found in it. -/
def Steady (start s : CServerSocket α) : Prop :=
  Places start s ∨ ∀ pfd ∈ s.pollfds, pfd.revents = {}

theorem Steady.places {start s t : CServerSocket α} (steady : Steady start s)
    (places : Places s t) : Steady start t := by
  cases steady with
  | inl there => exact .inl (there.trans places)
  | inr nothing => exact .inr (places.table ▸ nothing)

theorem Serves.steady {cfg : Config α} {start : CServerSocket α} {i : Nat} {p : Pass α}
    {visited : Visited} {serving : Serving α} (serves : Serves cfg i p visited serving)
    (steady : Steady start p.socket) : Steady start serving.handled.socket := by
  cases stays : visited.rebuilt with
  | false => exact steady.places (serves.places stays)
  | true =>
      cases serves with
      | read polled ready listed dispatched meanwhile => exact .inr (meanwhile.table.2 stays)

/-- **The loop blames a client for its own hang-up only.** -/
theorem Turns.blames {cfg : Config α} {start : CServerSocket α} {i : Nat} {p : Pass α}
    {turns : List (Turned α)} {result : Except Fault (Pass α)} (turned : Turns cfg i p turns result)
    (steady : Steady start p.socket) (behind : start.internalFds ≤ i) :
    ∀ turn ∈ turns, ∀ c, turn.blamed = some c →
      ∃ revents, (c.key, revents) ∈ start.entries ∧ revents.pollhup = true := by
  have own : ∀ {i : Nat} {p : Pass α} {visited : Visited} {serving : Serving α} {c : Connection},
      start.internalFds ≤ i → Steady start p.socket → Serves cfg i p visited serving →
      Turned.blamed ⟨i, visited, some serving⟩ = some c →
      ∃ revents, (c.key, revents) ∈ start.entries ∧ revents.pollhup = true := by
    intro i p visited serving c behind steady serves blamed
    rw [Turned.blamed, Option.bind_some] at blamed
    obtain ⟨pfd, polled, rest⟩ := Option.bind_eq_some_iff.mp blamed
    by_cases hangup : pfd.revents.pollhup = true
    · rw [if_pos hangup] at rest
      cases serves.steady steady with
      | inl places =>
          refine ⟨pfd.revents, ?_, hangup⟩
          refine List.mem_of_mem_drop (i := i - start.internalFds) ?_
          rw [entries_drop places behind polled rest]
          exact List.mem_cons_self
      | inr nothing =>
          rw [nothing pfd (List.mem_of_getElem? polled)] at hangup
          cases hangup
    · rw [if_neg hangup] at rest
      cases rest
  induction turned with
  | done => exact fun _ none => absurd none List.not_mem_nil
  | unread polled silent more ih =>
      refine List.forall_mem_cons.mpr ⟨fun c none => ?_, ih steady (Nat.le_succ_of_le behind)⟩
      cases none
  | missing =>
      intro turn only c blamed
      rw [List.mem_singleton.mp only] at blamed
      cases blamed
  | thrown serves looked =>
      intro turn only c blamed
      rw [List.mem_singleton.mp only] at blamed
      exact own behind steady serves blamed
  | next serves looked more ih =>
      refine List.forall_mem_cons.mpr ⟨fun c => own behind steady serves, ?_⟩
      exact ih ((serves.steady steady).places (look_places looked)) (Nat.le_succ_of_le behind)

/-! ## Who is found again -/

/-- The keys of the clients that a round dispatches. -/
def Round.dispatched (round : Round α) : List Nat := round.turns.filterMap Turned.key

/-- `poll` reports a client again, as long as it is listed and nobody has read from it. Each
client has a descriptor of its own. -/
def LevelTriggered (rounds : List (Round α)) : Prop :=
  ∀ before round next after, rounds = before ++ round :: next :: after →
    ∀ key ∈ round.start.readable, key ∉ round.dispatched → next.start.Lists key →
      key ∈ next.start.readable

theorem LevelTriggered.single (round : Round α) : LevelTriggered [round] := by
  intro before one next after split
  cases before with
  | nil => cases split
  | cons first before => simp at split

/-- A round that passes nobody over. -/
theorem LevelTriggered.cons {round : Round α} {rounds : List (Round α)}
    (all : ∀ key ∈ round.start.readable, key ∈ round.dispatched) (level : LevelTriggered rounds) :
    LevelTriggered (round :: rounds) := by
  intro before one next after split key readable unread
  cases before with
  | nil =>
      obtain ⟨rfl, -⟩ := List.cons.inj split
      exact absurd (all key readable) unread
  | cons first before =>
      exact level before one next after (List.cons.inj split).2 key readable unread

theorem Follows.poll {s : CServerSocket α} (sound : Sound s) (found : Nat → Revents) :
    Follows s (s.poll found) :=
  ⟨sound.poll found, le_rfl, fun c member => .inr ⟨c, member, rfl, id⟩⟩

/-- A client that was listed once, and is listed later, has been listed all the time. -/
theorem Follows.lists {s t u : CServerSocket α} (first : Follows s t) (second : Follows t u)
    (sound : Sound s) {key : Nat} (listed : s.Lists key) (later : u.Lists key) : t.Lists key := by
  obtain ⟨c, member, rfl⟩ := listed
  obtain ⟨c'', member'', same⟩ := later
  rcases second.old c'' member'' with new | ⟨c', member', same', -⟩
  · exact absurd ((sound.below c member).trans_le first.next) (Nat.not_lt.mpr (same ▸ new))
  · exact ⟨c', member', same'.trans same⟩

theorem readable_lists {s : CServerSocket α} {key : Nat} (readable : key ∈ s.readable) :
    s.Lists key := by
  obtain ⟨⟨key, revents⟩, member, rfl⟩ := List.mem_map.mp readable
  obtain ⟨c, listed, same⟩ := List.mem_map.mp (List.of_mem_zip (List.mem_of_mem_filter member)).1
  exact ⟨c, listed, same⟩

/-- The rounds of a dispatch that returns follow one another, and the last one finds nothing. -/
structure Chained (s : CServerSocket α) (rounds : List (Round α)) (t : CServerSocket α) :
    Prop where
  whole : Follows s t
  order : rounds.Pairwise fun round next => Follows round.start next.start
  first : ∀ round ∈ rounds, Follows s round.start
  last : ∀ round ∈ rounds, Follows round.start t
  quiet : ∀ round, rounds.getLast? = some round → round.start.readable = []

theorem Turns.hadAny {cfg : Config α} {i : Nat} {p q : Pass α} {turns : List (Turned α)}
    (turned : Turns cfg i p turns (.ok q)) (nothing : q.hadAny = false) :
    p.hadAny = false ∧ ∀ turn ∈ turns, turn.visited.rebuilt = false ∧ turn.served = none := by
  generalize same : Except.ok q = result at turned
  induction turned with
  | done =>
      cases same
      exact ⟨nothing, fun _ absent => absurd absent List.not_mem_nil⟩
  | unread polled silent more ih =>
      obtain ⟨before, rest⟩ := ih same
      exact ⟨before, List.forall_mem_cons.mpr ⟨⟨rfl, rfl⟩, rest⟩⟩
  | missing => cases same
  | thrown => cases same
  | next serves looked more ih =>
      -- A pass that dispatches a client notes it.
      obtain ⟨before, -⟩ := ih same
      obtain ⟨pfd, c, -, -, rfl⟩ := look_eq_ok looked
      cases serves with
      | read =>
          split at before
          · cases before
          · cases before

theorem Polls.follows {cfg : Config α} {s t : CServerSocket α} {round : Round α} {again : Bool}
    (polls : Polls cfg s round (.ok (again, t))) (sound : Sound s) :
    Follows s round.start ∧ Follows round.start t ∧ (again = false → round.start.readable = []) := by
  generalize same : Except.ok (again, t) = outcome at polls
  cases polls with
  | accepted found fd asks =>
      cases same
      exact ⟨.poll sound found, .emplace (sound.poll found) fd, nofun⟩
  | @existing found turns result none turned =>
      cases result with
      | error fault => cases same
      | ok p =>
          obtain ⟨rfl, rfl⟩ := Prod.mk.inj (Except.ok.inj same)
          have ended : Follows (s.poll found) p.socket := turned.visits.follows (sound.poll found)
          refine ⟨.poll sound found, ended.trans (finish_follows ended.sound), fun nothing => ?_⟩
          obtain ⟨-, unserved⟩ := turned.hadAny nothing
          have all := (turned.dispatches (sound.poll found).aligned (.refl _) le_rfl
            fun turn member => (unserved turn member).1).2
          have keys : turns.filterMap Turned.key = [] := by
            refine List.filterMap_eq_nil_iff.mpr fun turn member => ?_
            rw [Turned.key, (unserved turn member).2, Option.map_none]
          have first : s.internalFds - (s.poll found).internalFds = 0 := Nat.sub_self _
          rw [keys, first, List.drop_zero] at all
          exact all.symm

theorem Rounds.chained {cfg : Config α} {s t : CServerSocket α} {rounds : List (Round α)}
    (all : Rounds cfg s rounds (.returned t)) (sound : Sound s) : Chained s rounds t := by
  generalize same : Ending.returned t = ending at all
  induction all with
  | running => cases same
  | thrown => cases same
  | @last s t round polls =>
      cases same
      obtain ⟨start, ended, quiet⟩ := polls.follows sound
      refine ⟨start.trans ended, List.pairwise_singleton _ _, ?_, ?_, ?_⟩
      · exact List.forall_mem_singleton.mpr start
      · exact List.forall_mem_singleton.mpr ended
      · intro last is
        cases is
        exact quiet rfl
  | @again s u round rest ending polls more ih =>
      obtain ⟨start, ended, -⟩ := polls.follows sound
      have chained := ih ended.sound same
      refine ⟨(start.trans ended).trans chained.whole, ?_, ?_, ?_, ?_⟩
      · exact List.pairwise_cons.mpr
          ⟨fun next member => ended.trans (chained.first next member), chained.order⟩
      · refine List.forall_mem_cons.mpr ⟨start, fun next member => ?_⟩
        exact (start.trans ended).trans (chained.first next member)
      · exact List.forall_mem_cons.mpr ⟨ended.trans chained.whole, chained.last⟩
      · cases more with
        | last polls => exact chained.quiet
        | again polls more => exact chained.quiet
        | running => cases same
        | thrown => cases same

theorem Rounds.nonempty {cfg : Config α} {s t : CServerSocket α} {rounds : List (Round α)}
    (all : Rounds cfg s rounds (.returned t)) : rounds ≠ [] := by
  cases all with
  | last => exact List.cons_ne_nil _ _
  | again => exact List.cons_ne_nil _ _

theorem Events.chained {cfg : Config α} {block : Bool} {s t : CServerSocket α}
    {rounds : List (Round α)} (events : Events cfg block s rounds (.returned t)) (sound : Sound s) :
    Chained s rounds t := by
  generalize same : Ending.returned t = ending at events
  cases events with
  | now all =>
      cases same
      exact all.chained sound
  | @block _ u found rounds rest _ all waited =>
      cases same
      have one := all.chained sound
      have wait := Follows.poll one.whole.sound found
      have two := waited.chained wait.sound
      have onwards := wait.trans two.whole
      refine ⟨one.whole.trans onwards, ?_, ?_, ?_, ?_⟩
      · refine List.pairwise_append.mpr ⟨one.order, ?_, ?_⟩
        · exact List.pairwise_cons.mpr ⟨two.first, two.order⟩
        · intro round early
          have here := (one.last round early).trans wait
          exact List.forall_mem_cons.mpr
            ⟨here, fun next late => here.trans (two.first next late)⟩
      · refine List.forall_mem_append.mpr ⟨one.first, ?_⟩
        have here := one.whole.trans wait
        exact List.forall_mem_cons.mpr ⟨here, fun next late => here.trans (two.first next late)⟩
      · refine List.forall_mem_append.mpr ⟨fun round early => ?_, ?_⟩
        · exact (one.last round early).trans onwards
        · exact List.forall_mem_cons.mpr ⟨two.whole, two.last⟩
      · obtain ⟨last, rest, rfl⟩ := List.exists_cons_of_ne_nil waited.nonempty
        rw [List.getLast?_append, List.getLast?_cons_cons]
        intro round is
        refine two.quiet round ?_
        rw [List.getLast?_cons] at is ⊢
        exact is
  | before all on => exact absurd same.symm (on t)

/-- A client that is readable is dispatched in some round, unless it is dropped. -/
theorem serves_again {rounds : List (Round α)} {round : Round α} {key : Nat}
    (level : LevelTriggered (round :: rounds))
    (quiet : ∀ last, (round :: rounds).getLast? = some last → last.start.readable = [])
    (listed : ∀ next ∈ rounds, next.start.Lists key) (readable : key ∈ round.start.readable) :
    ∃ later ∈ round :: rounds, key ∈ later.dispatched := by
  induction rounds generalizing round with
  | nil =>
      rw [quiet round rfl] at readable
      exact absurd readable List.not_mem_nil
  | cons next rounds ih =>
      by_cases now : key ∈ round.dispatched
      · exact ⟨round, List.mem_cons_self, now⟩
      · have again := level [] round next rounds rfl key readable now
          (listed next List.mem_cons_self)
        obtain ⟨later, member, dispatched⟩ := ih
          (fun before one two after split =>
            level (round :: before) one two after (congrArg (List.cons round) split))
          (fun last is => quiet last (by rwa [List.getLast?_cons_cons]))
          (fun other member => listed other (List.mem_cons_of_mem _ member)) again
        exact ⟨later, List.mem_cons_of_mem _ member, dispatched⟩

/-- **Whoever is found readable and stays is dispatched.** -/
theorem Chained.serves {s t : CServerSocket α} {rounds : List (Round α)}
    (chained : Chained s rounds t) (level : LevelTriggered rounds)
    {before after : List (Round α)} {round : Round α} (order : rounds = before ++ round :: after)
    {key : Nat} (readable : key ∈ round.start.readable) (stays : t.Lists key) :
    ∃ later ∈ round :: after, key ∈ later.dispatched := by
  subst order
  have member : round ∈ before ++ round :: after :=
    List.mem_append_right _ List.mem_cons_self
  obtain ⟨-, pairs, -⟩ := List.pairwise_append.mp chained.order
  refine serves_again ?_ ?_ ?_ readable
  · intro first one two rest split
    refine level (before ++ first) one two rest ?_
    rw [split, List.append_assoc]
  · intro last is
    refine chained.quiet last ?_
    rw [List.getLast?_append, is, Option.some_or]
  · intro next later
    refine ((List.pairwise_cons.mp pairs).1 next later).lists (chained.last next ?_)
      (chained.first round member).sound (readable_lists readable) stays
    exact List.mem_append_right _ (List.mem_cons_of_mem _ later)

/-! ## Every dispatch -/

theorem Polls.completes_iff {cfg : Config α} {s : CServerSocket α} {round : Round α}
    {outcome : Except Fault (Bool × CServerSocket α)} (polls : Polls cfg s round outcome)
    (sound : Sound s) : (∃ next, outcome = .ok next) ↔ ∀ turn ∈ round.turns, turn.Stays := by
  cases polls with
  | accepted found fd asks =>
      exact iff_of_true ⟨_, rfl⟩ fun _ none => absurd none List.not_mem_nil
  | @existing found turns result none turned =>
      refine Iff.trans ?_ (turned.completes_iff (sound.poll found) le_rfl)
      cases result with
      | ok p => exact iff_of_true ⟨_, rfl⟩ ⟨_, rfl⟩
      | error fault =>
          constructor
          · rintro ⟨next, ok⟩
            cases ok
          · rintro ⟨q, ok⟩
            cases ok

theorem Polls.blames {cfg : Config α} {s : CServerSocket α} {round : Round α}
    {outcome : Except Fault (Bool × CServerSocket α)} (polls : Polls cfg s round outcome) :
    ∀ turn ∈ round.turns, ∀ c, turn.blamed = some c →
      ∃ revents, (c.key, revents) ∈ round.start.entries ∧ revents.pollhup = true := by
  cases polls with
  | accepted => exact fun _ none => absurd none List.not_mem_nil
  | existing none turned => exact turned.blames (.inl (.refl _)) le_rfl

theorem Rounds.completes_iff {cfg : Config α} {s : CServerSocket α} {rounds : List (Round α)}
    {ending : Ending α} (all : Rounds cfg s rounds ending) (sound : Sound s) :
    (∀ fault, ending ≠ .thrown fault) ↔
      ∀ round ∈ rounds, ∀ turn ∈ round.turns, turn.Stays := by
  induction all with
  | running => exact iff_of_true nofun fun _ none => absurd none List.not_mem_nil
  | last polls =>
      refine iff_of_true nofun (List.forall_mem_singleton.mpr ?_)
      exact (polls.completes_iff sound).mp ⟨_, rfl⟩
  | again polls more ih =>
      obtain ⟨start, ended, -⟩ := polls.follows sound
      rw [ih ended.sound, List.forall_mem_cons]
      exact (and_iff_right ((polls.completes_iff sound).mp ⟨_, rfl⟩)).symm
  | thrown polls =>
      refine iff_of_false (fun none => none _ rfl) fun stays => ?_
      obtain ⟨next, ok⟩ := (polls.completes_iff sound).mpr (stays _ (List.mem_singleton_self _))
      cases ok

theorem Rounds.blames {cfg : Config α} {s : CServerSocket α} {rounds : List (Round α)}
    {ending : Ending α} (all : Rounds cfg s rounds ending) :
    ∀ round ∈ rounds, ∀ turn ∈ round.turns, ∀ c, turn.blamed = some c →
      ∃ revents, (c.key, revents) ∈ round.start.entries ∧ revents.pollhup = true := by
  induction all with
  | running => exact fun _ none => absurd none List.not_mem_nil
  | last polls => exact List.forall_mem_singleton.mpr polls.blames
  | again polls more ih => exact List.forall_mem_cons.mpr ⟨polls.blames, ih⟩
  | thrown polls => exact List.forall_mem_singleton.mpr polls.blames

theorem Events.completes_iff {cfg : Config α} {block : Bool} {s : CServerSocket α}
    {rounds : List (Round α)} {ending : Ending α} (events : Events cfg block s rounds ending)
    (sound : Sound s) :
    (∀ fault, ending ≠ .thrown fault) ↔
      ∀ round ∈ rounds, ∀ turn ∈ round.turns, turn.Stays := by
  cases events with
  | now all => exact all.completes_iff sound
  | before all on => exact all.completes_iff sound
  | @block _ u found _ _ _ all waited =>
      rw [waited.completes_iff ((all.chained sound).whole.sound.poll found), List.forall_mem_append,
        List.forall_mem_cons]
      refine ((and_iff_right ((all.completes_iff sound).mp nofun)).trans (and_iff_right ?_)).symm
      exact fun _ none => absurd none List.not_mem_nil

theorem Events.blames {cfg : Config α} {block : Bool} {s : CServerSocket α}
    {rounds : List (Round α)} {ending : Ending α} (events : Events cfg block s rounds ending) :
    ∀ round ∈ rounds, ∀ turn ∈ round.turns, ∀ c, turn.blamed = some c →
      ∃ revents, (c.key, revents) ∈ round.start.entries ∧ revents.pollhup = true := by
  cases events with
  | now all => exact all.blames
  | before all on => exact all.blames
  | block all waited =>
      refine List.forall_mem_append.mpr ⟨all.blames, List.forall_mem_cons.mpr ⟨?_, waited.blames⟩⟩
      exact fun _ none => absurd none List.not_mem_nil

/-- A dispatch in which the list may be changed: no index is out of range, a client is blamed
for its own hang-up only, whoever was found readable and is still listed has been dispatched
since, and the mutex is unlocked in the end. -/
structure Safe (rounds : List (Round α)) (ending : Ending α) : Prop where
  inRange : ∀ fault, ending ≠ .thrown fault
  blames : ∀ round ∈ rounds, ∀ turn ∈ round.turns, ∀ c, turn.blamed = some c →
    ∃ revents, (c.key, revents) ∈ round.start.entries ∧ revents.pollhup = true
  serves : ∀ t, ending = .returned t →
    ∀ before round after, rounds = before ++ round :: after →
      ∀ key ∈ round.start.readable, t.Lists key → ∃ later ∈ round :: after, key ∈ later.dispatched
  unlocks : ending ≠ .running → ending.Unlocked

/-- **Changes of the list are safe exactly as long as listeners leave enough clients**: more
than stand before the one that is being dispatched. -/
theorem changes_safe_iff {cfg : Config α} {block : Bool} {s : CServerSocket α}
    {rounds : List (Round α)} {ending : Ending α} (reached : Reachable s)
    (events : Events cfg block s rounds ending) (level : LevelTriggered rounds) :
    Safe rounds ending ↔ ∀ round ∈ rounds, ∀ turn ∈ round.turns, turn.Stays := by
  rw [← events.completes_iff reached.sound]
  constructor
  · exact Safe.inRange
  · intro inRange
    refine ⟨inRange, events.blames, ?_, ?_⟩
    · rintro t rfl before round after order key readable stays
      exact (events.chained reached.sound).serves level order readable stays
    · intro ended
      cases ending with
      | returned t => trivial
      | thrown fault => exact absurd rfl (inRange fault)
      | running => exact absurd rfl ended

/-! ## A listener that changes the list -/

/-- A server that is called when an object is bound. -/
def informed : Config Unit :=
  { offering with impls := [{
      protocol := { specName := [0x61], specVer := 1, objects := [⟨[0x6f], [], []⟩] },
      implementation := [⟨[0x6f], some 1⟩] }] }

/-- The client has bound an object. -/
def boundClient : CServerClient where
  maxId := 2
  objects := [{ id := 1, version := 1, spec := some ⟨[0x6f], [], []⟩, protocolName := [0x61] }]
  sent := [.newObject 1 1]

/-- What is read from the client. -/
def bindRead : SSocketRawParsedMessage :=
  reading (CBindProtocolMessage.encode [0x61] 1 1) (by decide)

/-- The client binds an object, and the function that is called then changes the list. -/
theorem bind_serves {rebuilt : Bool} {socket : CServerSocket Unit}
    (meanwhile : Meanwhile informed.impls 0 (attended.poll (sending false)) rebuilt socket) :
    Serves informed 2 { socket := attended.poll (sending false) } ⟨⟨true, false⟩, rebuilt⟩
      ⟨{ key := 0, fd := 5 }, some bindRead,
        Pass.dispatched 0 ⟨boundClient, ()⟩ socket { socket := attended.poll (sending false) }⟩ := by
  have dispatched : dispatchClient informed 2 (some bindRead) ⟨{}, ()⟩ =
      some (.ok (⟨boundClient, ()⟩, [.bindProtocol [0x61] 1 1])) := by
    rfl
  exact @Serves.read Unit informed 2 { socket := attended.poll (sending false) }
    ⟨5, ⟨true, false⟩⟩ { key := 0, fd := 5 } _ _ _ _ _ _ rfl rfl rfl dispatched meanwhile

/-- A listener that adds a client. -/
theorem changes_safe_added :
    ∃ (rounds : List (Round Unit)) (t : CServerSocket Unit),
      Events informed false attended rounds (.returned t) ∧ Safe rounds (.returned t) ∧
        t.clients.map Connection.fd = [5, 6] := by
  have serves := bind_serves (.addClient 6 .nothing)
  have first : Polls informed attended _ _ :=
    .existing (fun asks => Bool.noConfusion asks.1) (.next serves rfl (.unread rfl rfl (.done le_rfl)))
  have events : Events informed false attended _ _ :=
    .now (.again first (.last (@Polls.existing Unit informed _ silence _ _
      (fun asks => Bool.noConfusion asks.1) (.unread rfl rfl (.unread rfl rfl (.done le_rfl))))))
  refine ⟨_, _, events, (changes_safe_iff attended_reachable events ?_).mpr ?_, rfl⟩
  · have readable : (attended.poll (sending false)).readable = [0] := by decide
    refine .cons (fun key member => ?_) (.single _)
    rw [readable] at member
    exact member
  · refine List.forall_mem_cons.mpr ⟨?_, List.forall_mem_singleton.mpr ?_⟩
    · refine List.forall_mem_cons.mpr ⟨?_, List.forall_mem_singleton.mpr (.unserved rfl)⟩
      intro serving served
      cases served
      exact Nat.zero_lt_two
    · exact List.forall_mem_cons.mpr
        ⟨.unserved rfl, List.forall_mem_singleton.mpr (.unserved rfl)⟩

/-- **A listener that removes its own client**, the last of the list: the index is out of
range, and the mutex stays locked. -/
theorem change_throws :
    ∃ rounds : List (Round Unit), Reachable attended ∧
      Events informed false attended rounds (.thrown .outOfRange) ∧ LevelTriggered rounds ∧
        ¬ Safe rounds (.thrown .outOfRange) := by
  have serves := bind_serves (.removeClient 5 .nothing ⟨_, List.mem_singleton_self _, rfl⟩)
  have polls : Polls informed attended _ _ :=
    .existing (fun asks => Bool.noConfusion asks.1) (.thrown serves rfl)
  exact ⟨_, attended_reachable, .now (.thrown polls), .single _, fun safe => safe.inRange _ rfl⟩

end Hyprwire.Server
