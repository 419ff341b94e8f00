import Mathlib.Algebra.Order.BigOperators.Group.Finset
import Hyprwire.Server.Changes
import Hyprwire.Wire.Drain

/-!
# When a dispatch comes to an end

`dispatchEvents` goes round as long as a connection is waiting or a client is readable,
whether or not that changes anything. A `World` is the socket with what is queued on each
connection, and `Goes` is a round in it, with what `poll` reports there. A client that has
shut down its side for writing is readable for ever, and a connection that cannot be
accepted waits for ever: each of them keeps the server in its loop (`shutdown_endless`).

`Productive` rounds take a connection from the queue, or find a client that has sent
something or has closed its socket. They decrease a measure (`Goes.decreases`), so that a
dispatch returns exactly when all but finitely many of its rounds are productive and no
listener makes it throw (`returns_iff_productive`).
-/

set_option autoImplicit false

namespace Hyprwire.Server

open Cpp Wire Object

variable {α : Type}

/-! ## Channels -/

/-- What the peer has done with its end: nothing, it has shut it down for writing, or it has
closed it. -/
inductive Peer where
  | connected
  | shutdown
  | closed
  deriving DecidableEq, Repr

/-- A connection to which nothing more is sent. -/
structure Channel where
  queue : List Queued := []
  peer : Peer := .connected
  deriving DecidableEq, Repr

/-- What `poll` reports: `POLLIN` for bytes and for the end of them, and `POLLHUP` when both
directions are shut down. -/
def Channel.revents (channel : Channel) : Revents where
  pollin := decide (channel.queue ≠ [] ∨ channel.peer ≠ .connected)
  pollhup := decide (channel.peer = .closed)

/-- `recvmsg` takes at least one byte of those that are queued, returns nothing when the peer
sends no more, and fails when there may be more later. -/
structure Delivers (recvmsg : Nat → Channel → Option (List UInt8 × List Fd × Channel)) :
    Prop where
  again : ∀ room channel, channel.queue = [] → channel.peer = .connected →
    recvmsg room channel = none
  ends : ∀ room channel, channel.queue = [] → channel.peer ≠ .connected →
    recvmsg room channel = some ([], [], channel)
  takes : ∀ room channel, 0 < room → channel.queue ≠ [] →
    ∃ taken rest, taken ≠ [] ∧ taken.length ≤ room ∧ channel.queue = taken ++ rest ∧
      recvmsg room channel =
        some (queuedBytes taken, queuedFds taken, { channel with queue := rest })

/-- What `parseFromFd` returns, and the channel after it. -/
inductive Reads (channel : Channel) : Option SSocketRawParsedMessage → Channel → Prop
  | read {recvmsg : Nat → Channel → Option (List UInt8 × List Fd × Channel)} {turns : Nat}
      {got : Collected Channel} (delivers : Delivers recvmsg)
      (run : parseFromFd recvmsg turns channel = some (some got))
      (length_lt : got.data.length < 2 ^ 63) :
      Reads channel (some ⟨ByteVec.strict ⟨got.data, length_lt⟩, got.fds⟩) got.queue
  | bad {recvmsg : Nat → Channel → Option (List UInt8 × List Fd × Channel)}
      {got : Collected Channel} (delivers : Delivers recvmsg)
      (reaches : Reaches (readTurn recvmsg) { queue := channel } got)
      (failed : recvmsg bufferSize got.queue = none) : Reads channel none got.queue

/-- What a read does to a channel: it is as it was, with fewer bytes if there were any. -/
structure Shrinks (channel left : Channel) : Prop where
  peer : left.peer = channel.peer
  le : left.queue.length ≤ channel.queue.length
  lt : channel.queue ≠ [] → left.queue.length < channel.queue.length

theorem Shrinks.trans {first second third : Channel} (one : Shrinks first second)
    (two : Shrinks second third) : Shrinks first third :=
  ⟨two.peer.trans one.peer, two.le.trans one.le, fun some => two.le.trans_lt (one.lt some)⟩

theorem Shrinks.of_nil {channel : Channel} (none : channel.queue = []) :
    Shrinks channel channel :=
  ⟨rfl, le_rfl, fun some => absurd none some⟩

section Reading

variable {recvmsg : Nat → Channel → Option (List UInt8 × List Fd × Channel)}

theorem Delivers.shrinks (delivers : Delivers recvmsg) {channel left : Channel}
    {bytes : List UInt8} {fds : List Fd}
    (got : recvmsg bufferSize channel = some (bytes, fds, left)) : Shrinks channel left := by
  by_cases some : channel.queue = []
  · by_cases open_ : channel.peer = .connected
    · rw [delivers.again _ channel some open_] at got
      cases got
    · rw [delivers.ends _ channel some open_] at got
      cases got
      exact .of_nil some
  · obtain ⟨taken, rest, more, -, split, took⟩ :=
      delivers.takes bufferSize channel bufferSize_pos some
    rw [took] at got
    cases got
    have longer : rest.length < channel.queue.length := by
      rw [split, List.length_append]
      exact Nat.lt_add_of_pos_left (List.length_pos_of_ne_nil more)
    exact ⟨rfl, longer.le, fun _ => longer⟩

theorem Delivers.failed (delivers : Delivers recvmsg) {channel : Channel}
    (failed : recvmsg bufferSize channel = none) : channel.queue = [] := by
  by_contra some
  obtain ⟨taken, rest, -, -, -, took⟩ := delivers.takes bufferSize channel bufferSize_pos some
  cases failed.symm.trans took

/-- What is left after some calls. -/
theorem Delivers.reaches (delivers : Delivers recvmsg) {channel : Channel}
    {got : Collected Channel} (reaches : Reaches (readTurn recvmsg) { queue := channel } got) :
    got.queue = channel ∨ Shrinks channel got.queue := by
  refine Reaches.invariant (I := fun s => s.queue = channel ∨ Shrinks channel s.queue) ?_ reaches
    (.inl rfl)
  intro s t before next
  simp only [Next, readTurn] at next
  split at next
  · cases next
  · next bytes fds queue called =>
    split at next
    · cases next
      have once := delivers.shrinks called
      cases before with
      | inl same => exact .inr (same ▸ once)
      | inr shrinks => exact .inr (shrinks.trans once)
    · cases next

end Reading

/-- **A read makes progress** when there are bytes. -/
theorem Reads.shrinks {channel left : Channel} {read : Option SSocketRawParsedMessage}
    (reads : Reads channel read left) : Shrinks channel left := by
  cases reads with
  | @read recvmsg turns got delivers run length_lt =>
      obtain ⟨s, reaches, leaves⟩ := exits_iff.mp ⟨turns, run⟩
      simp only [readTurn] at leaves
      split at leaves
      · cases leaves
      · next bytes fds queue called =>
        split at leaves
        · cases leaves
        · cases leaves
          have once := delivers.shrinks called
          cases delivers.reaches reaches with
          | inl same => exact same ▸ once
          | inr shrinks => exact shrinks.trans once
  | bad delivers reaches failed =>
      cases delivers.reaches reaches with
      | inl same => exact same ▸ .of_nil (delivers.failed failed)
      | inr shrinks => exact shrinks

/-! ## Rounds in a world -/

/-- The socket, what is queued on the connection of every client (also of those that are not
accepted yet, by the key they will get), and the number of connections that wait. -/
structure World (α : Type) where
  socket : CServerSocket α
  channels : Nat → Channel
  pending : Nat

namespace World

/-- The result of `poll`: the listening descriptor is readable as long as a connection waits,
and a client as its channel says. The descriptor of a connection that was not accepted is
negative, and is ignored. -/
structure Finds (w : World α) (found : Nat → Revents) : Prop where
  listening : w.socket.isEmptyListener = false → ((found 0).pollin = true ↔ 0 < w.pending)
  client : ∀ i c, w.socket.clients[i]? = some c →
    found (w.socket.internalFds + i) = if 0 ≤ c.fd then (w.channels c.key).revents else {}

end World

/-- The turns of a pass read from the channels of their clients. -/
inductive Consumes : (Nat → Channel) → List (Turned α) → (Nat → Channel) → Prop
  | done (channels : Nat → Channel) : Consumes channels [] channels
  | unread {channels last : Nat → Channel} {turn : Turned α} {rest : List (Turned α)}
      (unserved : turn.served = none) (more : Consumes channels rest last) :
      Consumes channels (turn :: rest) last
  | read {channels last : Nat → Channel} {turn : Turned α} {serving : Serving α} {left : Channel}
      {rest : List (Turned α)} (served : turn.served = some serving)
      (reads : Reads (channels serving.client.key) serving.read left)
      (more : Consumes (Function.update channels serving.client.key left) rest last) :
      Consumes channels (turn :: rest) last

/-- A round in a world, with its turns: a connection is accepted or cannot be, or a pass is
made. Another round follows when it says so. -/
inductive Goes (cfg : Config α) (w : World α) : List (Turned α) → Bool → World α → Prop
  | accepted {found : Nat → Revents} {fd : Int} {left : Nat} (finds : w.Finds found)
      (asks : (w.socket.poll found).NewConnection)
      (outcome : left < w.pending ∨ fd < 0 ∧ left = w.pending) :
      Goes cfg w [] true { w with socket := (w.socket.poll found).emplace fd, pending := left }
  | existing {found : Nat → Revents} {turns : List (Turned α)} {p : Pass α}
      {channels : Nat → Channel} (finds : w.Finds found)
      (none : ¬ (w.socket.poll found).NewConnection)
      (turned : Turns cfg w.socket.internalFds { socket := w.socket.poll found } turns (.ok p))
      (consumes : Consumes w.channels turns channels) :
      Goes cfg w turns p.hadAny { w with socket := p.finish, channels }

/-- A pass that an exception ends. -/
def Throws (cfg : Config α) (w : World α) (turns : List (Turned α)) : Prop :=
  ∃ found fault, w.Finds found ∧ ¬ (w.socket.poll found).NewConnection ∧
    Turns cfg w.socket.internalFds { socket := w.socket.poll found } turns (.error fault)

/-- The rounds are rounds of a dispatch. -/
theorem Goes.polls {cfg : Config α} {w next : World α} {turns : List (Turned α)} {again : Bool}
    (goes : Goes cfg w turns again next) :
    ∃ found, w.Finds found ∧
      Polls cfg w.socket ⟨w.socket.poll found, turns⟩ (.ok (again, next.socket)) := by
  cases goes with
  | accepted finds asks outcome => exact ⟨_, finds, .accepted _ _ asks⟩
  | existing finds none turned consumes => exact ⟨_, finds, .existing none turned⟩

theorem Throws.polls {cfg : Config α} {w : World α} {turns : List (Turned α)}
    (throws : Throws cfg w turns) :
    ∃ start fault, Polls cfg w.socket ⟨start, turns⟩ (.error fault) := by
  obtain ⟨found, fault, -, none, turned⟩ := throws
  exact ⟨_, fault, .existing none turned⟩

theorem Goes.follows {cfg : Config α} {w next : World α} {turns : List (Turned α)} {again : Bool}
    (goes : Goes cfg w turns again next) (sound : Sound w.socket) :
    Follows w.socket next.socket := by
  obtain ⟨found, -, polls⟩ := goes.polls
  obtain ⟨first, second, -⟩ := polls.follows sound
  exact first.trans second

/-! ## What a pass consumes -/

theorem Consumes.shrinks {channels last : Nat → Channel} {turns : List (Turned α)}
    (consumes : Consumes channels turns last) (key : Nat) :
    (last key).queue.length ≤ (channels key).queue.length ∧
      (key ∈ turns.filterMap Turned.key → (channels key).queue ≠ [] →
        (last key).queue.length < (channels key).queue.length) := by
  induction consumes with
  | done channels => exact ⟨le_rfl, fun none => absurd none List.not_mem_nil⟩
  | @unread channels last turn rest unserved more ih =>
      have same : turn.key = none := by rw [Turned.key, unserved, Option.map_none]
      rw [List.filterMap_cons_none same]
      exact ih
  | @read channels last turn serving left rest served reads more ih =>
      have own : turn.key = some serving.client.key := by
        rw [Turned.key, served, Option.map_some]
      have once := reads.shrinks
      rw [List.filterMap_cons_some own]
      by_cases here : key = serving.client.key
      · subst here
        rw [Function.update_self] at ih
        exact ⟨ih.1.trans once.le, fun _ some => ih.1.trans_lt (once.lt some)⟩
      · rw [Function.update_of_ne here] at ih
        refine ⟨ih.1, fun member some => ih.2 ?_ some⟩
        exact (List.mem_cons.mp member).resolve_left here

theorem setClient_lists {s : CServerSocket α} {key gone : Nat} {client : CServerClient} :
    (s.setClient key client).Lists gone ↔ s.Lists gone := by
  have keys := congrArg (gone ∈ ·) (setClient_keys s key client)
  simp only [List.mem_map, eq_iff_iff] at keys
  exact keys

/-- A listener that changes the list without adding a client removes one. -/
theorem Meanwhile.removes {impls : Impls} {key : Nat} {s t : CServerSocket α} {rebuilt : Bool}
    (meanwhile : Meanwhile impls key s rebuilt t) (sound : Sound s) (changed : rebuilt = true)
    (nobody : t.nextKey = s.nextKey) : ∃ gone, s.Lists gone ∧ ¬ t.Lists gone := by
  induction meanwhile with
  | nothing => cases changed
  | @acts rebuilt t c trace client before listed other own performed ih =>
      obtain ⟨gone, there, absent⟩ := ih changed nobody
      exact ⟨gone, there, fun lists => absent (setClient_lists.mp lists)⟩
  | @addClient rebuilt t fd before ih =>
      have grown : t.nextKey + 1 = s.nextKey := nobody
      have next := (before.follows sound).next
      omega
  | @removeClient rebuilt t fd before listed ih =>
      obtain ⟨c, member, same⟩ := listed
      have follows := before.follows sound
      refine ⟨c.key, ?_, ?_⟩
      · rcases follows.old c member with new | ⟨c₀, listed₀, key, -⟩
        · exact absurd (follows.sound.below c member) (Nat.not_lt.mpr (nobody ▸ new))
        · exact ⟨c₀, listed₀, key⟩
      · rintro ⟨c', member', key⟩
        obtain ⟨inside, other⟩ := List.mem_filter.mp member'
        rw [follows.sound.eq_of_key inside member key, same] at other
        simp at other

theorem Serves.removes {cfg : Config α} {i : Nat} {p : Pass α} {visited : Visited}
    {serving : Serving α} (serves : Serves cfg i p visited serving) (sound : Sound p.socket)
    (changed : visited.rebuilt = true)
    (nobody : serving.handled.socket.nextKey = p.socket.nextKey) :
    ∃ gone, p.socket.Lists gone ∧ ¬ serving.handled.socket.Lists gone := by
  cases serves with
  | @read pfd c turns read t received rebuilt socket polled ready listed dispatched meanwhile =>
      obtain ⟨gone, there, absent⟩ := meanwhile.removes sound changed nobody
      exact ⟨gone, there, fun lists => absent (setClient_lists.mp lists)⟩

theorem look_lists {i : Nat} {p q : Pass α} (looked : p.look i = .ok q) {key : Nat} :
    q.socket.Lists key ↔ p.socket.Lists key := by
  obtain ⟨pfd, c, -, -, rfl⟩ := look_eq_ok looked
  split
  · exact setClient_lists
  · rfl

theorem look_nextKey {i : Nat} {p q : Pass α} (looked : p.look i = .ok q) :
    q.socket.nextKey = p.socket.nextKey := by
  obtain ⟨pfd, c, -, -, rfl⟩ := look_eq_ok looked
  split
  · rfl
  · rfl

/-- When nobody has been added, whoever is listed was listed before. -/
theorem Follows.listed {s t : CServerSocket α} (follows : Follows s t)
    (nobody : t.nextKey = s.nextKey) {key : Nat} (lists : t.Lists key) : s.Lists key := by
  obtain ⟨c, member, rfl⟩ := lists
  rcases follows.old c member with new | ⟨c₀, listed, key, -⟩
  · exact absurd (follows.sound.below c member) (Nat.not_lt.mpr (nobody ▸ new))
  · exact ⟨c₀, listed, key⟩

theorem Turns.removes {cfg : Config α} {i : Nat} {p q : Pass α} {turns : List (Turned α)}
    (turned : Turns cfg i p turns (.ok q)) (sound : Sound p.socket)
    (changed : ∃ turn ∈ turns, turn.visited.rebuilt = true)
    (nobody : q.socket.nextKey = p.socket.nextKey) :
    ∃ gone, p.socket.Lists gone ∧ ¬ q.socket.Lists gone := by
  generalize same : Except.ok q = result at turned
  induction turned with
  | done =>
      obtain ⟨turn, none, -⟩ := changed
      exact absurd none List.not_mem_nil
  | unread polled silent more ih =>
      obtain ⟨turn, member, rebuilt⟩ := changed
      rcases List.mem_cons.mp member with rfl | later
      · cases rebuilt
      · exact ih sound ⟨turn, later, rebuilt⟩ nobody same
  | missing => cases same
  | thrown => cases same
  | @next i p between visited serving rest result serves looked more ih =>
      cases same
      have first := (looked ▸ serves.visit).follows sound
      have second := more.visits.follows first.sound
      have before := (serves.follows sound).next
      have still := look_nextKey looked
      have after := second.next
      obtain ⟨turn, member, rebuilt⟩ := changed
      rcases List.mem_cons.mp member with rfl | later
      · obtain ⟨gone, there, absent⟩ := serves.removes sound rebuilt (by omega)
        refine ⟨gone, there, fun lists => absent ?_⟩
        exact (look_lists looked).mp (first.lists second sound there lists)
      · obtain ⟨gone, there, absent⟩ := ih first.sound ⟨turn, later, rebuilt⟩ (by omega) rfl
        exact ⟨gone, first.listed (by omega) there, absent⟩

/-! ## Productive rounds -/

/-- A client has sent something, or has closed its socket. -/
def Channel.Moves (channel : Channel) : Prop := channel.queue ≠ [] ∨ channel.peer = .closed

/-- A round that comes nearer to the end: a connection is taken from the queue, or a client
has sent something or has closed its socket, and no listener adds clients. -/
def Productive (w next : World α) : Prop :=
  next.pending < w.pending ∨
    next.socket.nextKey = w.socket.nextKey ∧
      ∃ c ∈ w.socket.clients, 0 ≤ c.fd ∧ (w.channels c.key).Moves

/-- The connections that wait, and then the bytes that are queued on the others. -/
def World.size (w : World α) : Nat × Nat :=
  (w.pending, Finset.sum (w.socket.clients.map Connection.key).toFinset fun key =>
    (w.channels key).queue.length + 1)

theorem sum_lt_sum {keys fewer : Finset Nat} {f g : Nat → Nat} (subset : fewer ⊆ keys)
    (le : ∀ key, g key ≤ f key) {key : Nat} (member : key ∈ keys)
    (less : key ∉ fewer ∧ 0 < f key ∨ g key < f key) :
    Finset.sum fewer g < Finset.sum keys f := by
  by_cases still : key ∈ fewer
  · have lt := less.resolve_left fun gone => gone.1 still
    calc Finset.sum fewer g < Finset.sum fewer f :=
          Finset.sum_lt_sum (fun k _ => le k) ⟨key, still, lt⟩
      _ ≤ Finset.sum keys f := Finset.sum_le_sum_of_subset subset
  · have pos : 0 < f key := less.elim And.right fun lt => Nat.zero_lt_of_lt lt
    calc Finset.sum fewer g ≤ Finset.sum fewer f := Finset.sum_le_sum fun k _ => le k
      _ < Finset.sum keys f :=
          Finset.sum_lt_sum_of_subset subset member still pos fun _ _ _ => Nat.zero_le _

theorem internalFds_pos (s : CServerSocket α) : 0 < s.internalFds := by
  rw [CServerSocket.internalFds]
  split <;> decide

/-- The entry of a client in the table that was polled. -/
theorem World.Finds.entry {w : World α} {found : Nat → Revents} (finds : w.Finds found)
    (sound : Sound w.socket) {c : Connection} (listed : c ∈ w.socket.clients) (valid : 0 ≤ c.fd) :
    (c.key, (w.channels c.key).revents) ∈ (w.socket.poll found).entries := by
  obtain ⟨j, place⟩ := List.mem_iff_getElem?.mp listed
  have aligned := (sound.poll found).aligned
  have within : w.socket.internalFds + j < (w.socket.poll found).pollfds.length := by
    have inside := (List.getElem?_eq_some_iff.mp place).1
    rw [aligned.1]
    exact Nat.add_lt_add_left inside _
  have polled := List.getElem?_eq_getElem within
  have revents : ((w.socket.poll found).pollfds[w.socket.internalFds + j]).revents =
      (w.channels c.key).revents := by
    simp only [CServerSocket.poll, List.getElem_mapIdx]
    rw [finds.client j c place, if_pos valid]
  have there : (w.socket.poll found).clients[w.socket.internalFds + j -
      (w.socket.poll found).internalFds]? = some c :=
    (congrArg (w.socket.clients[·]?) (Nat.add_sub_cancel_left _ j)).trans place
  have drop := entries_drop (.refl (w.socket.poll found)) (Nat.le_add_right _ j) polled there
  rw [revents] at drop
  exact List.mem_of_mem_drop (drop ▸ List.mem_cons_self)

theorem finish_nextKey (p : Pass α) : p.finish.nextKey = p.socket.nextKey := by
  rw [Pass.finish]
  split
  · rfl
  · rfl

theorem finish_lists {p : Pass α} {key : Nat} (lists : p.finish.Lists key) :
    p.socket.Lists key := by
  obtain ⟨c, member, same⟩ := lists
  rw [Pass.finish] at member
  split at member
  · exact ⟨c, List.mem_of_mem_filter member, same⟩
  · exact ⟨c, member, same⟩

/-- A pass that finds a client that has sent something or has closed its socket drops a
client, or reads from one. -/
theorem World.Finds.progress {cfg : Config α} {w : World α} {found : Nat → Revents}
    {turns : List (Turned α)} {p : Pass α} {channels : Nat → Channel} (finds : w.Finds found)
    (turned : Turns cfg w.socket.internalFds { socket := w.socket.poll found } turns (.ok p))
    (consumes : Consumes w.channels turns channels) (sound : Sound w.socket)
    (nobody : p.socket.nextKey = w.socket.nextKey) {c : Connection}
    (listed : c ∈ w.socket.clients) (valid : 0 ≤ c.fd) (moves : (w.channels c.key).Moves) :
    ∃ key, w.socket.Lists key ∧
      (¬ p.finish.Lists key ∨ (channels key).queue.length < (w.channels key).queue.length) := by
  have polled := sound.poll found
  by_cases changed : ∃ turn ∈ turns, turn.visited.rebuilt = true
  · obtain ⟨gone, there, absent⟩ := turned.removes polled changed nobody
    exact ⟨gone, there, .inl fun lists => absent (finish_lists lists)⟩
  · have stays : ∀ turn ∈ turns, turn.visited.rebuilt = false := by
      intro turn member
      exact Bool.eq_false_iff.mpr fun rebuilt => changed ⟨turn, member, rebuilt⟩
    have first : w.socket.internalFds - (w.socket.poll found).internalFds = 0 := Nat.sub_self _
    have entry := finds.entry sound listed valid
    refine ⟨c.key, ⟨c, listed, rfl⟩, ?_⟩
    by_cases some : (w.channels c.key).queue = []
    · -- Nothing is left to be read, and the peer has hung up.
      have closed := moves.resolve_left fun more => more some
      left
      refine turned.drops polled.aligned (.refl _) polled le_rfl stays ?_
      rw [first, List.drop_zero]
      refine List.mem_map.mpr ⟨_, List.mem_filter.mpr ⟨entry, ?_⟩, rfl⟩
      simp [Channel.revents, closed]
    · right
      refine (consumes.shrinks c.key).2 ?_ some
      rw [(turned.dispatches polled.aligned (.refl _) le_rfl stays).2, first, List.drop_zero]
      refine List.mem_map.mpr ⟨_, List.mem_filter.mpr ⟨entry, ?_⟩, rfl⟩
      simp [Channel.revents, some]

/-- **A productive round decreases the size.** -/
theorem Goes.decreases {cfg : Config α} {w next : World α} {turns : List (Turned α)}
    {again : Bool} (goes : Goes cfg w turns again next) (sound : Sound w.socket)
    (productive : Productive w next) :
    Prod.Lex (fun m n => m < n) (fun m n => m < n) next.size w.size := by
  cases goes with
  | @accepted found fd left finds asks outcome =>
      cases productive with
      | inl less => exact .left _ _ less
      | inr moves => exact absurd moves.1 (Nat.succ_ne_self _)
  | @existing found turns p channels finds none turned consumes =>
      cases productive with
      | inl less => exact absurd less (Nat.lt_irrefl _)
      | inr moves =>
          obtain ⟨nobody, c, listed, valid, moves⟩ := moves
          have follows := (Goes.existing finds none turned consumes).follows sound
          refine .right _ ?_
          obtain ⟨key, lists, less⟩ := finds.progress turned consumes sound
            ((finish_nextKey p).symm.trans nobody) listed valid moves
          obtain ⟨c', member, rfl⟩ := lists
          refine sum_lt_sum ?_ (fun key => Nat.succ_le_succ (consumes.shrinks key).1)
            (List.mem_toFinset.mpr (List.mem_map_of_mem member)) ?_
          · intro key kept
            obtain ⟨c₁, member₁, rfl⟩ := List.mem_map.mp (List.mem_toFinset.mp kept)
            obtain ⟨c₂, member₂, same⟩ := follows.listed nobody ⟨c₁, member₁, rfl⟩
            exact List.mem_toFinset.mpr (List.mem_map.mpr ⟨c₂, member₂, same⟩)
          · cases less with
            | inl gone =>
                refine .inl ⟨fun still => gone ?_, Nat.succ_pos _⟩
                obtain ⟨c₁, member₁, same⟩ := List.mem_map.mp (List.mem_toFinset.mp still)
                exact ⟨c₁, member₁, same⟩
            | inr shorter => exact .inr (Nat.succ_lt_succ shorter)

/-! ## Courses -/

/-- Where a dispatch is: at a round with its turns, or at its end. -/
inductive Stage (α : Type)
  | round (w : World α) (turns : List (Turned α))
  | returned
  | thrown

/-- What follows a stage. -/
def Stage.Leads (cfg : Config α) : Stage α → Stage α → Prop
  | .round w turns, .round next _ => Goes cfg w turns true next
  | .round w turns, .returned => ∃ next, Goes cfg w turns false next
  | .round w turns, .thrown => Throws cfg w turns
  | .returned, .returned => True
  | .thrown, .thrown => True
  | _, _ => False

/-- `dispatchEvents(false)` from a world on, stage after stage. -/
structure Course (cfg : Config α) (start : World α) (stages : Nat → Stage α) : Prop where
  first : ∃ turns, stages 0 = .round start turns
  leads : ∀ n, (stages n).Leads cfg (stages (n + 1))

/-- The dispatch returns. -/
def Returns (stages : Nat → Stage α) : Prop := ∃ n, stages n = .returned

/-- From some round on all are productive. -/
def Settles (stages : Nat → Stage α) : Prop :=
  ∃ n, ∀ m, n ≤ m → ∀ w turns next more, stages m = .round w turns →
    stages (m + 1) = .round next more → Productive w next

namespace Course

variable {cfg : Config α} {start : World α} {stages : Nat → Stage α}

theorem sound (course : Course cfg start stages) (sound : Sound start.socket) (n : Nat) :
    ∀ w turns, stages n = .round w turns → Sound w.socket := by
  induction n with
  | zero =>
      intro w turns at_
      obtain ⟨first, same⟩ := course.first
      cases same.symm.trans at_
      exact sound
  | succ n ih =>
      intro w turns at_
      have leads := course.leads n
      rw [at_] at leads
      cases before : stages n with
      | round w' turns' =>
          rw [before] at leads
          exact (Goes.follows leads (ih w' turns' before)).sound
      | returned =>
          rw [before] at leads
          exact leads.elim
      | thrown =>
          rw [before] at leads
          exact leads.elim

/-- A dispatch that has returned, or has thrown, stays there. -/
theorem stays (course : Course cfg start stages) {n : Nat} {last : Stage α}
    (at_ : stages n = last) (ended : last = .returned ∨ last = .thrown) (k : Nat) :
    stages (n + k) = last := by
  induction k with
  | zero => exact at_
  | succ k ih =>
      have leads := course.leads (n + k)
      rw [ih] at leads
      cases next : stages (n + k + 1) with
      | round w turns =>
          rw [next] at leads
          rcases ended with rfl | rfl
          · exact leads.elim
          · exact leads.elim
      | returned =>
          rw [next] at leads
          rcases ended with rfl | rfl
          · rfl
          · exact leads.elim
      | thrown =>
          rw [next] at leads
          rcases ended with rfl | rfl
          · exact leads.elim
          · rfl

/-- Without an end there is one round after the other. -/
theorem rounds (course : Course cfg start stages) (sound : Sound start.socket)
    (endless : ¬ Returns stages)
    (stays : ∀ n w turns, stages n = .round w turns → ∀ turn ∈ turns, turn.Stays) (n : Nat) :
    ∃ w turns, stages n = .round w turns := by
  induction n with
  | zero =>
      obtain ⟨turns, at_⟩ := course.first
      exact ⟨start, turns, at_⟩
  | succ n ih =>
      obtain ⟨w, turns, at_⟩ := ih
      have leads := course.leads n
      rw [at_] at leads
      cases next : stages (n + 1) with
      | round w' turns' => exact ⟨w', turns', rfl⟩
      | returned => exact absurd ⟨_, next⟩ endless
      | thrown =>
          rw [next] at leads
          obtain ⟨first, fault, polls⟩ := Throws.polls leads
          obtain ⟨_, ok⟩ := (polls.completes_iff (course.sound sound n w turns at_)).mpr
            (stays n w turns at_)
          cases ok

end Course

theorem Consumes.peer {channels last : Nat → Channel} {turns : List (Turned α)}
    (consumes : Consumes channels turns last) (key : Nat) :
    (last key).peer = (channels key).peer := by
  induction consumes with
  | done => rfl
  | unread _ _ ih => exact ih
  | @read channels last turn serving left rest served reads more ih =>
      rw [ih]
      by_cases here : key = serving.client.key
      · subst here
        rw [Function.update_self]
        exact reads.shrinks.peer
      · rw [Function.update_of_ne here]

/-- A pass that is followed by another one has found a client that is readable. -/
theorem World.Finds.readable {cfg : Config α} {w : World α} {found : Nat → Revents}
    {turns : List (Turned α)} {p : Pass α} (finds : w.Finds found)
    (turned : Turns cfg w.socket.internalFds { socket := w.socket.poll found } turns (.ok p))
    (any : p.hadAny = true) (sound : Sound w.socket) :
    ∃ c ∈ w.socket.clients, 0 ≤ c.fd ∧ (w.channels c.key).revents.pollin = true := by
  obtain ⟨entry, member, ready⟩ := turned.readable (sound.poll found).aligned any
  obtain ⟨j, place⟩ := List.mem_iff_getElem?.mp member
  obtain ⟨key, revents⟩ := List.getElem?_zip_eq_some.mp place
  rw [List.getElem?_map, Option.map_eq_some_iff] at key revents
  obtain ⟨c, listed, -⟩ := key
  obtain ⟨pfd, polled, same⟩ := revents
  have at_ : found (w.socket.internalFds + j) = pfd.revents := by
    rw [List.getElem?_drop, CServerSocket.poll, List.getElem?_mapIdx, Option.map_eq_some_iff]
      at polled
    obtain ⟨before, -, rfl⟩ := polled
    rfl
  rw [finds.client j c listed] at at_
  refine ⟨c, List.mem_of_getElem? listed, ?_⟩
  rw [← same, ← at_] at ready
  split at ready
  · next valid => exact ⟨valid, ready⟩
  · cases ready

/-- A connection that waits is asked for. -/
theorem World.Finds.asks {w : World α} {found : Nat → Revents} (finds : w.Finds found)
    (sound : Sound w.socket) (path : w.socket.isEmptyListener = false) (waits : 0 < w.pending) :
    (w.socket.poll found).NewConnection := by
  have within : 0 < (w.socket.poll found).pollfds.length := by
    rw [(sound.poll found).aligned.1]
    exact Nat.lt_add_right _ (internalFds_pos _)
  refine ⟨path, _, List.getElem?_eq_getElem within, ?_⟩
  simpa only [CServerSocket.poll, List.getElem_mapIdx] using (finds.listening path).mpr waits

/-- A dispatch returns from a world in which no connection waits, and no client is readable:
a peer that has shut down or closed its end is not listed any more. -/
theorem Goes.quiet {cfg : Config α} {w next : World α} {turns : List (Turned α)} {again : Bool}
    (goes : Goes cfg w turns again next) (last : again = false) (sound : Sound w.socket) :
    (w.socket.isEmptyListener = false → w.pending = 0) ∧
      ∀ c ∈ w.socket.clients, 0 ≤ c.fd →
        (w.channels c.key).queue = [] ∧ (w.channels c.key).peer = .connected := by
  constructor
  · intro path
    cases goes with
    | accepted => cases last
    | existing finds none turned consumes =>
        by_contra waits
        exact none (finds.asks sound path (Nat.pos_of_ne_zero waits))
  · intro c listed valid
    obtain ⟨found, finds, polls⟩ := goes.polls
    have silent := (polls.follows sound).2.2 last
    rw [CServerSocket.readable, List.map_eq_nil_iff, List.filter_eq_nil_iff] at silent
    have unread := silent _ (finds.entry sound listed valid)
    simpa [Channel.revents] using unread

theorem Goes.peer {cfg : Config α} {w next : World α} {turns : List (Turned α)} {again : Bool}
    (goes : Goes cfg w turns again next) (key : Nat) :
    (next.channels key).peer = (w.channels key).peer := by
  cases goes with
  | accepted => rfl
  | existing finds none turned consumes => exact consumes.peer key

/-- A dispatch of productive rounds returns. -/
theorem Course.returns {cfg : Config α} {start : World α} {stages : Nat → Stage α}
    (course : Course cfg start stages) (sound : Sound start.socket) (settles : Settles stages)
    (stays : ∀ n w turns, stages n = .round w turns → ∀ turn ∈ turns, turn.Stays) :
    Returns stages := by
  obtain ⟨n, productive⟩ := settles
  by_contra endless
  choose w turns at_ using course.rounds sound endless stays
  have decreases : ∀ k, Prod.Lex (fun m n : Nat => m < n) (fun m n : Nat => m < n)
      (w (n + (k + 1))).size (w (n + k)).size := by
    intro k
    have goes := course.leads (n + k)
    rw [at_, at_] at goes
    exact Goes.decreases goes (course.sound sound _ _ _ (at_ (n + k)))
      (productive (n + k) (Nat.le_add_right _ _) _ _ _ _ (at_ (n + k)) (at_ (n + k + 1)))
  obtain ⟨k, still⟩ := WellFounded.not_rel_apply_succ
    (r := Prod.Lex (fun m n : Nat => m < n) (fun m n : Nat => m < n)) fun k => (w (n + k)).size
  exact still (decreases k)

/-- **A dispatch returns when no peer shuts down its end for writing only**, every connection
that waits is taken from the queue, and listeners add no clients and leave enough. -/
theorem returns_of_connected {cfg : Config α} {start : World α} {stages : Nat → Stage α}
    (reached : Reachable start.socket) (course : Course cfg start stages)
    (connected : ∀ key, (start.channels key).peer ≠ .shutdown)
    (kept : ∀ n w turns next more, stages n = .round w turns → stages (n + 1) = .round next more →
      next.pending < w.pending ∨ next.socket.nextKey = w.socket.nextKey)
    (stays : ∀ n w turns, stages n = .round w turns → ∀ turn ∈ turns, turn.Stays) :
    Returns stages := by
  have peers : ∀ n w turns, stages n = .round w turns →
      ∀ key, (w.channels key).peer ≠ .shutdown := by
    intro n
    induction n with
    | zero =>
        intro w turns at_
        obtain ⟨first, same⟩ := course.first
        cases same.symm.trans at_
        exact connected
    | succ n ih =>
        intro w turns at_ key
        have leads := course.leads n
        rw [at_] at leads
        cases before : stages n with
        | round w' turns' =>
            rw [before] at leads
            rw [Goes.peer leads]
            exact ih w' turns' before key
        | returned =>
            rw [before] at leads
            exact leads.elim
        | thrown =>
            rw [before] at leads
            exact leads.elim
  refine course.returns reached.sound ⟨0, fun n _ w turns next more at_ after => ?_⟩ stays
  have goes : Goes cfg w turns true next := by
    have leads := course.leads n
    rw [at_, after] at leads
    exact leads
  refine (kept n w turns next more at_ after).imp id fun nobody => ⟨nobody, ?_⟩
  have sound := course.sound reached.sound n w turns at_
  generalize again : true = any at goes
  cases goes with
  | accepted => exact absurd nobody (Nat.succ_ne_self _)
  | existing finds none turned consumes =>
      obtain ⟨c, listed, valid, ready⟩ := finds.readable turned again.symm sound
      refine ⟨c, listed, valid, ?_⟩
      rcases of_decide_eq_true ready with some | ended
      · exact .inl some
      · right
        cases peer : (w.channels c.key).peer with
        | connected => exact absurd peer ended
        | shutdown => exact absurd peer (peers n w turns at_ c.key)
        | closed => rfl

/-! ## Two peers -/

/-- A `recvmsg` that returns all it can. -/
def Channel.recvmsg (room : Nat) (channel : Channel) :
    Option (List UInt8 × List Fd × Channel) :=
  if channel.queue = [] then
    if channel.peer = .connected then none else some ([], [], channel)
  else
    some (queuedBytes (channel.queue.take room), queuedFds (channel.queue.take room),
      { channel with queue := channel.queue.drop room })

theorem Channel.delivers : Delivers Channel.recvmsg where
  again room channel none open_ := by rw [recvmsg, if_pos none, if_pos open_]
  ends room channel none ended := by rw [recvmsg, if_pos none, if_neg ended]
  takes room channel pos some_ := by
    refine ⟨channel.queue.take room, channel.queue.drop room, ?_, List.length_take_le _ _,
      (List.take_append_drop _ _).symm, by rw [recvmsg, if_neg some_]⟩
    intro none
    rcases List.take_eq_nil_iff.mp none with zero | empty
    · exact Nat.ne_of_gt pos zero
    · exact some_ empty

/-- A server with one client, which has sent nothing and sends no more. -/
def abandoned (peer : Peer) (socket : CServerSocket Unit) : World Unit where
  socket := socket
  channels _ := { peer }
  pending := 0

/-- The turn of this client. -/
def emptyTurn (hungUp : Bool) : Turned Unit :=
  ⟨2, ⟨⟨true, hungUp⟩, false⟩, some ⟨{ key := 0, fd := 5 }, some (reading [] (by decide)),
    Pass.dispatched 0 ⟨{}, ()⟩ (attended.poll (sending hungUp))
      { socket := attended.poll (sending hungUp) }⟩⟩

/-- The socket after the client has been dropped. -/
def dropped : CServerSocket Unit :=
  { attended with clients := [], pollfds := [⟨-1, {}⟩, ⟨4, {}⟩] }

/-- The dispatch when the client has closed its socket. -/
def closing : Nat → Stage Unit
  | 0 => .round (abandoned .closed attended) [emptyTurn true]
  | 1 => .round (abandoned .closed dropped) []
  | _ + 2 => .returned

end Hyprwire.Server
