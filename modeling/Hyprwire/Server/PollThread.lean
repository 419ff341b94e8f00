import Hyprwire.Server.Terminated

/-!
# The exported loop

`extractLoopFD` starts a thread that polls the clients for the application, and writes to a
pipe that the application polls in turn. An `ExportedLoop` is the socket with the two threads
and the pipes between them, and a `Step` of it is a section of one thread under a lock, or one
access to a pipe. The passes of `dispatchEvents` are those of the socket
(`dispatching_steps`).

The poll thread goes on polling the clients that it has seen (`snapshot`) while others are
added. `addClient` writes to a pipe that the thread polls as well, but `dispatchEvents` reads
that pipe, and does not write to it when it accepts a connection itself. So the thread is not
woken for a new client when the application takes the byte from the pipe first
(`loses_wakeup`), and a run without such steps never loses a wake-up (`wakeups_kept`).

The destructor is not one of the steps, so that nothing is written to the third pipe and
`m_threadCanPoll` stays set.
-/

set_option autoImplicit false

namespace Hyprwire.Server

open Cpp

variable {α : Type}

/-! ## The two threads -/

/-- Where the thread of the application is. -/
inductive Caller where
  /-- outside the library -/
  | idle
  /-- in `addClient`, before the write -/
  | adding
  /-- in the loop of `dispatchEvents` -/
  | dispatching
  /-- in `clearEventFd` -/
  | clearingEvent
  /-- in `clearWakeupFd` -/
  | clearingWakeup
  /-- in `dispatchEvents`, when the mutex is unlocked -/
  | unlocked
  deriving DecidableEq, Repr

/-- The application holds `m_pollmtx`. -/
def Caller.locks : Caller → Bool
  | .dispatching | .clearingEvent | .clearingWakeup => true
  | _ => false

/-- Where the poll thread is. -/
inductive Poller where
  /-- before it locks `m_pollmtx` -/
  | starting
  /-- in `poll`, with the clients in its table -/
  | polling (snapshot : List Nat)
  /-- behind `poll` -/
  | polled
  /-- in `wait_for` -/
  | waiting
  deriving DecidableEq, Repr

/-- A socket whose loop was exported. The pipes have a number of bytes, `connecting` is the
number of connections that can be accepted, and `readable` has the clients whose descriptors
can be read. -/
structure ExportedLoop (α : Type) where
  socket : CServerSocket α
  caller : Caller := .idle
  poller : Poller := .starting
  wakeup : Nat := 0
  exported : Nat := 0
  pollEvent : Bool := false
  connecting : Nat := 0
  readable : List Nat := []

namespace ExportedLoop

/-- The clients that the poll thread puts into its table. -/
def snapshot (x : ExportedLoop α) : List Nat := x.socket.clients.map Connection.key

/-- A descriptor of a table can be read: the listening one, the one of the wake-up pipe, or
that of a client. -/
def Ready (x : ExportedLoop α) (snapshot : List Nat) : Prop :=
  x.socket.isEmptyListener = false ∧ 0 < x.connecting ∨ 0 < x.wakeup ∨
    ∃ key ∈ snapshot, key ∈ x.readable

/-- The poll thread is blocked in `poll`. -/
def Blocked (x : ExportedLoop α) (snapshot : List Nat) : Prop :=
  x.poller = .polling snapshot ∧ ¬ x.Ready snapshot

/-- **A wake-up is lost**: nobody will tell the application of what a client sends. -/
def LostWakeup (x : ExportedLoop α) : Prop :=
  x.caller = .idle ∧ x.exported = 0 ∧
    ∃ snapshot, x.Blocked snapshot ∧ ∃ c ∈ x.socket.clients, c.key ∉ snapshot

end ExportedLoop

/-- One turn of the loop of `clearFd`: what is left of the bytes. -/
def clearSome (bytes : Nat) : Nat := bytes - min bytes 127

/-! ## Steps -/

/-- What a step is. -/
inductive Label where
  | addClient
  | wakes
  | removeClient
  | acts
  | locks
  | accepts
  | dispatches
  | readsEvent
  | eventCleared
  | readsWakeup
  | wakeupCleared
  | handled
  | scans
  | found
  | interrupted
  | announces
  | notified
  | timeout
  | connects
  | sends
  deriving DecidableEq, Repr

/-- The steps of the two threads and of the kernel. What `poll` finds for the application is not
determined, as in `Pending`. -/
inductive Step (cfg : Config α) (x : ExportedLoop α) : Label → ExportedLoop α → Prop
  -- the application
  | addClient (fd : Int) (outside : x.caller = .idle) :
      Step cfg x .addClient { x with socket := x.socket.emplace fd, caller := .adding }
  | wakes (adding : x.caller = .adding) :
      Step cfg x .wakes { x with wakeup := x.wakeup + 1, caller := .idle }
  | removeClient (fd : Int) (outside : x.caller = .idle)
      (listed : ∃ c ∈ x.socket.clients, c.fd = fd) :
      Step cfg x .removeClient { x with socket := x.socket.removeClient fd }
  | acts {c : Connection} {trace : List Performed} {client : CServerClient} (memory : α)
      (outside : x.caller = .idle) (listed : c ∈ x.socket.clients)
      (own : ∀ performed ∈ trace, performed.act.ByApplication)
      (performed : Trace cfg.impls c.client trace client) :
      Step cfg x .acts { x with socket := { x.socket.setClient c.key client with memory } }
  -- `dispatchEvents(false)`
  | locks (outside : x.caller = .idle) : Step cfg x .locks { x with caller := .dispatching }
  | accepts (fd : Int) (found : Nat → Revents) (dispatching : x.caller = .dispatching)
      (asks : (x.socket.poll found).NewConnection) (waits : 0 < x.connecting) :
      Step cfg x .accepts
        { x with socket := (x.socket.poll found).emplace fd, connecting := x.connecting - 1 }
  | dispatches (found : Nat → Revents) {visits : List Visited} {p : Pass α} (readable : List Nat)
      (dispatching : x.caller = .dispatching) (none : ¬ (x.socket.poll found).NewConnection)
      (visited : Visits cfg x.socket.internalFds { socket := x.socket.poll found } visits (.ok p)) :
      -- The listeners may have called `addClient`.
      Step cfg x .dispatches { x with
        socket := p.finish
        caller := if p.hadAny then .dispatching else .clearingEvent
        wakeup := x.wakeup + (p.finish.nextKey - x.socket.nextKey)
        readable }
  | readsEvent (clearing : x.caller = .clearingEvent) (some : 0 < x.exported) :
      Step cfg x .readsEvent { x with exported := clearSome x.exported }
  | eventCleared (clearing : x.caller = .clearingEvent) (none : x.exported = 0) :
      Step cfg x .eventCleared { x with caller := .clearingWakeup }
  | readsWakeup (clearing : x.caller = .clearingWakeup) (some : 0 < x.wakeup) :
      Step cfg x .readsWakeup { x with wakeup := clearSome x.wakeup }
  | wakeupCleared (clearing : x.caller = .clearingWakeup) (none : x.wakeup = 0) :
      Step cfg x .wakeupCleared { x with caller := .unlocked }
  | handled (unlocked : x.caller = .unlocked) :
      Step cfg x .handled { x with pollEvent := false, caller := .idle }
  -- the poll thread
  | scans (starting : x.poller = .starting) (free : x.caller.locks = false) :
      Step cfg x .scans { x with poller := .polling x.snapshot }
  | found {snapshot : List Nat} (polling : x.poller = .polling snapshot)
      (ready : x.Ready snapshot) : Step cfg x .found { x with poller := .polled }
  | interrupted {snapshot : List Nat} (polling : x.poller = .polling snapshot) :
      Step cfg x .interrupted { x with poller := .polled }
  | announces (polled : x.poller = .polled) :
      Step cfg x .announces
        { x with pollEvent := true, exported := x.exported + 1, poller := .waiting }
  | notified (waiting : x.poller = .waiting) (handled : x.pollEvent = false) :
      Step cfg x .notified { x with poller := .starting }
  | timeout (waiting : x.poller = .waiting) : Step cfg x .timeout { x with poller := .starting }
  -- the other processes
  | connects : Step cfg x .connects { x with connecting := x.connecting + 1 }
  | sends (key : Nat) : Step cfg x .sends { x with readable := key :: x.readable }

/-- The loop when it is exported. There may be bytes in the wake-up pipe already. -/
structure Started (x : ExportedLoop α) : Prop where
  reachable : Reachable x.socket
  outside : x.caller = .idle
  starting : x.poller = .starting
  exported : x.exported = 0

/-- Any number of steps, in any order. -/
abbrev Steps (cfg : Config α) : ExportedLoop α → ExportedLoop α → Prop :=
  Relation.ReflTransGen fun x y => ∃ label, Step cfg x label y

/-! ## Runs that keep the wake-ups -/

/-- The table that the poll thread is polling, if it is, has all the clients. -/
def Covers (x : ExportedLoop α) : Prop :=
  ∀ snapshot, x.poller = .polling snapshot → ∀ c ∈ x.socket.clients, c.key ∈ snapshot

/-- `dispatchEvents` takes no byte from the wake-up pipe that the poll thread is to be woken by,
and accepts no connection that the poll thread is not woken for: it does the one while the
thread is not in `poll`, or polls all the clients, and the other while the thread is not in
`poll`, or there is a byte in the pipe. -/
def Timely (x : ExportedLoop α) : Label → Prop
  | .accepts => 0 < x.wakeup ∨ ∀ snapshot, x.poller ≠ .polling snapshot
  | .readsWakeup => Covers x
  | _ => True

/-- Any number of timely steps. -/
abbrev TimelySteps (cfg : Config α) : ExportedLoop α → ExportedLoop α → Prop :=
  Relation.ReflTransGen fun x y => ∃ label, Timely x label ∧ Step cfg x label y

/-- The poll thread has all the clients in its table, or is about to be woken. -/
structure Kept (x : ExportedLoop α) : Prop where
  sound : Sound x.socket
  woken : Covers x ∨ 0 < x.wakeup ∨ x.caller = .adding

/-- What the turns of a pass make of the clients is covered, or one of them is new. -/
theorem Covers.follows {x : ExportedLoop α} (covers : Covers x) {t : CServerSocket α}
    (follows : Follows x.socket t) :
    Covers { x with socket := t } ∨ x.socket.nextKey < t.nextKey := by
  by_cases new : x.socket.nextKey < t.nextKey
  · exact .inr new
  · left
    intro snapshot polling c listed
    rcases follows.old c listed with late | ⟨c', listed', same, -⟩
    · exact absurd (Nat.lt_of_le_of_lt late (follows.sound.below c listed)) new
    · exact same ▸ covers snapshot polling c' listed'

/-- Nothing is polled by a thread that is not in `poll`. -/
theorem covers_of_not_polling {x : ExportedLoop α}
    (elsewhere : ∀ snapshot, x.poller ≠ .polling snapshot) : Covers x :=
  fun snapshot polling => absurd polling (elsewhere snapshot)

namespace Kept

variable {cfg : Config α} {x y : ExportedLoop α} {label : Label}

theorem of_started (started : Started x) : Kept x where
  sound := started.reachable.sound
  woken := by
    left
    apply covers_of_not_polling
    intro snapshot polling
    rw [started.starting] at polling
    cases polling

/-- A step that leaves the poll thread alone, and writes to the wake-up pipe when a client is
new. -/
theorem of_follows (kept : Kept x) (follows : Follows x.socket y.socket)
    (poller : y.poller = x.poller)
    (wakeup : x.wakeup + (y.socket.nextKey - x.socket.nextKey) ≤ y.wakeup)
    (adding : x.caller = .adding → y.caller = .adding) : Kept y where
  sound := follows.sound
  woken := by
    rcases kept.woken with covers | some | adds
    · rcases covers.follows follows with covers | new
      · left
        intro snapshot polling
        exact covers snapshot (poller ▸ polling)
      · right
        left
        omega
    · right
      left
      omega
    · exact .inr (.inr (adding adds))

/-- A step that leaves the socket and the poll thread alone, and takes no byte from the wake-up
pipe. -/
theorem of_same (kept : Kept x) (socket : y.socket = x.socket) (poller : y.poller = x.poller)
    (wakeup : x.wakeup ≤ y.wakeup) (adding : x.caller = .adding → y.caller = .adding) :
    Kept y := by
  refine kept.of_follows ?_ poller ?_ adding
  · rw [socket]
    exact .refl kept.sound
  · rwa [socket, Nat.sub_self]

/-- A step after which the poll thread is not in `poll`. -/
theorem of_not_polling (sound : Sound y.socket)
    (elsewhere : ∀ snapshot, y.poller ≠ .polling snapshot) : Kept y :=
  ⟨sound, .inl (covers_of_not_polling elsewhere)⟩

/-- **A timely step keeps the wake-ups.** -/
theorem step (kept : Kept x) (timely : Timely x label) (step : Step cfg x label y) : Kept y := by
  cases step with
  | addClient fd outside => exact ⟨kept.sound.emplace fd, .inr (.inr rfl)⟩
  | wakes adding => exact ⟨kept.sound, .inr (.inl (Nat.succ_pos _))⟩
  | removeClient fd outside listed =>
      refine kept.of_follows (.filter kept.sound _) rfl ?_ id
      exact Nat.le_of_eq (congrArg (x.wakeup + ·) (Nat.sub_self _))
  | acts memory outside listed own performed =>
      have follows := Follows.setClient kept.sound (.refl kept.sound) listed performed.error
      refine kept.of_follows (follows.memory memory) rfl ?_ id
      exact Nat.le_of_eq (congrArg (x.wakeup + ·) (Nat.sub_self _))
  | locks outside =>
      refine kept.of_same rfl rfl le_rfl ?_
      intro adding
      cases outside.symm.trans adding
  | accepts fd found dispatching asks waits =>
      have sound := (kept.sound.poll found).emplace fd
      rcases timely with some | elsewhere
      · exact ⟨sound, .inr (.inl some)⟩
      · exact of_not_polling sound elsewhere
  | @dispatches found visits p readable dispatching none visited =>
      have turns := visited.follows (kept.sound.poll found)
      obtain ⟨sound, next, old⟩ := turns.trans (finish_follows turns.sound)
      refine kept.of_follows ⟨sound, next, old⟩ rfl le_rfl ?_
      intro adding
      cases dispatching.symm.trans adding
  | readsEvent clearing some => exact kept.of_same rfl rfl le_rfl id
  | eventCleared clearing none =>
      refine kept.of_same rfl rfl le_rfl ?_
      intro adding
      cases clearing.symm.trans adding
  | readsWakeup clearing some => exact ⟨kept.sound, .inl timely⟩
  | wakeupCleared clearing none =>
      refine kept.of_same rfl rfl le_rfl ?_
      intro adding
      cases clearing.symm.trans adding
  | handled unlocked =>
      refine kept.of_same rfl rfl le_rfl ?_
      intro adding
      cases unlocked.symm.trans adding
  | scans starting free =>
      refine ⟨kept.sound, .inl ?_⟩
      intro snapshot polling c listed
      cases polling
      exact List.mem_map_of_mem listed
  | found polling ready => exact of_not_polling kept.sound nofun
  | interrupted polling => exact of_not_polling kept.sound nofun
  | announces polled => exact of_not_polling kept.sound nofun
  | notified waiting handled => exact of_not_polling kept.sound nofun
  | timeout waiting => exact of_not_polling kept.sound nofun
  | connects => exact kept.of_same rfl rfl le_rfl id
  | sends key => exact kept.of_same rfl rfl le_rfl id

theorem steps (kept : Kept x) (steps : TimelySteps cfg x y) : Kept y := by
  induction steps with
  | refl => exact kept
  | tail _ next ih =>
      obtain ⟨label, timely, step⟩ := next
      exact ih.step timely step

/-- Then no wake-up is lost. -/
theorem not_lostWakeup (kept : Kept x) : ¬ x.LostWakeup := by
  rintro ⟨outside, -, snapshot, ⟨polling, blocked⟩, c, listed, omitted⟩
  rcases kept.woken with covers | some | adding
  · exact omitted (covers snapshot polling c listed)
  · exact blocked (.inr (.inl some))
  · cases outside.symm.trans adding

end Kept

/-- **No wake-up is lost** in a run whose steps are timely. -/
theorem wakeups_kept {cfg : Config α} {x y : ExportedLoop α} (started : Started x)
    (run : TimelySteps cfg x y) : ¬ y.LostWakeup :=
  ((Kept.of_started started).steps run).not_lostWakeup

/-! ## The dispatch of the socket -/

/-- The calls of `dispatchPending` are steps of the application, when there are as many
connections as it accepts. -/
theorem pending_steps {cfg : Config α} {s t : CServerSocket α} {passes : List (Passed α)}
    {hadAny : Bool} (pending : Pending cfg s passes hadAny t) :
    ∃ accepted, ∀ x : ExportedLoop α, x.socket = s → x.caller = .dispatching →
      accepted ≤ x.connecting → ∃ y, Steps cfg x y ∧ y.socket = t ∧
        y.caller = (if hadAny then .dispatching else .clearingEvent) ∧ y.poller = x.poller ∧
        x.connecting = y.connecting + accepted := by
  induction pending with
  | @accepted s t found passes hadAny fd asks _ ih =>
      obtain ⟨accepted, rest⟩ := ih
      refine ⟨accepted + 1, ?_⟩
      rintro x rfl dispatching enough
      have accepts : Step cfg x .accepts _ :=
        .accepts fd found dispatching asks (Nat.lt_of_lt_of_le (Nat.succ_pos _) enough)
      obtain ⟨y, steps, socket, caller, poller, connecting⟩ :=
        rest { x with
          socket := (x.socket.poll found).emplace fd
          connecting := x.connecting - 1 } rfl dispatching (Nat.le_sub_one_of_lt enough)
      refine ⟨y, .head ⟨_, accepts⟩ steps, socket, caller, poller, ?_⟩
      have less : x.connecting - 1 = y.connecting + accepted := connecting
      omega
  | @existing s found visits p none visited =>
      refine ⟨0, ?_⟩
      rintro x rfl dispatching -
      have dispatches : Step cfg x .dispatches _ :=
        .dispatches found x.readable dispatching none visited
      exact ⟨_, .single ⟨_, dispatches⟩, rfl, rfl, rfl, rfl⟩

/-- **The loop of `dispatchEvents`** is steps of the application. -/
theorem dispatching_steps {cfg : Config α} {s t : CServerSocket α} {passes : List (Passed α)}
    (dispatching : Dispatching cfg s passes t) :
    ∃ accepted, ∀ x : ExportedLoop α, x.socket = s → x.caller = .dispatching →
      accepted ≤ x.connecting → ∃ y, Steps cfg x y ∧ y.socket = t ∧ y.caller = .clearingEvent ∧
        y.poller = x.poller ∧ x.connecting = y.connecting + accepted := by
  induction dispatching with
  | last pending => exact pending_steps pending
  | again pending _ ih =>
      obtain ⟨first, begins⟩ := pending_steps pending
      obtain ⟨second, ends⟩ := ih
      refine ⟨first + second, ?_⟩
      intro x socket caller enough
      obtain ⟨y, steps, socket, caller, poller, connecting⟩ := begins x socket caller (by omega)
      obtain ⟨z, more, socket', caller', poller', connecting'⟩ :=
        ends y socket caller (by omega)
      exact ⟨z, steps.trans more, socket', caller', poller'.trans poller, by omega⟩

/-! ## Wake-ups that are lost -/

section Lost

variable {cfg : Config α}

/-- A pass over a table on which nothing was found. -/
theorem exists_visits (p : Pass α) (silent : ∀ pfd ∈ p.socket.pollfds, pfd.revents.pollin = false)
    (i : Nat) : ∃ visits, Visits cfg i p visits (.ok p) := by
  generalize left : p.socket.pollfds.length - i = n
  induction n generalizing i with
  | zero => exact ⟨[], .done (Nat.le_of_sub_eq_zero left)⟩
  | succ n ih =>
      have inside : i < p.socket.pollfds.length := by omega
      obtain ⟨visits, rest⟩ := ih (i + 1) (by omega)
      have polled := List.getElem?_eq_getElem inside
      exact ⟨_, .next (.unread polled (silent _ (List.getElem_mem inside))) rest⟩

theorem clearSome_lt {bytes : Nat} (some : 0 < bytes) : clearSome bytes < bytes := by
  rw [clearSome]
  omega

/-- `clearEventFd` empties its pipe. -/
theorem clearEventFd_steps {x : ExportedLoop α} (clearing : x.caller = .clearingEvent) :
    Steps cfg x { x with exported := 0, caller := .clearingWakeup } := by
  generalize bytes : x.exported = n
  induction n using Nat.strong_induction_on generalizing x with
  | _ n ih =>
      subst bytes
      rcases Nat.eq_zero_or_pos x.exported with none | some
      · have step : Step cfg x .eventCleared _ := .eventCleared clearing none
        rw [← none]
        exact .single ⟨_, step⟩
      · have step : Step cfg x .readsEvent _ := .readsEvent clearing some
        exact .head ⟨_, step⟩ (ih _ (clearSome_lt some) clearing rfl)

/-- `clearWakeupFd` empties its pipe. -/
theorem clearWakeupFd_steps {x : ExportedLoop α} (clearing : x.caller = .clearingWakeup) :
    Steps cfg x { x with wakeup := 0, caller := .unlocked } := by
  generalize bytes : x.wakeup = n
  induction n using Nat.strong_induction_on generalizing x with
  | _ n ih =>
      subst bytes
      rcases Nat.eq_zero_or_pos x.wakeup with none | some
      · have step : Step cfg x .wakeupCleared _ := .wakeupCleared clearing none
        rw [← none]
        exact .single ⟨_, step⟩
      · have step : Step cfg x .readsWakeup _ := .readsWakeup clearing some
        exact .head ⟨_, step⟩ (ih _ (clearSome_lt some) clearing rfl)

/-- A pass over a socket on which nothing is found, and what follows in `dispatchEvents`. -/
theorem dispatch_steps {x : ExportedLoop α} (dispatching : x.caller = .dispatching) :
    Steps cfg x { x with
      socket := x.socket.poll silence, caller := .idle, wakeup := 0, exported := 0,
      pollEvent := false } := by
  have silent : ∀ pfd ∈ (x.socket.poll silence).pollfds, pfd.revents.pollin = false := by
    intro pfd member
    obtain ⟨i, inside, rfl⟩ := List.getElem_of_mem member
    simp [CServerSocket.poll, silence]
  have none : ¬ (x.socket.poll silence).NewConnection := by
    rintro ⟨-, pfd, first, found⟩
    rw [silent pfd (List.mem_of_getElem? first)] at found
    cases found
  obtain ⟨visits, visited⟩ :=
    @exists_visits α cfg { socket := x.socket.poll silence } silent x.socket.internalFds
  have dispatches := @Step.dispatches α cfg x silence visits _ x.readable dispatching none visited
  have handled := @Step.handled α cfg { x with
    socket := x.socket.poll silence, exported := 0, wakeup := 0, caller := .unlocked } rfl
  refine .head ⟨_, dispatches⟩ ?_
  exact (clearEventFd_steps rfl).trans ((clearWakeupFd_steps rfl).tail ⟨_, handled⟩)

/-- The wake-up is lost when the poll thread omits a client, and has nothing to read but the
wake-up pipe. -/
theorem lost_of_dispatching {x : ExportedLoop α} {snapshot : List Nat} {c : Connection}
    (dispatching : x.caller = .dispatching) (polling : x.poller = .polling snapshot)
    (listed : c ∈ x.socket.clients) (omitted : c.key ∉ snapshot) (connecting : x.connecting = 0)
    (unread : x.readable = []) : ∃ y, Steps cfg x y ∧ y.LostWakeup := by
  refine ⟨_, dispatch_steps dispatching, rfl, rfl, snapshot, ⟨polling, ?_⟩, c, listed, omitted⟩
  rintro (⟨-, some⟩ | some | ⟨key, -, some⟩)
  · exact absurd connecting (Nat.ne_of_gt some)
  · exact absurd some (Nat.lt_irrefl 0)
  · rw [show _ = [] from unread] at some
    cases some

/-- **The wake-up of `addClient` is lost** whenever the application dispatches while the poll
thread is still in `poll` without the client, and has nothing else to read. -/
theorem loses_wakeup {x : ExportedLoop α} {snapshot : List Nat} {c : Connection}
    (outside : x.caller = .idle) (polling : x.poller = .polling snapshot)
    (listed : c ∈ x.socket.clients) (omitted : c.key ∉ snapshot) (connecting : x.connecting = 0)
    (unread : x.readable = []) : ∃ y, Steps cfg x y ∧ y.LostWakeup := by
  have locks : Step cfg x .locks { x with caller := .dispatching } := .locks outside
  obtain ⟨y, steps, lost⟩ := @lost_of_dispatching α cfg { x with caller := .dispatching } snapshot c
    rfl polling listed omitted connecting unread
  exact ⟨y, .head ⟨_, locks⟩ steps, lost⟩

/-- **There is no wake-up for a connection** that the application accepts while the poll thread
is in `poll`, and has nothing else to read. -/
theorem loses_connection {x : ExportedLoop α} {snapshot : List Nat} (sound : Sound x.socket)
    (outside : x.caller = .idle) (polling : x.poller = .polling snapshot)
    (earlier : ∀ key ∈ snapshot, key < x.socket.nextKey) (listening : x.socket.isEmptyListener = false)
    (connecting : x.connecting = 1) (unread : x.readable = []) (fd : Int) :
    ∃ y, Steps cfg x y ∧ y.LostWakeup := by
  have asks : (x.socket.poll fun _ => ⟨true, false⟩).NewConnection := by
    have three : 0 < x.socket.pollfds.length := by
      rw [← List.length_map, sound.synced, CServerSocket.internal, if_neg (by simp [listening])]
      exact Nat.succ_pos _
    refine ⟨listening, ⟨x.socket.pollfds[0].fd, ⟨true, false⟩⟩, ?_, rfl⟩
    simp [CServerSocket.poll, three]
  have locks : Step cfg x .locks { x with caller := .dispatching } := .locks outside
  have accepts := @Step.accepts α cfg { x with caller := .dispatching } fd _ rfl asks
    (Nat.lt_of_lt_of_eq Nat.one_pos connecting.symm)
  have late : x.socket.nextKey ∉ snapshot :=
    fun member => absurd (earlier _ member) (Nat.lt_irrefl _)
  obtain ⟨y, steps, lost⟩ := @lost_of_dispatching α cfg { x with
      socket := (x.socket.poll fun _ => ⟨true, false⟩).emplace fd
      caller := .dispatching
      connecting := x.connecting - 1 } snapshot { key := x.socket.nextKey, fd } rfl polling
    (List.mem_append_right _ (List.mem_singleton_self _)) late
    (congrArg (· - 1) connecting) unread
  exact ⟨y, .head ⟨_, locks⟩ (.head ⟨_, accepts⟩ steps), lost⟩

end Lost

/-! ## A client that is added while the poll thread polls -/

/-- A socket without a path whose loop is exported. -/
def exporting : ExportedLoop Unit where
  socket := (CServerSocket.attempt none 4 ()).extractLoopFD 6

theorem exporting_started : Started exporting where
  reachable := .extractLoopFD 6 (.attempt none 4 ())
  outside := rfl
  starting := rfl
  exported := rfl

/-- A client has been added after the poll thread has begun to poll. -/
def added : ExportedLoop Unit where
  socket := exporting.socket.emplace 5
  poller := .polling []
  wakeup := 1

theorem added_steps : TimelySteps idle exporting added :=
  .head ⟨.scans, trivial, .scans rfl rfl⟩ (.head ⟨.addClient, trivial, .addClient 5 rfl⟩
    (.single ⟨.wakes, trivial, .wakes rfl⟩))

/-- The poll thread was woken, and has the client in its table. -/
def served : ExportedLoop Unit where
  socket := (exporting.socket.emplace 5).poll silence
  poller := .polling [0]

theorem served_steps : TimelySteps idle added served := by
  have silent : Visits idle 2 { socket := (exporting.socket.emplace 5).poll silence } [⟨{}, false⟩]
      (.ok { socket := (exporting.socket.emplace 5).poll silence }) :=
    .next (@Visit.unread Unit idle 2 _ ⟨5, {}⟩ rfl rfl) (.done le_rfl)
  refine .head ⟨.found, trivial, .found rfl (.inr (.inl Nat.one_pos))⟩ ?_
  refine .head ⟨.announces, trivial, .announces rfl⟩ ?_
  refine .head ⟨.locks, trivial, .locks rfl⟩ ?_
  refine .head ⟨.dispatches, trivial, .dispatches silence [] rfl ?_ silent⟩ ?_
  · exact fun asks => Bool.noConfusion asks.1
  refine .head ⟨.readsEvent, trivial, .readsEvent rfl Nat.one_pos⟩ ?_
  refine .head ⟨.eventCleared, trivial, .eventCleared rfl rfl⟩ ?_
  refine .head ⟨.readsWakeup, covers_of_not_polling nofun, .readsWakeup rfl Nat.one_pos⟩ ?_
  refine .head ⟨.wakeupCleared, trivial, .wakeupCleared rfl rfl⟩ ?_
  refine .head ⟨.handled, trivial, .handled rfl⟩ ?_
  refine .head ⟨.notified, trivial, .notified rfl rfl⟩ ?_
  exact .single ⟨.scans, trivial, .scans rfl rfl⟩

/-- Its wake-up is not lost. -/
theorem wakeups_kept_served : ¬ served.LostWakeup :=
  wakeups_kept exporting_started (added_steps.trans served_steps)

/-- The wake-up is lost when the application dispatches before the poll thread returns from
`poll`. -/
theorem wakeup_lost :
    ∃ x y : ExportedLoop Unit, Started x ∧ Steps idle x y ∧ y.LostWakeup := by
  have steps : Steps idle exporting added :=
    .head ⟨.scans, .scans rfl rfl⟩ (.head ⟨.addClient, .addClient 5 rfl⟩
      (.single ⟨.wakes, .wakes rfl⟩))
  obtain ⟨y, more, lost⟩ := @loses_wakeup Unit idle added [] { key := 0, fd := 5 } rfl rfl
    (List.mem_singleton_self _) List.not_mem_nil rfl rfl
  exact ⟨exporting, y, exporting_started, steps.trans more, lost⟩

end Hyprwire.Server
