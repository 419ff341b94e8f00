import Hyprwire.Server.Acts
import Hyprwire.Server.Roundtrips

/-!
# The server socket

`CServerSocket` lists its clients, and polls a table of descriptors that is built from the
list. `dispatchEvents` makes passes over the table until nothing is found: each pass reads
the clients that have something, and drops those in error when it has found a hang-up.

What the kernel and the application do is not determined, so that a pass is a relation: a
`Visit` is one turn of its loop, and `Visits` the loop. While a client is dispatched, the
application may act on the others and change the list (`Meanwhile`), which builds the table
anew. The passes of a dispatch are kept (`Passed`), with what was seen at each turn.
`Reachable` is any state of a socket that was opened.
-/

set_option autoImplicit false

namespace Hyprwire.Server

open Cpp Wire Object

variable {α : Type}

/-! ## The socket -/

/-- What `poll` has found on a descriptor. -/
structure Revents where
  pollin : Bool := false
  pollhup : Bool := false
  deriving DecidableEq, Repr

/-- `pollfd`. Nothing is asked for but `POLLIN`. -/
structure Pollfd where
  fd : Int
  revents : Revents := {}
  deriving DecidableEq, Repr

/-- A client in the list. The key stands for the address of the shared client. -/
structure Connection where
  key : Nat
  fd : Int
  client : CServerClient := {}
  deriving DecidableEq, Repr

/-- `CServerSocket`, with the memory of the application. -/
structure CServerSocket (α : Type) where
  isEmptyListener : Bool
  fd : Int
  exitFd : Int
  wakeupFd : Int
  memory : α
  clients : List Connection := []
  pollfds : List Pollfd := []
  nextKey : Nat := 0

namespace CServerSocket

def internalFds (s : CServerSocket α) : Nat := if s.isEmptyListener then 2 else 3

/-- The descriptors of the socket itself. -/
def internal (s : CServerSocket α) : List Int :=
  if s.isEmptyListener then [s.exitFd, s.wakeupFd] else [s.fd, s.exitFd, s.wakeupFd]

def recheckPollFds (s : CServerSocket α) : CServerSocket α :=
  { s with pollfds := (s.internal ++ s.clients.map Connection.fd).map fun fd => { fd } }

/-- `attempt` and `attemptEmpty`. The descriptor of the first is a listening one. -/
def attempt (listening : Option Int) (wakeupFd : Int) (memory : α) : CServerSocket α :=
  recheckPollFds
    { isEmptyListener := listening.isNone, fd := listening.getD (-1), exitFd := -1, wakeupFd, memory }

/-- A client is listed at the end, by `addClient` when the descriptor is valid, and by
`dispatchNewConnections` with whatever `accept` returns. -/
def emplace (fd : Int) (s : CServerSocket α) : CServerSocket α :=
  recheckPollFds
    { s with clients := s.clients ++ [{ key := s.nextKey, fd }], nextKey := s.nextKey + 1 }

/-- `removeClient`, when there is one with the descriptor. -/
def removeClient (fd : Int) (s : CServerSocket α) : CServerSocket α :=
  recheckPollFds { s with clients := s.clients.filter fun c => c.fd ≠ fd }

/-- `extractLoopFD`, when it is called for the first time. -/
def extractLoopFD (exitFd : Int) (s : CServerSocket α) : CServerSocket α :=
  recheckPollFds { s with exitFd }

/-- `poll`. A call that fails finds what was found before. -/
def poll (found : Nat → Revents) (s : CServerSocket α) : CServerSocket α :=
  { s with pollfds := s.pollfds.mapIdx fun i pfd => { pfd with revents := found i } }

/-- The clients with a key have changed. -/
def setClient (key : Nat) (client : CServerClient) (s : CServerSocket α) : CServerSocket α :=
  { s with clients := s.clients.map fun c => if c.key = key then { c with client } else c }

/-- What `dispatchNewConnections` looks for. -/
def NewConnection (s : CServerSocket α) : Prop :=
  s.isEmptyListener = false ∧ ∃ pfd, s.pollfds[0]? = some pfd ∧ pfd.revents.pollin = true

end CServerSocket

/-! ## A pass -/

/-- The variables of `dispatchExistingConnections`. -/
structure Pass (α : Type) where
  socket : CServerSocket α
  hadAny : Bool := false
  needsPollRecheck : Bool := false

/-- What a turn of the loop comes across: what was polled on the descriptor, and whether
the application changes the list of clients while the client is dispatched. -/
structure Visited where
  revents : Revents
  rebuilt : Bool := false

namespace Pass

/-- A client has been dispatched. -/
def dispatched (key : Nat) (t : ServerState α) (socket : CServerSocket α) (p : Pass α) : Pass α :=
  { p with socket := { socket.setClient key t.client with memory := t.memory }, hadAny := true }

/-- What follows in a turn: the table and the list are looked at again. -/
def look (i : Nat) (p : Pass α) : Except Fault (Pass α) :=
  match p.socket.pollfds[i]?, p.socket.clients[i - p.socket.internalFds]? with
  | some pfd, some c =>
      if pfd.revents.pollhup then
        .ok { p with
          socket := p.socket.setClient c.key c.client.setError
          needsPollRecheck := true }
      else
        .ok p
  | _, _ => .error .outOfRange

/-- What follows after the loop. -/
def finish (p : Pass α) : CServerSocket α :=
  if p.needsPollRecheck then
    CServerSocket.recheckPollFds
      { p.socket with clients := p.socket.clients.filter fun c => !c.client.error }
  else
    p.socket

end Pass

/-- What the application does to the socket while a client is dispatched: it acts on other
clients, and adds and removes clients. -/
inductive Meanwhile (impls : Impls) (key : Nat) (s : CServerSocket α) :
    Bool → CServerSocket α → Prop
  | nothing : Meanwhile impls key s false s
  | acts {rebuilt : Bool} {t : CServerSocket α} {c : Connection} {trace : List Performed}
      {client : CServerClient} (before : Meanwhile impls key s rebuilt t) (listed : c ∈ t.clients)
      (other : c.key ≠ key) (own : ∀ performed ∈ trace, performed.act.ByApplication)
      (performed : Trace impls c.client trace client) :
      Meanwhile impls key s rebuilt (t.setClient c.key client)
  | addClient {rebuilt : Bool} {t : CServerSocket α} (fd : Int)
      (before : Meanwhile impls key s rebuilt t) : Meanwhile impls key s true (t.emplace fd)
  | removeClient {rebuilt : Bool} {t : CServerSocket α} (fd : Int)
      (before : Meanwhile impls key s rebuilt t) (listed : ∃ c ∈ t.clients, c.fd = fd) :
      Meanwhile impls key s true (t.removeClient fd)

/-- One turn of the loop of `dispatchExistingConnections`. -/
inductive Visit (cfg : Config α) (i : Nat) (p : Pass α) : Visited → Except Fault (Pass α) → Prop
  | unread {pfd : Pollfd} (polled : p.socket.pollfds[i]? = some pfd)
      (silent : pfd.revents.pollin = false) : Visit cfg i p ⟨pfd.revents, false⟩ (.ok p)
  | missing {pfd : Pollfd} (polled : p.socket.pollfds[i]? = some pfd)
      (ready : pfd.revents.pollin = true)
      (unlisted : p.socket.clients[i - p.socket.internalFds]? = none) :
      Visit cfg i p ⟨pfd.revents, false⟩ (.error .outOfRange)
  | read {pfd : Pollfd} {c : Connection} {turns : Nat} {read : Option SSocketRawParsedMessage}
      {t : ServerState α} {handled : List Received} {rebuilt : Bool} {socket : CServerSocket α}
      (polled : p.socket.pollfds[i]? = some pfd) (ready : pfd.revents.pollin = true)
      (listed : p.socket.clients[i - p.socket.internalFds]? = some c)
      (dispatched : dispatchClient cfg turns read ⟨c.client, p.socket.memory⟩ =
        some (.ok (t, handled)))
      (meanwhile : Meanwhile cfg.impls c.key p.socket rebuilt socket) :
      Visit cfg i p ⟨pfd.revents, rebuilt⟩ ((p.dispatched c.key t socket).look i)

/-- The loop of `dispatchExistingConnections`, from an index on. -/
inductive Visits (cfg : Config α) :
    Nat → Pass α → List Visited → Except Fault (Pass α) → Prop
  | done {i : Nat} {p : Pass α} (all : p.socket.pollfds.length ≤ i) : Visits cfg i p [] (.ok p)
  | thrown {i : Nat} {p : Pass α} {visited : Visited} {fault : Fault}
      (visit : Visit cfg i p visited (.error fault)) : Visits cfg i p [visited] (.error fault)
  | next {i : Nat} {p q : Pass α} {visited : Visited} {rest : List Visited}
      {result : Except Fault (Pass α)} (visit : Visit cfg i p visited (.ok q))
      (more : Visits cfg (i + 1) q rest result) : Visits cfg i p (visited :: rest) result

/-- A pass that was made: the socket after `poll`, what was come across, and the variables
after the loop. -/
structure Passed (α : Type) where
  start : CServerSocket α
  visits : List Visited
  ended : Pass α

/-! ## Dispatch -/

/-- `dispatchPending`, and what it returns. New connections are accepted first. -/
inductive Pending (cfg : Config α) :
    CServerSocket α → List (Passed α) → Bool → CServerSocket α → Prop
  | accepted {s t : CServerSocket α} {found : Nat → Revents} {passes : List (Passed α)}
      {hadAny : Bool} (fd : Int) (asks : (s.poll found).NewConnection)
      (more : Pending cfg ((s.poll found).emplace fd) passes hadAny t) :
      Pending cfg s passes hadAny t
  | existing {s : CServerSocket α} {found : Nat → Revents} {visits : List Visited} {p : Pass α}
      (none : ¬ (s.poll found).NewConnection)
      (visited : Visits cfg s.internalFds { socket := s.poll found } visits (.ok p)) :
      Pending cfg s [⟨s.poll found, visits, p⟩] p.hadAny p.finish

/-- `dispatchPending` is called until there was nothing. -/
inductive Dispatching (cfg : Config α) :
    CServerSocket α → List (Passed α) → CServerSocket α → Prop
  | last {s t : CServerSocket α} {passes : List (Passed α)}
      (pending : Pending cfg s passes false t) : Dispatching cfg s passes t
  | again {s t u : CServerSocket α} {passes rest : List (Passed α)}
      (pending : Pending cfg s passes true t) (more : Dispatching cfg t rest u) :
      Dispatching cfg s (passes ++ rest) u

/-- `dispatchEvents`, when it returns. -/
inductive DispatchEvents (cfg : Config α) :
    Bool → CServerSocket α → List (Passed α) → CServerSocket α → Prop
  | now {s t : CServerSocket α} {passes : List (Passed α)} (all : Dispatching cfg s passes t) :
      DispatchEvents cfg false s passes t
  | block {s t u : CServerSocket α} {found : Nat → Revents} {passes rest : List (Passed α)}
      (all : Dispatching cfg s passes t) (waited : Dispatching cfg (t.poll found) rest u) :
      DispatchEvents cfg true s (passes ++ rest) u

/-- The states of a socket that was opened. -/
inductive Reachable : CServerSocket α → Prop
  | attempt (listening : Option Int) (wakeupFd : Int) (memory : α) :
      Reachable (CServerSocket.attempt listening wakeupFd memory)
  | extractLoopFD {s : CServerSocket α} (exitFd : Int) (reached : Reachable s) :
      Reachable (s.extractLoopFD exitFd)
  | addClient {s : CServerSocket α} (fd : Int) (reached : Reachable s) : Reachable (s.emplace fd)
  | removeClient {s : CServerSocket α} (fd : Int) (reached : Reachable s)
      (listed : ∃ c ∈ s.clients, c.fd = fd) : Reachable (s.removeClient fd)
  | application {s : CServerSocket α} {impls : Impls} {c : Connection} {trace : List Performed}
      {client : CServerClient} (memory : α) (reached : Reachable s) (listed : c ∈ s.clients)
      (own : ∀ performed ∈ trace, performed.act.ByApplication)
      (performed : Trace impls c.client trace client) :
      Reachable { s.setClient c.key client with memory }
  | dispatchEvents {s t : CServerSocket α} {cfg : Config α} {block : Bool}
      {passes : List (Passed α)} (reached : Reachable s)
      (dispatched : DispatchEvents cfg block s passes t) : Reachable t

end Hyprwire.Server
