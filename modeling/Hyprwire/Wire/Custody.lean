import Hyprwire.Wire.SocketHelpers

/-!
# What becomes of received descriptors

A descriptor that is received belongs to the library until it is passed on to a listener or
closed. `Custody` is what has been passed on and what has been closed, and it `Owns` what was
received when each of it has been given to one of the two.

`parseFromFd` hands out the descriptors of its calls of `recvmsg` (`ReadFrom`), also when it
reports a bad message. A message that is accepted takes the first ones that are left
(`Decoded.fds_eq`). `trackMessage` is the loop over the messages of a read with the
descriptors that have been passed on; none is ever closed. So what was received is owned
exactly when all of it has been passed on: each message lands, and nothing is left
(`track_iff`).
-/

set_option autoImplicit false

namespace Hyprwire.Wire

open Cpp

/-! ## Custody -/

section Custody

variable {α : Type}

/-- Things are shared out: each is passed on or closed, those passed on in their order. -/
inductive SharedOut : List α → List α → List α → Prop
  | nil : SharedOut [] [] []
  | pass (x : α) {received passed closed : List α} (rest : SharedOut received passed closed) :
      SharedOut (x :: received) (x :: passed) closed
  | close (x : α) {received passed closed : List α} (rest : SharedOut received passed closed) :
      SharedOut (x :: received) passed (x :: closed)

theorem sharedOut_nil_iff {received passed : List α} :
    SharedOut received passed [] ↔ passed = received := by
  constructor
  · intro shared
    induction received generalizing passed with
    | nil =>
        cases shared
        rfl
    | cons x received ih =>
        cases shared with
        | pass x rest => rw [ih rest]
  · rintro rfl
    induction passed with
    | nil => exact .nil
    | cons x passed ih => exact .pass x ih

/-- What has been passed on, in order, and what has been closed. -/
structure Custody (α : Type) where
  passed : List α := []
  closed : List α := []

/-- **Everything that was received has one owner**: each of it is passed on, in the order of
receipt, or closed. -/
def Custody.Owns (custody : Custody α) (received : List α) : Prop :=
  ∃ closed, SharedOut received custody.passed closed ∧ closed.Perm custody.closed

/-- Where nothing is closed, everything is to be passed on. -/
theorem Custody.owns_iff {custody : Custody α} (unclosed : custody.closed = [])
    (received : List α) : custody.Owns received ↔ custody.passed = received := by
  rw [Custody.Owns, unclosed, ← sharedOut_nil_iff]
  constructor
  · rintro ⟨closed, shared, none⟩
    rwa [List.perm_nil.mp none] at shared
  · exact fun shared => ⟨[], shared, .refl _⟩

end Custody

/-! ## What a message takes -/

/-- The descriptors of a message that has been read. -/
def Received.fds : Received → List Fd
  | .generic msg => msg.fds
  | _ => []

section Takes

variable {heap : Heap} {data : View} {fds left : List Fd} {off len : Nat} {received : Received}

open CGenericProtocolMessage in
/-- A generic message takes the first descriptors of the queue. -/
theorem CGenericProtocolMessage.fds_of_decode {msg : CGenericProtocolMessage}
    (decoded : decode data fds off = some (.ok (msg, left))) (accepted : msg.len ≠ 0) :
    fds = msg.fds ++ left := by
  obtain ⟨object, method, s, -, reaches, -, -, same⟩ := decode_accepts.mp ⟨decoded, accepted⟩
  cases same
  have keeps : ∀ s s' : ElementState, fds = s.taken ++ s.fds →
      Next (elementTurn data off) s s' → fds = s'.taken ++ s'.fds := by
    intro s s' whole next
    obtain ⟨size, count, -, -, rfl⟩ := elementStep_eq_again.mp (next_iff.mp next)
    rw [whole]
    simp [ElementState.past]
  exact reaches.invariant keeps rfl

/-- **A message that is accepted takes the first descriptors that are left.** -/
theorem Decoded.fds_eq (decoded : Decoded heap data fds off received len left)
    (accepted : len ≠ 0) : fds = received.fds ++ left := by
  cases decoded with
  | generic decoded => exact CGenericProtocolMessage.fds_of_decode decoded accepted
  | _ => rfl

end Takes

/-! ## Reading -/

/-- What a read comes to, and the descriptors that `recvmsg` has handed out in it. Those of a
read that reports a bad message are in no message. -/
inductive ReadFrom {Q : Type} (recvmsg : Nat → Q → Option (List UInt8 × List Fd × Q)) (queue : Q) :
    Option SSocketRawParsedMessage → List Fd → Prop
  | got {collected : Collected Q}
      (run : Exits (readTurn recvmsg) { queue } (some collected)) {v : ByteVec}
      (bytes : v.data = collected.data) (outside : Nat → Option UInt8) :
      ReadFrom recvmsg queue (some ⟨v.viewIn outside, collected.fds⟩) collected.fds
  | bad {s : Collected Q} (reaches : Reaches (readTurn recvmsg) { queue } s)
      (fails : readTurn recvmsg s = some (.leave none)) : ReadFrom recvmsg queue none s.fds

/-! ## The loop over the messages of a read -/

section Loop

variable {σ : Type} (receiver : Receiver σ) (passes : Received → σ → List Fd)

/-- The loop before a message, with the descriptors that have been passed on. -/
structure Tracked (σ : Type) where
  state : ParseState σ
  passed : List Fd

/-- The descriptors that are passed on when a message is acted on. -/
def passedInTurn (data : View) (s : ParseState σ) : List Fd :=
  match receiver.parse data s.fds s.needle with
  | some (.ok (.message received _, _)) => passes received s.conn
  | _ => []

/-- One turn of the loop. A turn that leaves it has passed nothing on: it has no message, or a
fatal error. -/
def trackTurn (data : View) (t : Tracked σ) :
    Option (Turn (Tracked σ) (Except Fault (Handled σ × List Fd))) :=
  match parseTurn receiver data t.state with
  | none => none
  | some (.leave result) => some (.leave (result.map fun h => (h, t.passed)))
  | some (.again s) => some (.again ⟨s, t.passed ++ passedInTurn receiver passes data t.state⟩)

/-- `CMessageParser::handleMessage`, with the descriptors that are passed on. -/
def trackMessage (turns : Nat) (raw : SSocketRawParsedMessage) (conn : σ) :
    Option (Except Fault (Handled σ × List Fd)) :=
  loop (trackTurn receiver passes raw.data) turns ⟨firstMessage raw conn, []⟩

/-- What is passed on of a read. Of one that reports a bad message and of one without bytes
nothing is. Nothing is closed: there is no call of `close` on a received descriptor, and
none is kept in an object that closes it. -/
def custody (turns : Nat) (read : Option SSocketRawParsedMessage) (conn : σ) : Custody Fd :=
  match read with
  | none => {}
  | some raw =>
      if raw.data.size = 0 then
        {}
      else
        match trackMessage receiver passes turns raw conn with
        | some (.ok (_, passed)) => { passed }
        | _ => {}

variable {receiver passes}

/-- **The loop with the descriptors is the loop.** -/
theorem handleMessage_eq_trackMessage (turns : Nat) (raw : SSocketRawParsedMessage) (conn : σ) :
    handleMessage receiver turns raw conn =
      (trackMessage receiver passes turns raw conn).map (Except.map Prod.fst) := by
  refine @loop_map _ _ (trackTurn receiver passes raw.data) _ _ (parseTurn receiver raw.data)
    Tracked.state _ (fun t => ?_) turns ⟨firstMessage raw conn, []⟩
  rw [trackTurn]
  cases parseTurn receiver raw.data t.state with
  | none => rfl
  | some turn =>
      cases turn with
      | again s => rfl
      | leave result => cases result <;> rfl

/-- A message takes its descriptors from the queue, and passes on the first of them at
most. -/
structure Conserves (receiver : Receiver σ) (passes : Received → σ → List Fd) : Prop where
  takes : ∀ {data : View} {fds left : List Fd} {off len : Nat} {received : Received},
    receiver.parse data fds off = some (.ok (.message received len, left)) → len ≠ 0 →
      fds = received.fds ++ left
  first : ∀ received conn, passes received conn <+: received.fds

/-- A message that is acted on in a state of the loop. -/
structure ActsOn (receiver : Receiver σ) (data : View) (s : ParseState σ) (received : Received) :
    Prop where
  next : ∃ s', Next (parseTurn receiver data) s s'
  read : ∃ len left, receiver.parse data s.fds s.needle = some (.ok (.message received len, left))

/-- **What is received lands**: every message with descriptors lands, and there are no
descriptors left where the loop ends. -/
structure AllLand (receiver : Receiver σ) (lands : Received → σ → Prop) (data : View)
    (s : ParseState σ) : Prop where
  each : ∀ t received, Reaches (parseTurn receiver data) s t → ActsOn receiver data t received →
    received.fds ≠ [] → lands received t.conn
  rest : ∀ t h, Reaches (parseTurn receiver data) s t →
    parseTurn receiver data t = some (.leave (.ok h)) → t.fds = []

theorem AllLand.mono {lands lands' : Received → σ → Prop} {data : View} {s : ParseState σ}
    (land : AllLand receiver lands data s)
    (weaker : ∀ t received, Reaches (parseTurn receiver data) s t →
      ActsOn receiver data t received → received.fds ≠ [] → lands received t.conn →
        lands' received t.conn) : AllLand receiver lands' data s where
  each t received reaches acts some_ :=
    weaker t received reaches acts some_ (land.each t received reaches acts some_)
  rest := land.rest

section Track

variable {lands : Received → σ → Prop} {data : View} {s s' : ParseState σ}

/-- A turn that leaves the loop. -/
theorem allLand_of_leave {result : Except Fault (Handled σ)}
    (leaves : parseTurn receiver data s = some (.leave result)) (ok : ∃ h, result = .ok h) :
    AllLand receiver lands data s ↔ s.fds = [] := by
  have stays : ∀ t, Reaches (parseTurn receiver data) s t → t = s := by
    intro t reaches
    induction reaches with
    | refl => rfl
    | tail _ next ih =>
        subst ih
        cases leaves.symm.trans next
  obtain ⟨h, rfl⟩ := ok
  constructor
  · intro land
    exact land.rest s h .refl leaves
  · intro none
    refine ⟨fun t received reaches acts => ?_, fun t h' reaches _ => ?_⟩
    · obtain ⟨t', next⟩ := acts.next
      cases stays t reaches
      cases leaves.symm.trans next
    · cases stays t reaches
      exact none

/-- A turn that goes on. -/
theorem allLand_of_next (next : Next (parseTurn receiver data) s s') {received : Received}
    (acts : ActsOn receiver data s received) :
    AllLand receiver lands data s ↔
      (received.fds ≠ [] → lands received s.conn) ∧ AllLand receiver lands data s' := by
  have behind : ∀ t, Reaches (parseTurn receiver data) s t →
      t = s ∨ Reaches (parseTurn receiver data) s' t := by
    intro t reaches
    cases reaches.cases_head with
    | inl same => exact .inl same.symm
    | inr later =>
        obtain ⟨u, first, rest⟩ := later
        cases first.symm.trans next
        exact .inr rest
  constructor
  · intro land
    refine ⟨land.each s received .refl acts, ?_, ?_⟩
    · exact fun t received reaches => land.each t received (.head next reaches)
    · exact fun t h reaches => land.rest t h (.head next reaches)
  · rintro ⟨first, land⟩
    refine ⟨fun t other reaches acts' some_ => ?_, fun t h reaches leaves => ?_⟩
    · cases behind t reaches with
      | inl same =>
          subst same
          obtain ⟨len, left, read⟩ := acts.read
          obtain ⟨len', left', read'⟩ := acts'.read
          cases read.symm.trans read'
          exact first some_
      | inr later => exact land.each t other later acts' some_
    · cases behind t reaches with
      | inl same =>
          subst same
          cases leaves.symm.trans next
      | inr later => exact land.rest t h later leaves

/-- **What a loop passes on**: some of the descriptors that are left, each once and in order,
and all of them exactly when every message passes on all of its own and nothing is left. -/
theorem track_iff (conserves : Conserves receiver passes) {turns : Nat} {before after : List Fd}
    {h : Handled σ}
    (run : loop (trackTurn receiver passes data) turns ⟨s, before⟩ = some (.ok (h, after))) :
    ∃ more, after = before ++ more ∧ more.Sublist s.fds ∧
      (more = s.fds ↔
        AllLand receiver (fun received conn => passes received conn = received.fds) data s) := by
  induction turns generalizing s before with
  | zero => cases run
  | succ turns ih =>
      rw [loop, trackTurn] at run
      cases turn : parseTurn receiver data s with
      | none =>
          rw [turn] at run
          cases run
      | some result =>
          rw [turn] at run
          cases result with
          | leave result =>
              cases result with
              | error fault => cases run
              | ok h' =>
                  cases run
                  refine ⟨[], (List.append_nil _).symm, List.nil_sublist _, ?_⟩
                  rw [allLand_of_leave turn ⟨h, rfl⟩]
                  exact eq_comm
          | again s' =>
              obtain ⟨-, received, len, left, conn, read, -, length, same⟩ :=
                parseTurn_next_iff.mp turn
              obtain ⟨more, all, sub, iff⟩ := ih run
              have taken : s.fds = received.fds ++ s'.fds := by
                rw [same]
                exact conserves.takes read length
              have here : passedInTurn receiver passes data s = passes received s.conn := by
                rw [passedInTurn, read]
              have first := conserves.first received s.conn
              rw [here, List.append_assoc] at all
              refine ⟨_, all, ?_, ?_⟩
              · rw [taken]
                exact first.sublist.append sub
              · rw [taken, allLand_of_next turn ⟨⟨s', turn⟩, len, left, read⟩, ← iff]
                constructor
                · intro whole
                  have few := first.length_le
                  have fewer := sub.length_le
                  have lengths := congrArg List.length whole
                  rw [List.length_append, List.length_append] at lengths
                  obtain ⟨own, others⟩ := List.append_inj whole (by omega)
                  exact ⟨fun _ => own, others⟩
                · rintro ⟨own, rfl⟩
                  by_cases empty : received.fds = []
                  · rw [empty] at first
                    rw [empty, List.prefix_nil.mp first]
                  · rw [own empty]

end Track

/-- What is received by a read lands. -/
def ReadLands (receiver : Receiver σ) (lands : Received → σ → Prop) (fds : List Fd) (conn : σ) :
    Option SSocketRawParsedMessage → Prop
  | none => fds = []
  | some raw =>
      if raw.data.size = 0 then
        fds = []
      else
        AllLand receiver lands raw.data (firstMessage raw conn)

/-- **What is received by a read is owned exactly when it is all passed on**, by the messages it
comes with. In any case what is passed on has been received, each once and in order. -/
theorem custody_owns_iff (conserves : Conserves receiver passes) {turns : Nat}
    {read : Option SSocketRawParsedMessage} {fds : List Fd} {conn : σ}
    (has : ∀ raw, read = some raw → raw.fds = fds)
    (returns : ∀ raw, read = some raw → raw.data.size ≠ 0 →
      ∃ h, handleMessage receiver turns raw conn = some (.ok h)) :
    (custody receiver passes turns read conn).passed.Sublist fds ∧
      ((custody receiver passes turns read conn).Owns fds ↔
        ReadLands receiver (fun received conn => passes received conn = received.fds) fds conn
          read) := by
  have nothing : ({} : Custody Fd).passed.Sublist fds ∧
      (({} : Custody Fd).Owns fds ↔ fds = []) := by
    refine ⟨List.nil_sublist fds, ?_⟩
    rw [Custody.owns_iff rfl]
    exact eq_comm
  cases read with
  | none => exact nothing
  | some raw =>
      rw [custody, ReadLands]
      by_cases empty : raw.data.size = 0
      · rw [if_pos empty, if_pos empty]
        exact nothing
      · rw [if_neg empty, if_neg empty]
        obtain ⟨h, handled⟩ := returns raw rfl empty
        rw [@handleMessage_eq_trackMessage _ receiver passes] at handled
        obtain ⟨result, run, same⟩ := Option.map_eq_some_iff.mp handled
        obtain ⟨⟨h', after⟩, rfl, -⟩ := map_eq_ok.mp same
        obtain ⟨more, all, sub, iff⟩ := track_iff conserves run
        have fds_eq : (firstMessage raw conn).fds = fds := has raw rfl
        rw [List.nil_append] at all
        rw [fds_eq, ← all] at sub iff
        rw [run]
        refine ⟨sub, ?_⟩
        rw [Custody.owns_iff rfl]
        exact iff

theorem ReadLands.mono {lands lands' : Received → σ → Prop} {fds : List Fd} {conn : σ}
    {read : Option SSocketRawParsedMessage} (land : ReadLands receiver lands fds conn read)
    (weaker : ∀ raw, read = some raw → ∀ t received,
      Reaches (parseTurn receiver raw.data) (firstMessage raw conn) t →
      ActsOn receiver raw.data t received → received.fds ≠ [] → lands received t.conn →
        lands' received t.conn) : ReadLands receiver lands' fds conn read := by
  cases read with
  | none => exact land
  | some raw =>
      rw [ReadLands] at land ⊢
      split
      · next empty => rwa [if_pos empty] at land
      · next some_ =>
        rw [if_neg some_] at land
        exact land.mono (weaker raw rfl)

end Loop

end Hyprwire.Wire
