import Hyprwire.Cpp.Below
import Hyprwire.Object.Called
import Hyprwire.Wire.VarInt

/-!
# What the walks depend on

The walks of `called` read the data of a message without a look at its size. Over a view that
is below the data they do the same, unless they leave that view (`called_agrees`). So a
message whose walks stay inside its data is treated by its bytes alone (`called_guarded`).
-/

set_option autoImplicit false

namespace Hyprwire.Object

open Cpp Wire

section Walks

variable {u v : View}

theorem agrees_parseVarIntFrom (below : u.Below v) (start len shifts i rolling : Nat) :
    Agrees (parseVarIntFrom u start len shifts i rolling)
      (parseVarIntFrom v start len shifts i rolling) := by
  induction shifts generalizing i rolling with
  | zero => exact (below.rawAt _).bind fun byte => .refl _
  | succ shifts ih =>
      refine (below.rawAt _).bind fun byte => ?_
      exact .ite (ih _ _) (.refl _)

theorem agrees_parseVarInt (below : u.Below v) (start len : Nat) :
    Agrees (parseVarInt u start len) (parseVarInt v start len) :=
  agrees_parseVarIntFrom below start len 5 0 0

/-! ## The first walk -/

theorem agrees_checkStrings (below : u.Below v) (dataI n arrMessageLen : Nat) :
    Agrees (checkStrings u dataI n arrMessageLen) (checkStrings v dataI n arrMessageLen) := by
  induction n generalizing arrMessageLen with
  | zero => exact .refl _
  | succ n ih =>
      rw [checkStrings, checkStrings, below.size]
      refine .ite (.refl _) ?_
      exact (agrees_parseVarInt below _ _).bind fun read => ih _

theorem agrees_checkParam (below : u.Below v) (id : UInt32) (param : UInt8)
    (following : Option UInt8) (i dataI : Nat) :
    Agrees (checkParam u id param following i dataI) (checkParam v id param following i dataI) := by
  rw [checkParam, checkParam, below.size]
  refine (below.rawAt _).bind fun wireParam => ?_
  refine .ite (.refl _) ?_
  split
  · exact .refl _
  · exact .refl _
  · exact .refl _
  · exact .refl _
  · exact .refl _
  · exact .refl _
  · exact .refl _
  · exact (agrees_parseVarInt below _ _).bind fun read => .refl _
  · split
    · exact .refl _
    · refine (below.rawAt _).bind fun wireType => ?_
      refine .ite (.refl _) ?_
      refine (agrees_parseVarInt below _ _).bind fun read => ?_
      obtain ⟨arrLen, lenLen⟩ := read
      dsimp only
      split
      · exact .refl _
      · exact .refl _
      · exact .refl _
      · exact .refl _
      · exact .refl _
      · exact (agrees_checkStrings below _ _ _).bind fun stop => .refl _
      · exact .refl _
      · exact .refl _
  · exact .refl _
  · exact .refl _

theorem agrees_typeCheck (below : u.Below v) (id : UInt32) (params : List UInt8) (i dataI : Nat) :
    Agrees (typeCheck u id params i dataI) (typeCheck v id params i dataI) := by
  induction params using List.twoStepInduction generalizing i dataI with
  | nil => exact .refl _
  | singleton param =>
      rw [typeCheck, typeCheck]
      refine (agrees_checkParam below _ _ _ _ _).bind fun turn => ?_
      cases turn with
      | next types dataI => exact .refl _
      | skip types dataI => exact .refl _
      | failed message => exact .refl _
  | cons_cons param following params ih ih' =>
      rw [typeCheck, typeCheck]
      refine (agrees_checkParam below _ _ _ _ _).bind fun turn => ?_
      cases turn with
      | next types dataI => exact (ih' _ _ _).bind fun rest => .refl _
      | skip types dataI => exact (ih _ _).bind fun rest => .refl _
      | failed message => exact .refl _

/-! ## The second walk -/

theorem agrees_copyWords (below : u.Below v) (n start : Nat) :
    Agrees (copyWords u n start) (copyWords v n start) := by
  induction n generalizing start with
  | zero => exact .refl _
  | succ n ih =>
      refine (below.rawU32 _).bind fun value => ?_
      exact (ih _).bind fun rest => .refl _

theorem agrees_copyStrings (below : u.Below v) (i n arrMessageLen : Nat) :
    Agrees (copyStrings u i n arrMessageLen) (copyStrings v i n arrMessageLen) := by
  induction n generalizing arrMessageLen with
  | zero => exact .refl _
  | succ n ih =>
      rw [copyStrings, copyStrings, below.size]
      refine (agrees_parseVarInt below _ _).bind fun read => ?_
      refine (below.copyString _ _ _).bind fun str => ?_
      exact (ih _).bind fun rest => .refl _

theorem agrees_demarshalItem (below : u.Below v) (fds : List Fd) (i fdNo : Nat) :
    Agrees (demarshalItem u fds i fdNo) (demarshalItem v fds i fdNo) := by
  rw [demarshalItem, demarshalItem, below.size]
  refine (below.rawAt _).bind fun param => ?_
  split
  · exact .refl _
  · exact (below.rawU32 _).bind fun value => .refl _
  · exact (below.rawU32 _).bind fun value => .refl _
  · exact (below.rawU32 _).bind fun value => .refl _
  · exact (below.rawU32 _).bind fun value => .refl _
  · exact (below.rawU32 _).bind fun value => .refl _
  · refine (agrees_parseVarInt below _ _).bind fun read => ?_
    exact (below.copyString _ _ _).bind fun str => .refl _
  · refine (below.rawAt _).bind fun arrType => ?_
    refine (agrees_parseVarInt below _ _).bind fun read => ?_
    obtain ⟨arrLen, lenLen⟩ := read
    dsimp only
    split
    · exact (agrees_copyWords below _ _).bind fun elements => .refl _
    · exact (agrees_copyWords below _ _).bind fun elements => .refl _
    · exact (agrees_copyWords below _ _).bind fun elements => .refl _
    · exact (agrees_copyWords below _ _).bind fun elements => .refl _
    · exact (agrees_copyWords below _ _).bind fun elements => .refl _
    · exact (agrees_copyStrings below _ _ _).bind fun elements => .refl _
    · exact .refl _
    · exact .refl _
  · exact .refl _
  · exact .refl _
  · exact .refl _

theorem agrees_demarshal (below : u.Below v) (fds : List Fd) :
    demarshal u fds = some (.error .outOfBounds) ∨ demarshal u fds = demarshal v fds := by
  refine agrees_loop (fun s => ?_) _ _
  rw [demarshalTurn, demarshalTurn, below.size]
  split
  · rcases agrees_demarshalItem below fds s.i s.fdNo with outside | same
    · rw [outside]
      exact .inl rfl
    · rw [same]
      exact .inr rfl
  · exact .inr rfl

end Walks

/-! ## The call -/

section Call

variable {u v : View}

theorem callListener_agrees (below : u.Below v) (method : SMethod) (fn : Callback) (id : UInt32)
    (fds : List Fd) : callListener method fn id u fds = some (.error .outOfBounds) ∨
      callListener method fn id u fds = callListener method fn id v fds := by
  rw [callListener, callListener]
  rcases agrees_typeCheck below id method.wireParams 0 0 with outside | same
  · rw [outside]
    exact .inl rfl
  · rw [same]
    split
    · exact .inr rfl
    · exact .inr rfl
    · split
      · exact .inr rfl
      · exact .inr rfl
      · rcases agrees_demarshal below fds with outside | same
        · rw [outside]
          exact .inl rfl
        · rw [same]
          exact .inr rfl

/-- **A call over a lower view** leaves it, or is the same. -/
theorem called_agrees (below : u.Below v) (object : IWireObject) (methods : List SMethod)
    (id : UInt32) (fds : List Fd) :
    object.called methods id u fds = some (.error .outOfBounds) ∨
      object.called methods id u fds = object.called methods id v fds := by
  rw [IWireObject.called, IWireObject.called]
  split
  · exact .inr rfl
  · split
    · exact .inr rfl
    · split
      · exact .inr rfl
      · exact callListener_agrees below _ _ _ _

/-- **A call that stays inside its data** depends on its bytes only. -/
theorem called_guarded {object : IWireObject} {methods : List SMethod} {id : UInt32} {data : View}
    {fds : List Fd}
    (inside : object.called methods id data.guarded fds ≠ some (.error .outOfBounds)) :
    object.called methods id data fds = object.called methods id data.guarded fds :=
  ((called_agrees data.guarded_below object methods id fds).resolve_left inside).symm

end Call

end Hyprwire.Object
