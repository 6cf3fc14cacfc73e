import Mathlib.Data.List.Basic
import VibeOS.Lib.Coalesce

/-!
Counted objects: one cell with the count of its references and, beside the value, the count of
its users. A reference is held, with the calls in flight that borrow it, or is being dropped; a
drop takes the reference and needs that no call borrows it. Every atomic access is one step. The
log of what happened to the cell is kept beside it, and no access reads it. With the counts below
saturation the count is the number of references that are not gone, the users count the number of
users' shares, and the log says in which order the last pin, the teardown, the last put and the
release came; the accesses of clones and pins keep that.
-/
namespace VibeOS.Kalloc
open Lib

def arcSaturated : Nat := 2 ^ 63 - 1

def usizeMax : Nat := 2 ^ 64 - 1

/-- A `TryArc` or `CoreArc`, and a `UsersArc`. -/
inductive RefKind where
  | core | users
  deriving DecidableEq, Repr

/-- A call that borrows a reference, at its next access. -/
inductive Borrow where
  /-- `clone` before its load and before its exchange; `kind` is what the new count is for. -/
  | cloneLoad (kind : RefKind)
  | cloneCas (kind : RefKind) (c : Nat)
  | pinLoad
  | pinCas (c : Nat)
  deriving DecidableEq, Repr

inductive RefState where
  | held (calls : List Borrow)
  /-- In the body of a `UsersArc`'s drop, before its decrement. -/
  | body
  /-- In the teardown. -/
  | tearing
  | putLoad (defer : Bool)
  | putCas (defer : Bool) (c : Nat)
  | gone
  deriving DecidableEq, Repr

structure Ref where
  kind : RefKind
  state : RefState
  deriving DecidableEq, Repr

inductive Event where
  | pinned
  /-- The users count reached zero, and the teardown began. -/
  | zero
  | tornDown
  /-- The count reached zero. -/
  | lastPut
  | released
  deriving DecidableEq, Repr

structure ArcSys where
  count : Nat
  users : Nat
  refs : List Ref
  /-- The puts that took the last count and have not released the cell, with whether each must
  defer. -/
  lasts : List Bool
  /-- The releases handed to the deferral sink. -/
  deferred : Nat
  /-- The latest event first. -/
  log : List Event
  /-- The cell was touched after its release. -/
  fault : Bool
  deriving DecidableEq, Repr

inductive Label where
  | clone (r : Nat)
  | pin (r : Nat)
  | drop (r : Nat)
  | putDeferred (r : Nat)
  /-- The next access of the `j`th call that borrows `r`; a weak exchange may fail for no
  reason. -/
  | call (r j : Nat) (spurious : Bool)
  | put (r : Nat) (spurious : Bool)
  /-- A put that took the last count goes on: whether its context may release, and whether a
  deferral sink is there. -/
  | last (context sink : Bool)
  | runDeferred
  deriving DecidableEq, Repr

namespace ArcSys

/-- A cell made by `UsersArc::try_new`, or by `TryArc::try_new`. -/
def init (users : Bool) : ArcSys :=
  { count := 1, users := if users then 1 else 0,
    refs := [{ kind := if users then .users else .core, state := .held [] }],
    lasts := [], deferred := 0, log := [], fault := false }

def setRef (S : ArcSys) (r : Nat) (x : Ref) : ArcSys :=
  { S with refs := S.refs.set r x }

def touch (S : ArcSys) : ArcSys :=
  { S with fault := S.fault || S.log.contains .released }

def record (S : ArcSys) (e : Event) : ArcSys :=
  { S with log := e :: S.log }

/-- The result of one access of a borrowing call: the state, and the call's next access, none
when it returned. -/
def callStep (S : ArcSys) (spurious : Bool) : Borrow → ArcSys × Option Borrow
  | .cloneLoad kind => (S, some (.cloneCas kind S.count))
  | .cloneCas kind c =>
    let made : Ref := { kind, state := .held [] }
    if c ≥ arcSaturated then ({ S with refs := S.refs ++ [made] }, none)
    else if S.count = c ∧ ¬ spurious then
      ({ S with count := c + 1, refs := S.refs ++ [made] }, none)
    else (S, some (.cloneCas kind S.count))
  | .pinLoad => (S, some (.pinCas S.users))
  | .pinCas c =>
    if c = 0 ∨ c = usizeMax then (S, none)
    else if S.users = c ∧ ¬ spurious then
      ({ S with users := c + 1, log := .pinned :: S.log }, some (.cloneLoad .users))
    else (S, some (.pinCas S.users))

def putStep (S : ArcSys) (spurious : Bool) : RefState → ArcSys × RefState
  | .body =>
    let S' := { S with users := (S.users + usizeMax) % 2 ^ 64 }
    if S.users ≠ 1 then (S', .putLoad false)
    else (S'.record .zero, .tearing)
  | .tearing => (S.record .tornDown, .putLoad false)
  | .putLoad defer => (S, .putCas defer S.count)
  | .putCas defer c =>
    if c ≥ arcSaturated then (S, .gone)
    else if S.count = c ∧ ¬ spurious then
      if c ≠ 1 then ({ S with count := c - 1 }, .gone)
      else ({ S with count := c - 1, lasts := defer :: S.lasts, log := .lastPut :: S.log }, .gone)
    else (S, .putCas defer S.count)
  | s => (S, s)

/-- The calls of a reference with the `j`th one gone on or returned. -/
def nextCalls (calls : List Borrow) (j : Nat) : Option Borrow → List Borrow
  | some b => calls.set j b
  | none => calls.eraseIdx j

def step (S : ArcSys) : Label → Option ArcSys
  | .clone r =>
    match S.refs[r]? with
    | some { kind, state := .held calls } =>
      some (S.setRef r { kind, state := .held (.cloneLoad .core :: calls) })
    | _ => none
  | .pin r =>
    match S.refs[r]? with
    | some { kind := .core, state := .held calls } =>
      some (S.setRef r { kind := .core, state := .held (.pinLoad :: calls) })
    | _ => none
  | .drop r =>
    match S.refs[r]? with
    | some { kind := .core, state := .held [] } =>
      some (S.setRef r { kind := .core, state := .putLoad false })
    | some { kind := .users, state := .held [] } =>
      some (S.setRef r { kind := .users, state := .body })
    | _ => none
  | .putDeferred r =>
    match S.refs[r]? with
    | some { kind := .core, state := .held [] } =>
      some (S.setRef r { kind := .core, state := .putLoad true })
    | _ => none
  | .call r j spurious =>
    match S.refs[r]? with
    | some { kind, state := .held calls } =>
      match calls[j]? with
      | some b =>
        let out := S.touch.callStep spurious b
        some (out.1.setRef r { kind, state := .held (nextCalls calls j out.2) })
      | none => none
    | _ => none
  | .put r spurious =>
    match S.refs[r]? with
    | some { kind, state } =>
      match state with
      | .held _ | .gone => none
      | state =>
        let out := S.touch.putStep spurious state
        some (out.1.setRef r { kind, state := out.2 })
    | none => none
  | .last context sink =>
    match S.lasts with
    | [] => none
    | defer :: lasts =>
      let S := { S with lasts }
      if ¬ defer ∧ context then some (S.record .released)
      else if sink then some { S with deferred := S.deferred + 1 }
      else some (S.record .released)
  | .runDeferred =>
    if S.deferred = 0 then none
    else some ({ S with deferred := S.deferred - 1 }.record .released)

end ArcSys

/-- What an event may be after the events of `log`; `users` says that the cell was made with a
users count. -/
def Fair (users : Bool) (log : List Event) : Event → Prop
  | .pinned => .zero ∉ log ∧ .lastPut ∉ log
  | .zero => .zero ∉ log ∧ .lastPut ∉ log
  | .tornDown => .zero ∈ log ∧ .tornDown ∉ log ∧ .lastPut ∉ log
  | .lastPut => .lastPut ∉ log ∧ (users = true → .tornDown ∈ log)
  | .released => .lastPut ∈ log ∧ .released ∉ log

def Ledger (users : Bool) : List Event → Prop
  | [] => True
  | e :: log => Fair users log e ∧ Ledger users log

def Ref.live (x : Ref) : Nat := if x.state = .gone then 0 else 1

/-- A call that has a users' share and no reference for it yet. -/
def Borrow.share : Borrow → Nat
  | .cloneLoad .users | .cloneCas .users _ => 1
  | _ => 0

/-- The users' shares a reference has, with those of the calls that borrow it. -/
def Ref.share (x : Ref) : Nat :=
  match x.state with
  | .held calls => (if x.kind = .users then 1 else 0) + total Borrow.share calls
  | .body => 1
  | _ => 0

def Ref.tearing (x : Ref) : Nat := if x.state = .tearing then 1 else 0

/-- A loaded count was below saturation. -/
def Borrow.Below : Borrow → Prop
  | .cloneCas _ c => c < arcSaturated
  | .pinCas c => c < arcSaturated
  | _ => True

def RefState.Below : RefState → Prop
  | .held calls => ∀ b ∈ calls, b.Below
  | .putCas _ c => c < arcSaturated
  | _ => True

structure Inv (users : Bool) (S : ArcSys) : Prop where
  count : S.count = total Ref.live S.refs
  shares : S.users = total Ref.share S.refs
  below : ∀ x ∈ S.refs, x.state.Below
  faultless : S.fault = false
  ledger : Ledger users S.log
  last : total Ref.live S.refs = 0 ↔ .lastPut ∈ S.log
  owed : .lastPut ∈ S.log → S.log.count .released + S.lasts.length + S.deferred = 1
  unowed : .lastPut ∉ S.log → S.log.count .released + S.lasts.length + S.deferred = 0
  zero : users = true → (.zero ∈ S.log ↔ S.users = 0)
  plain : users = false → S.users = 0 ∧ .zero ∉ S.log
  torn : S.log.count .tornDown + total Ref.tearing S.refs = if .zero ∈ S.log then 1 else 0

theorem Ref.share_of_not_live {x : Ref} (h : x.live = 0) : x.share = 0 := by
  unfold Ref.live at h
  unfold Ref.share
  split at h
  · rename_i hg
    rw [hg]
  · cases h

theorem Ref.tearing_of_not_live {x : Ref} (h : x.live = 0) : x.tearing = 0 := by
  unfold Ref.live at h
  unfold Ref.tearing
  split at h
  · rename_i hg
    rw [hg]
    rfl
  · cases h

variable {users : Bool} {S S' : ArcSys} {r : Nat} {x y : Ref}

variable (h : Inv users S)
include h

theorem Inv.unreleased (hr : S.refs[r]? = some x) (hx : x.state ≠ .gone) :
    .lastPut ∉ S.log ∧ .released ∉ S.log := by
  have hlive : x.live = 1 := if_neg hx
  have hle := le_total Ref.live (List.mem_of_getElem? hr)
  have hlast : .lastPut ∉ S.log := by
    intro hl
    rw [← h.last] at hl
    omega
  have hun := h.unowed hlast
  exact ⟨hlast, List.count_eq_zero.mp (by omega)⟩

theorem Inv.touch_eq (hr : S.refs[r]? = some x) (hx : x.state ≠ .gone) : S.touch = S := by
  have := (h.unreleased hr hx).2
  simp [ArcSys.touch, this]

theorem Inv.counts (hr : S.refs[r]? = some y) (hb : x.state.Below) {C U : Nat}
    (hc : C + y.live = S.count + x.live) (hs : U + y.share = S.users + x.share) :
    C = total Ref.live (S.refs.set r x) ∧ U = total Ref.share (S.refs.set r x) ∧
      ∀ z ∈ S.refs.set r x, z.state.Below := by
  have h1 := total_set Ref.live hr x
  have h2 := total_set Ref.share hr x
  have hcount := h.count
  have hshares := h.shares
  refine ⟨by omega, by omega, fun z hz => ?_⟩
  rcases List.mem_or_eq_of_mem_set hz with hz | rfl
  · exact h.below z hz
  · exact hb

theorem Inv.last_set (hr : S.refs[r]? = some y) (hy : y.state ≠ .gone) (hx : x.state ≠ .gone) :
    total Ref.live (S.refs.set r x) = 0 ↔ .lastPut ∈ S.log := by
  have hset := total_set Ref.live hr x
  have hly : y.live = 1 := if_neg hy
  have hlx : x.live = 1 := if_neg hx
  rw [← h.last]
  omega

theorem Inv.setRef (hr : S.refs[r]? = some y) (hb : x.state.Below) (hl : x.live = y.live)
    (hs : x.share = y.share) (ht : x.tearing = y.tearing) :
    Inv users (S.setRef r x) := by
  have h1 := total_set Ref.live hr x
  have h2 := total_set Ref.share hr x
  have h3 := total_set Ref.tearing hr x
  have hl' : total Ref.live (S.refs.set r x) = total Ref.live S.refs := by omega
  have hs' : total Ref.share (S.refs.set r x) = total Ref.share S.refs := by omega
  have ht' : total Ref.tearing (S.refs.set r x) = total Ref.tearing S.refs := by omega
  exact { h with
    count := h.count.trans hl'.symm
    shares := h.shares.trans hs'.symm
    below := fun z hz => by
      rcases List.mem_or_eq_of_mem_set hz with hz | rfl
      · exact h.below z hz
      · exact hb
    last := by
      change total Ref.live (S.refs.set r x) = 0 ↔ _
      rw [hl']
      exact h.last
    torn := by
      change _ + total Ref.tearing (S.refs.set r x) = _
      rw [ht']
      exact h.torn }

variable {j : Nat} {kind : RefKind} {calls : List Borrow} {b : Borrow}

section
variable (hr : S.refs[r]? = some ⟨kind, .held calls⟩)
include hr

theorem Inv.nextCall (hj : calls[j]? = some b) {b' : Borrow} (hb : b'.Below)
    (hs : b'.share = b.share) :
    Inv users (S.setRef r ⟨kind, .held (calls.set j b')⟩) := by
  have hset := total_set Borrow.share hj b'
  refine h.setRef hr ?_ rfl ?_ rfl
  · intro c hc
    rcases List.mem_or_eq_of_mem_set hc with hc | rfl
    · exact h.below _ (List.mem_of_getElem? hr) c hc
    · exact hb
  · simp only [Ref.share]
    omega

theorem Inv.endCall (hj : calls[j]? = some b) (hs : b.share = 0) :
    Inv users (S.setRef r ⟨kind, .held (calls.eraseIdx j)⟩) := by
  have herase := total_eraseIdx Borrow.share hj
  refine h.setRef hr ?_ rfl ?_ rfl
  · intro c hc
    exact h.below _ (List.mem_of_getElem? hr) c (List.mem_of_mem_eraseIdx hc)
  · simp only [Ref.share]
    omega

theorem Inv.cloned {k : RefKind} {c : Nat} (hj : calls[j]? = some (.cloneCas k c)) :
    Inv users ({ S with count := S.count + 1, refs := S.refs ++ [Ref.mk k (.held [])] }.setRef r
      ⟨kind, .held (calls.eraseIdx j)⟩) := by
  obtain ⟨hlast, -⟩ := h.unreleased hr (by nofun)
  have hlt : r < S.refs.length := (List.getElem?_eq_some_iff.mp hr).1
  have hr' : (S.refs ++ [Ref.mk k (.held [])])[r]? = some ⟨kind, .held calls⟩ := by
    rw [List.getElem?_append_left hlt, hr]
  have herase := total_eraseIdx Borrow.share hj
  have hl := total_set Ref.live hr' ⟨kind, .held (calls.eraseIdx j)⟩
  have hs := total_set Ref.share hr' ⟨kind, .held (calls.eraseIdx j)⟩
  have ht := total_set Ref.tearing hr' ⟨kind, .held (calls.eraseIdx j)⟩
  have hshare : (Borrow.cloneCas k c).share = if k = .users then 1 else 0 := by cases k <;> rfl
  simp only [total_append, total_cons, total_nil, Ref.live, Ref.share, Ref.tearing, if_false,
    reduceCtorEq] at hl hs ht
  have hcount := h.count
  have hshares := h.shares
  exact { h with
    count := by
      change S.count + 1 = total Ref.live ((S.refs ++ [Ref.mk k (.held [])]).set r _)
      omega
    shares := by
      change S.users = total Ref.share ((S.refs ++ [Ref.mk k (.held [])]).set r _)
      omega
    below := fun z hz => by
      rcases List.mem_or_eq_of_mem_set hz with hz | rfl
      · rcases List.mem_append.mp hz with hz | hz
        · exact h.below z hz
        · rw [List.mem_singleton.mp hz]
          nofun
      · exact fun d hd => h.below _ (List.mem_of_getElem? hr) d (List.mem_of_mem_eraseIdx hd)
    last := by
      change total Ref.live ((S.refs ++ [Ref.mk k (.held [])]).set r _) = 0 ↔ _
      refine ⟨fun h0 => ?_, fun hin => absurd hin hlast⟩
      omega
    torn := by
      change S.log.count .tornDown + total Ref.tearing ((S.refs ++ [Ref.mk k (.held [])]).set r _) =
        if .zero ∈ S.log then 1 else 0
      have := h.torn
      omega }

theorem Inv.pinned {c : Nat} (hj : calls[j]? = some (.pinCas c)) (hne : S.users ≠ 0) :
    Inv users ({ S with users := S.users + 1, log := .pinned :: S.log }.setRef r
      ⟨kind, .held (calls.set j (.cloneLoad .users))⟩) := by
  obtain ⟨hlast, -⟩ := h.unreleased hr (by nofun)
  have hzero : .zero ∉ S.log := by
    cases users with
    | false => exact (h.plain rfl).2
    | true => exact fun hz => hne ((h.zero rfl).mp hz)
  have hset := total_set Borrow.share hj (.cloneLoad .users)
  simp only [Borrow.share] at hset
  have ht := total_set Ref.tearing hr ⟨kind, .held (calls.set j (.cloneLoad .users))⟩
  have hbelow : (RefState.held (calls.set j (.cloneLoad .users))).Below := by
    intro d hd
    rcases List.mem_or_eq_of_mem_set hd with hd | rfl
    · exact h.below _ (List.mem_of_getElem? hr) d hd
    · trivial
  obtain ⟨h1, h2, h3⟩ := h.counts (x := ⟨kind, .held (calls.set j (.cloneLoad .users))⟩) hr hbelow
    (C := S.count) (U := S.users + 1) rfl (by simp only [Ref.share]; omega)
  refine ⟨h1, h2, h3, h.faultless, ⟨⟨hzero, hlast⟩, h.ledger⟩, ?_, ?_, ?_, ?_, ?_, ?_⟩
  · simpa [ArcSys.setRef] using h.last_set hr (by nofun) (by nofun)
  · simpa [ArcSys.setRef] using h.owed
  · simpa [ArcSys.setRef] using h.unowed
  · intro hu
    change .zero ∈ Event.pinned :: S.log ↔ S.users + 1 = 0
    simp [hzero]
  · intro hu
    exact absurd (h.plain hu).1 hne
  · change (Event.pinned :: S.log).count .tornDown + total Ref.tearing (S.refs.set r _) =
      if .zero ∈ Event.pinned :: S.log then 1 else 0
    have := h.torn
    simp only [List.mem_cons, reduceCtorEq, false_or]
    rw [List.count_cons_of_ne (by decide)]
    simp only [Ref.tearing, if_false, reduceCtorEq] at ht
    omega

end

theorem Inv.call (hb : S.count < arcSaturated ∧ S.users < arcSaturated) {spurious : Bool}
    (hr : S.refs[r]? = some ⟨kind, .held calls⟩) (hj : calls[j]? = some b) :
    Inv users ((S.callStep spurious b).1.setRef r
      ⟨kind, .held (ArcSys.nextCalls calls j (S.callStep spurious b).2)⟩) := by
  have hbelow := h.below _ (List.mem_of_getElem? hr) b (List.mem_of_getElem? hj)
  cases b with
  | cloneLoad k => exact h.nextCall hr hj hb.1 (by cases k <;> rfl)
  | cloneCas k c =>
    have hnot : ¬ c ≥ arcSaturated := Nat.not_le.mpr hbelow
    unfold ArcSys.callStep
    dsimp only
    rw [if_neg hnot]
    split
    · rename_i hc
      obtain ⟨rfl, -⟩ := hc
      exact h.cloned hr hj
    · exact h.nextCall hr hj hb.1 (by cases k <;> rfl)
  | pinLoad => exact h.nextCall hr hj hb.2 rfl
  | pinCas c =>
    unfold ArcSys.callStep
    dsimp only
    split
    · exact h.endCall hr hj rfl
    · rename_i hc
      split
      · rename_i hu
        obtain ⟨rfl, -⟩ := hu
        exact h.pinned hr hj fun h0 => hc (.inl h0)
      · exact h.nextCall hr hj hb.2 rfl

end VibeOS.Kalloc
