import Mathlib.Data.List.Count
import VibeOS.Lib.Chain
import VibeOS.Lib.Table

/-!
The list of objects owed a release, and the flag that says a release item is queued for it. Every
atomic access of `push`, `claim`, `unclaim` and `release_all` is one step. A caller that was told to
queue an item has the duty until it queues one or gives the duty back; a queued item is started by
some worker, which runs `release_all`. An object is pushed by whoever holds its last reference, and
its memory may be used again once it is released. Where each object is, and what was pushed and
released, is kept beside; no step but the one that hands an object in reads it. Each object handed
in is in one place: with the caller that pushes it, on the list, or with the worker that took it.
-/
namespace VibeOS.Kalloc
open VibeOS.Lib

/-- The next access of a call, or the duty it returned with. -/
inductive DeferPc (O : Type) where
  | idle
  | store (o : O) (cur : Option O)
  | exchange (o : O) (cur : Option O)
  | pushSwap
  | claimSwap
  | duty

/-- The next access of a run of `release_all`. -/
inductive ReleasePc (O : Type) where
  | idle
  | clear
  | take
  | walk (p : Option O)
  | release (o : O) (p : Option O)

inductive Place (C R : Type) where
  | free
  | caller (c : C)
  | linked
  | worker (r : R)
  deriving DecidableEq

/-- `dropped` says that the duty was given back since the list was last taken. -/
structure DeferSys (C R O : Type) where
  head : Option O
  queued : Bool
  next : O → Option O
  callers : C → DeferPc O
  items : Nat
  workers : R → ReleasePc O
  place : O → Place C R
  pushed : List O
  released : List O
  dropped : Bool

inductive DeferAct (C R O : Type) where
  | push (c : C) (o : O)
  | claim (c : C)
  | caller (c : C)
  | enqueue (c : C)
  | unclaim (c : C)
  | start (r : R)
  | worker (r : R)
  | reuse (o : O) (v : Option O)

namespace DeferSys
variable {C R O : Type} [DecidableEq C] [DecidableEq R] [DecidableEq O]

def init : DeferSys C R O :=
  { head := none, queued := false, next := fun _ => none, callers := fun _ => .idle, items := 0
    workers := fun _ => .idle, place := fun _ => .free, pushed := [], released := []
    dropped := false }

def setCaller (S : DeferSys C R O) (c : C) (pc : DeferPc O) : DeferSys C R O :=
  { S with callers := Function.update S.callers c pc }

def setWorker (S : DeferSys C R O) (r : R) (pc : ReleasePc O) : DeferSys C R O :=
  { S with workers := Function.update S.workers r pc }

def setPlace (S : DeferSys C R O) (o : O) (x : Place C R) : DeferSys C R O :=
  { S with place := Function.update S.place o x }

/-- The start of `push`, which loads the head. -/
def push (S : DeferSys C R O) (c : C) (o : O) : DeferSys C R O :=
  ({ S with pushed := o :: S.pushed }.setPlace o (.caller c)).setCaller c (.store o S.head)

def callerStep (S : DeferSys C R O) (c : C) : DeferSys C R O :=
  match S.callers c with
  | .store o cur => { S with next := Function.update S.next o cur }.setCaller c (.exchange o cur)
  | .exchange o cur =>
    if S.head = cur then ({ S with head := some o }.setPlace o .linked).setCaller c .pushSwap
    else S.setCaller c (.store o S.head)
  | .pushSwap | .claimSwap =>
    { S with queued := true }.setCaller c (if S.queued then .idle else .duty)
  | .idle | .duty => S

def workerStep (S : DeferSys C R O) (r : R) : DeferSys C R O :=
  match S.workers r with
  | .idle => S
  | .clear => { S with queued := false }.setWorker r .take
  | .take =>
    { S with
      head := none
      place := fun o => if S.place o = Place.linked then .worker r else S.place o
      dropped := false }.setWorker r (.walk S.head)
  | .walk none => S.setWorker r .idle
  | .walk (some o) => S.setWorker r (.release o (S.next o))
  | .release o p => ({ S with released := o :: S.released }.setPlace o .free).setWorker r (.walk p)

def step (S : DeferSys C R O) : DeferAct C R O → DeferSys C R O
  | .push c o =>
    match S.callers c, S.place o with
    | .idle, .free => S.push c o
    | _, _ => S
  | .claim c =>
    match S.callers c with
    | .idle => if S.head = none then S else S.setCaller c .claimSwap
    | _ => S
  | .caller c => S.callerStep c
  | .enqueue c =>
    match S.callers c with
    | .duty => { S with items := S.items + 1 }.setCaller c .idle
    | _ => S
  | .unclaim c =>
    match S.callers c with
    | .duty => { S with queued := false, dropped := true }.setCaller c .idle
    | _ => S
  | .start r =>
    match S.workers r, S.items with
    | .idle, n + 1 => { S with items := n }.setWorker r .clear
    | _, _ => S
  | .worker r => S.workerStep r
  | .reuse o v =>
    match S.place o with
    | .free => { S with next := Function.update S.next o v }
    | _ => S

def run (acts : List (DeferAct C R O)) : DeferSys C R O :=
  acts.foldl step init

/-- What the steps do: those of a run of `release_all`, and the others. -/
inductive Moves (S : DeferSys C R O) : Option R → DeferSys C R O → Prop where
  | push {c o} (hc : S.callers c = .idle) (ho : S.place o = .free) : Moves S none (S.push c o)
  | claim {c} (hc : S.callers c = .idle) : Moves S none (S.setCaller c .claimSwap)
  | store {c o cur} (hc : S.callers c = .store o cur) :
      Moves S none ({ S with next := Function.update S.next o cur }.setCaller c (.exchange o cur))
  | link {c o cur} (hc : S.callers c = .exchange o cur) (hhead : S.head = cur) :
      Moves S none (({ S with head := some o }.setPlace o .linked).setCaller c .pushSwap)
  | retry {c o cur} (hc : S.callers c = .exchange o cur) :
      Moves S none (S.setCaller c (.store o S.head))
  | swap {c} (hc : S.callers c = .pushSwap ∨ S.callers c = .claimSwap) :
      Moves S none ({ S with queued := true }.setCaller c (if S.queued then .idle else .duty))
  | enqueue {c} (hc : S.callers c = .duty) :
      Moves S none ({ S with items := S.items + 1 }.setCaller c .idle)
  | unclaim {c} (hc : S.callers c = .duty) :
      Moves S none ({ S with queued := false, dropped := true }.setCaller c .idle)
  | reuse {o v} (ho : S.place o = .free) :
      Moves S none { S with next := Function.update S.next o v }
  | start {r n} (hr : S.workers r = .idle) (hn : S.items = n + 1) :
      Moves S none ({ S with items := n }.setWorker r .clear)
  | clear {r} (hr : S.workers r = .clear) :
      Moves S (some r) ({ S with queued := false }.setWorker r .take)
  | take {r} (hr : S.workers r = .take) : Moves S (some r) ({ S with
      head := none
      place := fun o => if S.place o = Place.linked then .worker r else S.place o
      dropped := false }.setWorker r (.walk S.head))
  | stop {r} (hr : S.workers r = .walk none) : Moves S (some r) (S.setWorker r .idle)
  | walk {r o} (hr : S.workers r = .walk (some o)) :
      Moves S (some r) (S.setWorker r (.release o (S.next o)))
  | release {r o p} (hr : S.workers r = .release o p) : Moves S (some r)
      (({ S with released := o :: S.released }.setPlace o .free).setWorker r (.walk p))

theorem callerStep_moves (S : DeferSys C R O) (c : C) :
    S.callerStep c = S ∨ Moves S none (S.callerStep c) := by
  unfold callerStep
  split
  · exact .inr (.store ‹_›)
  · split
    · exact .inr (.link ‹_› ‹_›)
    · exact .inr (.retry ‹_›)
  · exact .inr (.swap (.inl ‹_›))
  · exact .inr (.swap (.inr ‹_›))
  · exact .inl rfl
  · exact .inl rfl

theorem workerStep_moves (S : DeferSys C R O) (r : R) :
    S.workerStep r = S ∨ Moves S (some r) (S.workerStep r) := by
  unfold workerStep
  split
  · exact .inl rfl
  · exact .inr (.clear ‹_›)
  · exact .inr (.take ‹_›)
  · exact .inr (.stop ‹_›)
  · exact .inr (.walk ‹_›)
  · exact .inr (.release ‹_›)

theorem step_moves (S : DeferSys C R O) (a : DeferAct C R O) :
    S.step a = S ∨ ∃ w, Moves S w (S.step a) ∧ ∀ r, w = some r → a = .worker r := by
  have hother : ∀ {S'}, Moves S none S' →
      S' = S ∨ ∃ w, Moves S w S' ∧ ∀ r, w = some r → a = .worker r :=
    fun hm => .inr ⟨none, hm, nofun⟩
  cases a with
  | push c o =>
    simp only [step]
    split
    · exact hother (.push ‹_› ‹_›)
    · exact .inl rfl
  | claim c =>
    simp only [step]
    split
    · split
      · exact .inl rfl
      · exact hother (.claim ‹_›)
    · exact .inl rfl
  | caller c => exact (S.callerStep_moves c).elim .inl hother
  | enqueue c =>
    simp only [step]
    split
    · exact hother (.enqueue ‹_›)
    · exact .inl rfl
  | unclaim c =>
    simp only [step]
    split
    · exact hother (.unclaim ‹_›)
    · exact .inl rfl
  | start r =>
    simp only [step]
    split
    · exact hother (.start ‹_› ‹_›)
    · exact .inl rfl
  | worker r =>
    refine (S.workerStep_moves r).imp_right fun hm => ⟨some r, hm, fun r' he => ?_⟩
    rw [Option.some.inj he]
  | reuse o v =>
    simp only [step]
    split
    · exact hother (.reuse ‹_›)
    · exact .inl rfl

end DeferSys

variable {C R O : Type}

/-- The object a call has still to link. -/
def DeferPc.object : DeferPc O → Option O
  | .store o _ | .exchange o _ => some o
  | _ => none

/-- The objects a run has still to release. -/
def ReleasePc.Holds (next : O → Option O) : ReleasePc O → List O → Prop
  | .walk p, l => Chained next p l
  | .release o p, l => ∃ l', l = o :: l' ∧ o ∉ l' ∧ Chained next p l'
  | _, l => l = []

theorem ReleasePc.Holds.frame {next next' : O → Option O} {pc : ReleasePc O} {l : List O}
    (h : pc.Holds next l) (hn : ∀ o ∈ l, next' o = next o) : pc.Holds next' l := by
  cases pc with
  | walk p => exact Chained.frame h hn
  | release o p =>
    obtain ⟨l', rfl, ho, hl'⟩ := h
    exact ⟨l', rfl, ho, hl'.frame fun x hx => hn x (List.mem_cons_of_mem _ hx)⟩
  | idle | clear | take => exact h

namespace DeferSys
variable {S : DeferSys C R O}

structure Own [DecidableEq C] [DecidableEq R] [DecidableEq O] (S : DeferSys C R O) : Prop where
  callers : ∀ c o, (S.callers c).object = some o ↔ S.place o = .caller c
  ready : ∀ c o cur, S.callers c = .exchange o cur → S.next o = cur
  linked : ∃ l, Chained S.next S.head l ∧ ∀ o, o ∈ l ↔ S.place o = .linked
  hands : ∀ r, ∃ l, (S.workers r).Holds S.next l ∧ ∀ o, o ∈ l ↔ S.place o = .worker r
  count : ∀ o, S.pushed.count o = S.released.count o + if S.place o = .free then 0 else 1

variable [DecidableEq C] [DecidableEq R] [DecidableEq O] {c : C} {r : R} {o : O}

theorem Own.init : Own (DeferSys.init : DeferSys C R O) := by
  refine ⟨fun c o => ⟨nofun, nofun⟩, nofun, ⟨[], rfl, fun o => ⟨nofun, nofun⟩⟩,
    fun r => ⟨[], rfl, fun o => ⟨nofun, nofun⟩⟩, fun o => rfl⟩

variable (h : Own S)
include h

theorem Own.setNext {v : Option O} (hlinked : S.place o ≠ .linked)
    (hworker : ∀ r, S.place o ≠ .worker r) (hready : ∀ c cur, S.callers c ≠ .exchange o cur) :
    Own { S with next := Function.update S.next o v } := by
  have hother : ∀ {l : List O} {x : Place C R}, (∀ o, o ∈ l ↔ S.place o = x) → S.place o ≠ x →
      ∀ y ∈ l, Function.update S.next o v y = S.next y := by
    intro l x hl hx y hy
    refine Function.update_of_ne ?_ ..
    rintro rfl
    exact hx ((hl y).mp hy)
  refine ⟨h.callers, fun c x cur hc => ?_, ?_, fun r => ?_, h.count⟩
  · rw [← h.ready c x cur hc]
    refine Function.update_of_ne ?_ ..
    rintro rfl
    exact hready c cur hc
  · obtain ⟨l, hchain, hl⟩ := h.linked
    exact ⟨l, hchain.frame (hother hl hlinked), hl⟩
  · obtain ⟨l, hholds, hl⟩ := h.hands r
    exact ⟨l, hholds.frame (hother hl (hworker r)), hl⟩

theorem Own.setCaller {pc : DeferPc O} (hobject : pc.object = (S.callers c).object)
    (hready : ∀ o cur, pc = .exchange o cur → S.next o = cur) : Own (S.setCaller c pc) := by
  refine ⟨fun c' x => ?_, fun c' x cur hc => ?_, h.linked, h.hands, h.count⟩
  · refine Iff.trans ?_ (h.callers c' x)
    change (Function.update S.callers c pc c').object = some x ↔ _
    by_cases hcc : c' = c
    · subst hcc
      rw [Function.update_self, hobject]
    · rw [Function.update_of_ne hcc]
  · rcases update_eq_iff.mp hc with ⟨-, hpc⟩ | ⟨-, hc⟩
    · exact hready x cur hpc
    · exact h.ready c' x cur hc

theorem Own.push (hc : S.callers c = .idle) (ho : S.place o = .free) : Own (S.push c o) := by
  have hplace : ∀ {y x}, x ≠ .free → x ≠ .caller c →
      (S.place y = x ↔ Function.update S.place o (.caller c) y = x) :=
    fun hfree hcaller => (update_eq_other (ho ▸ hfree.symm) hcaller.symm).symm
  refine ⟨fun c' x => ?_, fun c' x cur hc' => ?_, ?_, fun r => ?_, fun x => ?_⟩
  · change (Function.update S.callers c (.store o S.head) c').object = some x ↔
      Function.update S.place o (.caller c) x = .caller c'
    by_cases hcc : c' = c
    · subst hcc
      rw [Function.update_self, update_eq_iff]
      have hnone : S.place x ≠ .caller c' := by
        rw [Ne, ← h.callers, hc]
        nofun
      simp [DeferPc.object, hnone, eq_comm]
    · rw [Function.update_of_ne hcc, h.callers]
      refine hplace nofun fun he => ?_
      cases he
      exact hcc rfl
  · rcases update_eq_iff.mp hc' with ⟨-, hpc⟩ | ⟨-, hc'⟩
    · cases hpc
    · exact h.ready c' x cur hc'
  · obtain ⟨l, hchain, hl⟩ := h.linked
    exact ⟨l, hchain, fun x => (hl x).trans (hplace nofun nofun)⟩
  · obtain ⟨l, hholds, hl⟩ := h.hands r
    exact ⟨l, hholds, fun x => (hl x).trans (hplace nofun nofun)⟩
  · change (o :: S.pushed).count x = S.released.count x +
      if Function.update S.place o (.caller c) x = .free then 0 else 1
    rw [List.count_cons, h.count]
    by_cases hx : x = o
    · subst hx
      simp [ho]
    · simp [Function.update_of_ne hx, Ne.symm hx]

theorem Own.link {cur : Option O} (hc : S.callers c = .exchange o cur) (hhead : S.head = cur) :
    Own (({ S with head := some o }.setPlace o .linked).setCaller c .pushSwap) := by
  have ho : S.place o = .caller c := (h.callers c o).mp (by rw [hc]; rfl)
  have hplace : ∀ {y x}, x ≠ .linked → x ≠ .caller c →
      (S.place y = x ↔ Function.update S.place o .linked y = x) :=
    fun hlinked hcaller => (update_eq_other (ho ▸ hcaller.symm) hlinked.symm).symm
  refine ⟨fun c' x => ?_, fun c' x cur hc' => ?_, ?_, fun r => ?_, fun x => ?_⟩
  · change (Function.update S.callers c .pushSwap c').object = some x ↔
      Function.update S.place o .linked x = .caller c'
    by_cases hcc : c' = c
    · subst hcc
      rw [Function.update_self, update_eq_iff, ← h.callers, hc]
      simp [DeferPc.object, eq_comm]
    · rw [Function.update_of_ne hcc, h.callers]
      refine hplace nofun fun he => ?_
      cases he
      exact hcc rfl
  · rcases update_eq_iff.mp hc' with ⟨-, hpc⟩ | ⟨-, hc'⟩
    · cases hpc
    · exact h.ready c' x cur hc'
  · obtain ⟨l, hchain, hl⟩ := h.linked
    refine ⟨o :: l, ⟨rfl, ?_⟩, fun x => ?_⟩
    · change Chained S.next (S.next o) l
      rw [h.ready c o cur hc, ← hhead]
      exact hchain
    · change x ∈ o :: l ↔ Function.update S.place o .linked x = .linked
      rw [List.mem_cons, hl, update_eq_iff]
      by_cases hx : x = o
      · simp [hx]
      · simp [hx]
  · obtain ⟨l, hholds, hl⟩ := h.hands r
    exact ⟨l, hholds, fun x => (hl x).trans (hplace nofun nofun)⟩
  · refine (h.count x).trans ?_
    have hfree : S.place x = .free ↔ Function.update S.place o .linked x = .free :=
      hplace nofun nofun
    change _ = S.released.count x + if Function.update S.place o .linked x = .free then 0 else 1
    simp only [hfree]

theorem Own.store {cur : Option O} (hc : S.callers c = .store o cur) :
    Own ({ S with next := Function.update S.next o cur }.setCaller c (.exchange o cur)) := by
  have ho : S.place o = .caller c := (h.callers c o).mp (by rw [hc]; rfl)
  have hnext :=
    h.setNext (o := o) (v := cur) (ho ▸ nofun) (fun r => ho ▸ nofun) fun c' cur' hc' => ?_
  · refine hnext.setCaller ?_ fun x cur' he => ?_
    · exact (congrArg DeferPc.object hc).symm
    · cases he
      exact Function.update_self ..
  · -- another caller would have the same object
    have ho' : S.place o = .caller c' := (h.callers c' o).mp (by rw [hc']; rfl)
    cases ho.symm.trans ho'
    cases hc.symm.trans hc'

theorem Own.flags (queued dropped : Bool) (items : Nat) : Own { S with queued, dropped, items } :=
  ⟨h.callers, h.ready, h.linked, h.hands, h.count⟩

theorem Own.setWorker {pc : ReleasePc O}
    (hholds : ∀ l, (S.workers r).Holds S.next l → pc.Holds S.next l) : Own (S.setWorker r pc) := by
  refine ⟨h.callers, h.ready, h.linked, fun r' => ?_, h.count⟩
  obtain ⟨l, hl, hmem⟩ := h.hands r'
  refine ⟨l, ?_, hmem⟩
  change (Function.update S.workers r pc r').Holds S.next l
  by_cases hr : r' = r
  · subst hr
    rw [Function.update_self]
    exact hholds l hl
  · rw [Function.update_of_ne hr]
    exact hl

theorem Own.take (hr : S.workers r = .take) : Own ({ S with
    head := none
    place := fun o => if S.place o = Place.linked then .worker r else S.place o
    dropped := false }.setWorker r (.walk S.head)) := by
  have hplace : ∀ {x y}, y ≠ .linked → y ≠ .worker r →
      (S.place x = y ↔ (if S.place x = Place.linked then .worker r else S.place x) = y) := by
    intro x y hlinked hworker
    split
    · rename_i hx
      rw [hx]
      exact iff_of_false hlinked.symm hworker.symm
    · exact Iff.rfl
  have hempty : ∀ o, S.place o ≠ .worker r := by
    intro o ho
    obtain ⟨l, hl, hmem⟩ := h.hands r
    rw [hr] at hl
    obtain rfl : l = [] := hl
    cases (hmem o).mpr ho
  refine ⟨fun c x => (h.callers c x).trans (hplace nofun nofun), h.ready, ⟨[], rfl, fun x => ?_⟩,
    fun r' => ?_, fun x => ?_⟩
  · refine iff_of_false List.not_mem_nil ?_
    change (if S.place x = Place.linked then Place.worker r else S.place x) ≠ .linked
    split
    · nofun
    · assumption
  · change ∃ l, (Function.update S.workers r (.walk S.head) r').Holds S.next l ∧ ∀ x, x ∈ l ↔
      (if S.place x = Place.linked then Place.worker r else S.place x) = .worker r'
    by_cases hrr : r' = r
    · subst hrr
      rw [Function.update_self]
      obtain ⟨l, hchain, hl⟩ := h.linked
      refine ⟨l, hchain, fun x => (hl x).trans ?_⟩
      split
      · rename_i hx
        exact iff_of_true hx rfl
      · rename_i hx
        exact iff_of_false hx (hempty x)
    · rw [Function.update_of_ne hrr]
      obtain ⟨l, hl, hmem⟩ := h.hands r'
      refine ⟨l, hl, fun x => (hmem x).trans (hplace nofun fun he => ?_)⟩
      cases he
      exact hrr rfl
  · refine (h.count x).trans ?_
    have hfree : S.place x = .free ↔
        (if S.place x = Place.linked then Place.worker r else S.place x) = .free :=
        hplace nofun nofun
    change _ = S.released.count x +
      if (if S.place x = Place.linked then Place.worker r else S.place x) = .free then 0 else 1
    simp only [← hfree]

theorem Own.release {p : Option O} (hr : S.workers r = .release o p) :
    Own (({ S with released := o :: S.released }.setPlace o .free).setWorker r (.walk p)) := by
  obtain ⟨l, hl, hmem⟩ := h.hands r
  rw [hr] at hl
  obtain ⟨l', rfl, hol', hchain⟩ := hl
  have ho : S.place o = .worker r := (hmem o).mp List.mem_cons_self
  have hplace : ∀ {y x}, x ≠ .free → x ≠ .worker r →
      (S.place y = x ↔ Function.update S.place o .free y = x) :=
    fun hfree hworker => (update_eq_other (ho ▸ hworker.symm) hfree.symm).symm
  refine ⟨fun c x => (h.callers c x).trans (hplace nofun nofun), h.ready, ?_, fun r' => ?_,
    fun x => ?_⟩
  · obtain ⟨l, hchain, hl⟩ := h.linked
    exact ⟨l, hchain, fun x => (hl x).trans (hplace nofun nofun)⟩
  · change ∃ l, (Function.update S.workers r (.walk p) r').Holds S.next l ∧ ∀ x, x ∈ l ↔
      Function.update S.place o .free x = .worker r'
    by_cases hrr : r' = r
    · subst hrr
      rw [Function.update_self]
      refine ⟨l', hchain, fun x => ?_⟩
      rw [update_eq_iff, ← hmem, List.mem_cons]
      by_cases hx : x = o
      · subst hx
        simp [hol']
      · simp [hx]
    · rw [Function.update_of_ne hrr]
      obtain ⟨l, hl, hmem'⟩ := h.hands r'
      refine ⟨l, hl, fun x => (hmem' x).trans (hplace nofun fun he => ?_)⟩
      cases he
      exact hrr rfl
  · change S.pushed.count x = (o :: S.released).count x +
      if Function.update S.place o .free x = .free then 0 else 1
    rw [List.count_cons, h.count]
    by_cases hx : x = o
    · subst hx
      simp [ho]
    · simp [Function.update_of_ne hx, Ne.symm hx]

theorem Own.walk (hr : S.workers r = .walk (some o)) :
    Own (S.setWorker r (.release o (S.next o))) := by
  refine h.setWorker fun l hl => ?_
  rw [hr] at hl
  have hnd := Chained.nodup hl
  cases l with
  | nil => cases hl
  | cons x l =>
    obtain ⟨hx, hrest⟩ := hl
    cases hx
    exact ⟨l, rfl, (List.nodup_cons.mp hnd).1, hrest⟩

theorem Own.moves {S' : DeferSys C R O} {w : Option R} (hm : Moves S w S') : Own S' := by
  cases hm with
  | push hc ho => exact h.push hc ho
  | claim hc | retry hc => exact h.setCaller (congrArg DeferPc.object hc).symm nofun
  | store hc => exact h.store hc
  | link hc hhead => exact h.link hc hhead
  | @swap c hc =>
    refine (h.flags true _ _).setCaller ?_ (by split <;> exact nofun)
    change _ = (S.callers c).object
    rcases hc with hc | hc
    · rw [hc]
      split <;> rfl
    · rw [hc]
      split <;> rfl
  | enqueue hc | unclaim hc =>
    exact (h.flags _ _ _).setCaller (congrArg DeferPc.object hc).symm nofun
  | @reuse o v ho =>
    refine h.setNext (ho ▸ nofun) (fun r => ho ▸ nofun) fun c cur hc => ?_
    have hplace := (h.callers c o).mp (by rw [hc]; rfl)
    cases ho.symm.trans hplace
  | start hr _ | clear hr => exact (h.flags _ _ _).setWorker fun l hl => (hr ▸ hl :)
  | take hr => exact h.take hr
  | stop hr =>
    refine h.setWorker fun l hl => ?_
    rw [hr] at hl
    cases l with
    | nil => rfl
    | cons x l => cases hl.1
  | walk hr => exact h.walk hr
  | release hr => exact h.release hr

theorem Own.step (a : DeferAct C R O) : Own (S.step a) := by
  rcases S.step_moves a with he | ⟨w, hm, -⟩
  · exact he.symm ▸ h
  · exact h.moves hm

end DeferSys
end VibeOS.Kalloc
