import Mathlib.Algebra.Order.Ring.Nat
import Mathlib.Tactic.Common

/-!
The work queues that interrupt handlers put items on: two rings whose ends are 32-bit counters that
wrap. An item is anything; its function and argument are not looked at here. `WorkLists` says what
the queues are for: two bounded lists.
-/
namespace VibeOS.Sched

section Window
variable {α : Type} {f : Nat → α} {n start len : Nat}

/-- The `len` cells of a ring of `n` from `start` on. -/
def window (f : Nat → α) (n start len : Nat) : List α :=
  (List.range len).map fun i => f ((start + i) % n)

theorem window_push (v : α) (h : len < n) :
    window (Function.update f ((start + len) % n) v) n start (len + 1) =
      window f n start len ++ [v] := by
  unfold window
  rw [List.range_succ, List.map_append, List.map_singleton, Function.update_self]
  congr 1
  refine List.map_congr_left fun i hi => Function.update_of_ne (fun he => ?_) v f
  have hi := List.mem_range.mp hi
  have hzero := Nat.sub_mod_eq_zero_of_mod_eq he.symm
  rw [Nat.add_sub_add_left, Nat.mod_eq_of_lt (by omega)] at hzero
  omega

theorem window_pop : window f n start (len + 1) = f (start % n) :: window f n (start + 1) len := by
  unfold window
  rw [List.range_succ_eq_map, List.map_cons, List.map_map]
  refine congrArg _ (List.map_congr_left fun i _ => ?_)
  change f ((start + (i + 1)) % n) = _
  rw [Nat.add_right_comm, Nat.add_assoc]

theorem window_congr {start' : Nat} (h : start % n = start' % n) :
    window f n start len = window f n start' len := by
  refine List.map_congr_left fun i _ => ?_
  rw [Nat.add_mod, h, ← Nat.add_mod]

end Window

abbrev ringCap : Nat := 32

structure WorkRing (α : Type) where
  slots : Nat → α
  head : UInt32
  tail : UInt32

namespace WorkRing
variable {α : Type}

def len (r : WorkRing α) : Nat := (r.tail - r.head).toNat

def push (r : WorkRing α) (item : α) : Bool × WorkRing α :=
  if ringCap ≤ r.len then (false, r)
  else (true, { r with
    slots := Function.update r.slots (r.tail.toNat % ringCap) item, tail := r.tail + 1 })

def pop (r : WorkRing α) : Option α × WorkRing α :=
  if r.head = r.tail then (none, r)
  else (some (r.slots (r.head.toNat % ringCap)), { r with head := r.head + 1 })

/-- The items in the ring, the next one first. -/
def items (r : WorkRing α) : List α := window r.slots ringCap r.head.toNat r.len

theorem len_eq (r : WorkRing α) : r.len = (2 ^ 32 - r.head.toNat + r.tail.toNat) % 2 ^ 32 :=
  UInt32.toNat_sub ..

theorem push_spec (r : WorkRing α) (item : α) (h : r.len ≤ 32) :
    (r.push item).1 = decide (r.items.length < 32) ∧ (r.push item).2.len ≤ 32 ∧
      (r.push item).2.items = if r.items.length < 32 then r.items ++ [item] else r.items := by
  have hlen : r.items.length = r.len := by simp [items, window]
  have heq := r.len_eq
  have hhead := r.head.toNat_lt
  have htail := r.tail.toNat_lt
  rw [hlen, push]
  by_cases hfull : r.len = 32
  · rw [if_pos hfull.ge, if_neg (by omega)]
    simp [hfull]
  · have hadd : (r.tail + 1 - r.head).toNat = r.len + 1 := by
      rw [UInt32.toNat_sub, UInt32.toNat_add, UInt32.toNat_one]
      omega
    rw [if_neg (show ¬ 32 ≤ r.len by omega), if_pos (by omega)]
    refine ⟨(decide_eq_true (by omega)).symm, ?_, ?_⟩
    · change (r.tail + 1 - r.head).toNat ≤ 32
      omega
    · change window (Function.update _ (r.tail.toNat % 32) _) 32 _ (r.tail + 1 - r.head).toNat = _
      rw [hadd, show r.tail.toNat % 32 = (r.head.toNat + r.len) % 32 by omega]
      exact window_push item (by omega)

theorem pop_spec (r : WorkRing α) (h : r.len ≤ 32) :
    r.pop.1 = r.items.head? ∧ r.pop.2.len ≤ 32 ∧ r.pop.2.items = r.items.tail := by
  rw [pop]
  by_cases hempty : r.head = r.tail
  · have hzero : r.len = 0 := by simp [len, hempty]
    rw [if_pos hempty]
    simp [items, window, hzero]
  · have hne : r.head.toNat ≠ r.tail.toNat := fun he => hempty (UInt32.toNat_inj.mp he)
    have heq := r.len_eq
    have hhead := r.head.toNat_lt
    have htail := r.tail.toNat_lt
    have hnext : (r.head + 1).toNat = (r.head.toNat + 1) % 2 ^ 32 := UInt32.toNat_add ..
    have hsub : r.len = (r.tail - (r.head + 1)).toNat + 1 := by
      rw [UInt32.toNat_sub, hnext]
      omega
    have hitems : r.items = r.slots (r.head.toNat % 32) ::
        window r.slots 32 (r.head + 1).toNat (r.tail - (r.head + 1)).toNat := by
      rw [items, hsub, window_pop]
      refine congrArg _ (window_congr ?_)
      change _ % 32 = _ % 32
      omega
    rw [if_neg hempty, hitems]
    refine ⟨rfl, ?_, rfl⟩
    change (r.tail - (r.head + 1)).toNat ≤ 32
    omega

end WorkRing

inductive WorkClass where
  | soft | normal
  deriving DecidableEq, Repr

structure WorkQueues (α : Type) where
  hi : WorkRing α
  norm : WorkRing α

inductive WorkOp (α : Type) where
  | pushHi (item : α)
  | push (item : α)
  | pop

/-- What an operation returns: whether a push was accepted, or the item of a pop. -/
abbrev WorkResult (α : Type) := Bool ⊕ Option (α × WorkClass)

namespace WorkQueues
variable {α : Type}

def new (fill : α) : WorkQueues α := ⟨⟨fun _ => fill, 0, 0⟩, ⟨fun _ => fill, 0, 0⟩⟩

def pop (q : WorkQueues α) : Option (α × WorkClass) × WorkQueues α :=
  match q.hi.pop with
  | (some w, hi) => (some (w, .soft), { q with hi })
  | (none, hi) => (q.norm.pop.1.map (·, .normal), ⟨hi, q.norm.pop.2⟩)

def step (q : WorkQueues α) : WorkOp α → WorkResult α × WorkQueues α
  | .pushHi item => (.inl (q.hi.push item).1, { q with hi := (q.hi.push item).2 })
  | .push item => (.inl (q.norm.push item).1, { q with norm := (q.norm.push item).2 })
  | .pop => (.inr q.pop.1, q.pop.2)

def run (q : WorkQueues α) : List (WorkOp α) → List (WorkResult α)
  | [] => []
  | op :: ops => (q.step op).1 :: run (q.step op).2 ops

end WorkQueues

/-- Two lists of at most 32 items each, the first one served first. -/
structure WorkLists (α : Type) where
  hi : List α
  norm : List α

namespace WorkLists
variable {α : Type}

def step (l : WorkLists α) : WorkOp α → WorkResult α × WorkLists α
  | .pushHi item => (.inl (l.hi.length < 32),
      { l with hi := if l.hi.length < 32 then l.hi ++ [item] else l.hi })
  | .push item => (.inl (l.norm.length < 32),
      { l with norm := if l.norm.length < 32 then l.norm ++ [item] else l.norm })
  | .pop =>
    match l with
    | ⟨w :: hi, norm⟩ => (.inr (some (w, .soft)), ⟨hi, norm⟩)
    | ⟨[], norm⟩ => (.inr (norm.head?.map (·, .normal)), ⟨[], norm.tail⟩)

def run (l : WorkLists α) : List (WorkOp α) → List (WorkResult α)
  | [] => []
  | op :: ops => (l.step op).1 :: run (l.step op).2 ops

end WorkLists

namespace WorkQueues
variable {α : Type}

def lists (q : WorkQueues α) : WorkLists α := ⟨q.hi.items, q.norm.items⟩

def Bounded (q : WorkQueues α) : Prop := q.hi.len ≤ 32 ∧ q.norm.len ≤ 32

theorem step_lists {q : WorkQueues α} (h : q.Bounded) (op : WorkOp α) :
    (q.step op).1 = (q.lists.step op).1 ∧ (q.step op).2.Bounded ∧
      (q.step op).2.lists = (q.lists.step op).2 := by
  cases op with
  | pushHi item =>
    obtain ⟨hok, hlen, hitems⟩ := q.hi.push_spec item h.1
    exact ⟨congrArg Sum.inl hok, ⟨hlen, h.2⟩, congrArg (WorkLists.mk · _) hitems⟩
  | push item =>
    obtain ⟨hok, hlen, hitems⟩ := q.norm.push_spec item h.2
    exact ⟨congrArg Sum.inl hok, ⟨h.1, hlen⟩, congrArg (WorkLists.mk _) hitems⟩
  | pop =>
    obtain ⟨hi, hilen, hitail⟩ := q.hi.pop_spec h.1
    obtain ⟨norm, normlen, normtail⟩ := q.norm.pop_spec h.2
    generalize hpop : q.hi.pop = r at hi hilen hitail
    obtain ⟨w, ring⟩ := r
    dsimp only at hi hilen hitail
    subst hi
    unfold step lists pop
    rw [hpop]
    cases hitems : q.hi.items with
    | nil =>
      rw [hitems] at hitail
      refine ⟨?_, ⟨hilen, normlen⟩, ?_⟩
      · simp [WorkLists.step, norm]
      · simp [WorkLists.step, hitail, normtail]
    | cons w rest =>
      rw [hitems] at hitail
      exact ⟨rfl, ⟨hilen, h.2⟩, congrArg (WorkLists.mk · _) hitail⟩

theorem run_lists {q : WorkQueues α} (h : q.Bounded) (ops : List (WorkOp α)) :
    q.run ops = q.lists.run ops := by
  induction ops generalizing q with
  | nil => rfl
  | cons op ops ih =>
    obtain ⟨hres, hnext, hlists⟩ := step_lists h op
    rw [run, WorkLists.run, hres, ih hnext, hlists]

/-- Whatever the operations and however often the counters wrap, every result is that of two bounded
lists: items leave in the order they came, the high ones first, none lost and none twice. -/
theorem queues_are_lists (fill : α) (ops : List (WorkOp α)) :
    (new fill).run ops = (⟨[], []⟩ : WorkLists α).run ops := by
  have hempty : (new fill).lists = ⟨[], []⟩ := by
    simp [lists, new, WorkRing.items, WorkRing.len, window]
  rw [← hempty]
  exact run_lists ⟨by simp [new, WorkRing.len], by simp [new, WorkRing.len]⟩ ops

end WorkQueues
end VibeOS.Sched
