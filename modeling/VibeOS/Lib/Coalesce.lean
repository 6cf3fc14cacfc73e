import Mathlib.Algebra.Order.BigOperators.Group.List
import Mathlib.Algebra.Order.Group.Nat
import Mathlib.Algebra.Order.Monoid.Canonical.Basic
import Mathlib.Data.List.Sort
import VibeOS.Lib.Cover

/-!
Weights of lists, and ordered lists of intervals. An interval is inserted by joining it with the
neighbours it meets; the list then covers the new interval too, has gained its weight, and still no
two of its intervals meet.
-/
namespace VibeOS.Lib

variable {α : Type*}

def total (f : α → Nat) (l : List α) : Nat := (l.map f).sum

section
variable (f : α → Nat)

@[simp] theorem total_nil : total f [] = 0 := rfl

@[simp] theorem total_cons (x : α) (l : List α) : total f (x :: l) = f x + total f l := by
  simp [total]

@[simp] theorem total_append (l l' : List α) : total f (l ++ l') = total f l + total f l' := by
  simp [total]

theorem total_set {l : List α} {i : Nat} {y : α} (h : l[i]? = some y) (x : α) :
    total f (l.set i x) + f y = total f l + f x := by
  induction l generalizing i with
  | nil => cases h
  | cons z l ih =>
    cases i with
    | zero =>
      cases h
      simp only [List.set_cons_zero, total_cons]
      omega
    | succ i =>
      have := ih h
      simp only [List.set_cons_succ, total_cons]
      omega

theorem total_eraseIdx {l : List α} {i : Nat} {y : α} (h : l[i]? = some y) :
    total f (l.eraseIdx i) + f y = total f l := by
  induction l generalizing i with
  | nil => cases h
  | cons z l ih =>
    cases i with
    | zero =>
      cases h
      simp only [List.eraseIdx_cons_zero, total_cons]
      omega
    | succ i =>
      have := ih h
      simp only [List.eraseIdx_cons_succ, total_cons]
      omega

theorem le_total {l : List α} {x : α} (h : x ∈ l) : f x ≤ total f l :=
  List.le_sum_of_mem (List.mem_map_of_mem h)

end

/-- With no weight `f` there is no weight `g` either, when a cell of weight `g` has weight
`f`. -/
theorem total_eq_zero {f g : α → Nat} {l : List α} (h : total f l = 0)
    (hg : ∀ x ∈ l, f x = 0 → g x = 0) : total g l = 0 := by
  induction l with
  | nil => rfl
  | cons x l ih =>
    rw [total_cons] at h ⊢
    rw [List.forall_mem_cons] at hg
    rw [hg.1 (by omega), ih (by omega) hg.2]

variable [LinearOrder α] {b r s : α × α} {l l₁ l₂ : List (α × α)}

/-- Each interval ends before the next starts, with something between them. -/
def Separated (l : List (α × α)) : Prop :=
  l.Pairwise fun r s => r.2 < s.1

/-- Join `b` with the first interval when that starts where `b` ends. -/
def joinNext (b : α × α) : List (α × α) → (α × α) × List (α × α)
  | [] => (b, [])
  | r :: l => if b.2 = r.1 then ((b.1, r.2), l) else (b, r :: l)

/-- Join `b` with the last interval when that ends where `b` starts. -/
def joinPrev (l : List (α × α)) (b : α × α) : List (α × α) × (α × α) :=
  match l.getLast? with
  | none => (l, b)
  | some r => if r.2 = b.1 then (l.dropLast, (r.1, b.2)) else (l, b)

/-- Put `b` between `l₁` and `l₂`. -/
def insertJoining (l₁ : List (α × α)) (b : α × α) (l₂ : List (α × α)) : List (α × α) :=
  (joinPrev l₁ b).1 ++ (joinNext (joinPrev l₁ b).2 l₂).1 :: (joinNext (joinPrev l₁ b).2 l₂).2

theorem joinPrev_concat (l : List (α × α)) (r b : α × α) :
    joinPrev (l ++ [r]) b = if r.2 = b.1 then (l, (r.1, b.2)) else (l ++ [r], b) := by
  rw [joinPrev, List.getLast?_concat, List.dropLast_concat]

theorem joinPrev_snd_le (hl : ∀ r ∈ l, r.1 ≤ r.2) :
    (joinPrev l b).2.1 ≤ b.1 ∧ (joinPrev l b).2.2 = b.2 := by
  rcases List.eq_nil_or_concat' l with rfl | ⟨l, r, rfl⟩
  · exact ⟨le_rfl, rfl⟩
  · rw [joinPrev_concat]
    split
    · rename_i hmeet
      exact ⟨hmeet ▸ hl r (by simp), rfl⟩
    · exact ⟨le_rfl, rfl⟩

section
variable {P : α × α → Prop} (hjoin : ∀ r s, P r → P s → r.2 = s.1 → P (r.1, s.2)) (hb : P b)
include hjoin hb

theorem joinNext_all (hl : ∀ r ∈ l, P r) : ∀ r ∈ (joinNext b l).1 :: (joinNext b l).2, P r := by
  cases l with
  | nil => exact List.forall_mem_cons.mpr ⟨hb, hl⟩
  | cons r l =>
    obtain ⟨hr, hl'⟩ := List.forall_mem_cons.mp hl
    rw [joinNext]
    split
    · rename_i hmeet
      exact List.forall_mem_cons.mpr ⟨hjoin b r hb hr hmeet, hl'⟩
    · exact List.forall_mem_cons.mpr ⟨hb, hl⟩

theorem joinPrev_all (hl : ∀ r ∈ l, P r) : (∀ r ∈ (joinPrev l b).1, P r) ∧ P (joinPrev l b).2 := by
  rcases List.eq_nil_or_concat' l with rfl | ⟨l, r, rfl⟩
  · exact ⟨hl, hb⟩
  · rw [joinPrev_concat]
    split
    · rename_i hmeet
      exact ⟨fun s hs => hl s (by simp [hs]), hjoin r b (hl r (by simp)) hb hmeet⟩
    · exact ⟨hl, hb⟩

/-- A property of intervals that passes to the join of two that meet holds of every interval of
the list. -/
theorem insertJoining_all (hl₁ : ∀ r ∈ l₁, P r) (hl₂ : ∀ r ∈ l₂, P r) :
    ∀ r ∈ insertJoining l₁ b l₂, P r := by
  obtain ⟨hpre, hmid⟩ := joinPrev_all hjoin hb hl₁
  exact List.forall_mem_append.mpr ⟨hpre, joinNext_all hjoin hmid hl₂⟩

end

section weights
variable {P : α × α → Prop} {f : α × α → Nat}
  (hf : ∀ r s, P r → P s → r.2 = s.1 → f (r.1, s.2) = f r + f s)
include hf

theorem total_joinNext (hb : P b) (hl : ∀ r ∈ l, P r) :
    f (joinNext b l).1 + total f (joinNext b l).2 = f b + total f l := by
  cases l with
  | nil => rfl
  | cons r l =>
    rw [joinNext]
    split
    · rename_i hmeet
      rw [hf b r hb (hl r (List.mem_cons_self ..)) hmeet, total_cons, Nat.add_assoc]
    · rfl

theorem total_joinPrev (hb : P b) (hl : ∀ r ∈ l, P r) :
    total f (joinPrev l b).1 + f (joinPrev l b).2 = total f l + f b := by
  rcases List.eq_nil_or_concat' l with rfl | ⟨l, r, rfl⟩
  · rfl
  · rw [joinPrev_concat]
    split
    · rename_i hmeet
      rw [hf r b (hl r (by simp)) hb hmeet, total_append, total_cons, total_nil, Nat.add_zero,
        Nat.add_assoc]
    · rfl

theorem total_insertJoining (hjoin : ∀ r s, P r → P s → r.2 = s.1 → P (r.1, s.2)) (hb : P b)
    (hl₁ : ∀ r ∈ l₁, P r) (hl₂ : ∀ r ∈ l₂, P r) :
    total f (insertJoining l₁ b l₂) = f b + total f (l₁ ++ l₂) := by
  have hprev := total_joinPrev hf hb hl₁
  have hnext := total_joinNext hf (joinPrev_all hjoin hb hl₁).2 hl₂
  rw [insertJoining, total_append, total_cons, total_append]
  omega

end weights

theorem cover_eq_total (l : List (α × α)) (x : α) :
    cover l x = total (fun r => if Within r x then 1 else 0) l := by
  induction l with
  | nil => rfl
  | cons r l ih => rw [cover_cons, total_cons, ih, Nat.add_comm]

theorem cover_insertJoining (hb : b.1 ≤ b.2) (hl₁ : ∀ r ∈ l₁, r.1 ≤ r.2)
    (hl₂ : ∀ r ∈ l₂, r.1 ≤ r.2) (x : α) :
    cover (insertJoining l₁ b l₂) x = cover [b] x + cover (l₁ ++ l₂) x := by
  simp only [cover_eq_total, total_cons, total_nil, Nat.add_zero]
  refine total_insertJoining (P := fun r => r.1 ≤ r.2) (fun r s hr hs hmeet => ?_)
    (fun r s hr hs hmeet => le_trans hr (hmeet ▸ hs)) hb hl₁ hl₂
  obtain ⟨a, c⟩ := r
  obtain ⟨c', d⟩ := s
  obtain rfl : c = c' := hmeet
  exact (within_split hr hs x).symm

theorem separated_joinNext (hl : Separated l) (hb : ∀ r ∈ l, b.2 ≤ r.1)
    (hpos : ∀ r ∈ l, r.1 < r.2) : Separated ((joinNext b l).1 :: (joinNext b l).2) := by
  cases l with
  | nil => exact List.pairwise_singleton ..
  | cons r l =>
    obtain ⟨hr, hl'⟩ := List.pairwise_cons.mp hl
    rw [joinNext]
    split
    · exact List.pairwise_cons.mpr ⟨hr, hl'⟩
    · rename_i hmeet
      refine List.pairwise_cons.mpr ⟨List.forall_mem_cons.mpr ⟨?_, fun s hs => ?_⟩, hl⟩
      · exact lt_of_le_of_ne (hb r (List.mem_cons_self ..)) hmeet
      · exact lt_trans (lt_of_le_of_lt (hb r (List.mem_cons_self ..))
          (hpos r (List.mem_cons_self ..))) (hr s hs)

theorem separated_joinPrev (hl : Separated l) (hb : ∀ r ∈ l, r.2 ≤ b.1)
    (hpos : ∀ r ∈ l, r.1 < r.2) :
    Separated (joinPrev l b).1 ∧ ∀ r ∈ (joinPrev l b).1, r.2 < (joinPrev l b).2.1 := by
  rcases List.eq_nil_or_concat' l with rfl | ⟨l, r, rfl⟩
  · exact ⟨hl, fun r hr => (List.not_mem_nil hr).elim⟩
  · obtain ⟨hl', -, hr⟩ := List.pairwise_append.mp hl
    rw [joinPrev_concat]
    split
    · exact ⟨hl', fun s hs => hr s hs r (List.mem_singleton_self r)⟩
    · rename_i hmeet
      refine ⟨hl, List.forall_mem_append.mpr ⟨fun s hs => ?_, List.forall_mem_singleton.mpr ?_⟩⟩
      · exact lt_trans (hr s hs r (List.mem_singleton_self r))
          (lt_of_lt_of_le (hpos r (by simp)) (hb r (by simp)))
      · exact lt_of_le_of_ne (hb r (by simp)) hmeet

theorem separated_insertJoining (hl : Separated (l₁ ++ l₂)) (hb₁ : ∀ r ∈ l₁, r.2 ≤ b.1)
    (hb₂ : ∀ r ∈ l₂, b.2 ≤ r.1) (hpos : ∀ r ∈ l₁ ++ l₂, r.1 < r.2) (hb : b.1 < b.2) :
    Separated (insertJoining l₁ b l₂) := by
  obtain ⟨hl₁, hl₂, -⟩ := List.pairwise_append.mp hl
  obtain ⟨hpos₁, hpos₂⟩ := List.forall_mem_append.mp hpos
  obtain ⟨hpre, hmid⟩ := separated_joinPrev hl₁ hb₁ hpos₁
  obtain ⟨hle, hend⟩ := joinPrev_snd_le (b := b) fun r hr => le_of_lt (hpos₁ r hr)
  have hpost := separated_joinNext hl₂ (hend ▸ hb₂ : ∀ r ∈ l₂, (joinPrev l₁ b).2.2 ≤ r.1) hpos₂
  have hstart : (joinNext (joinPrev l₁ b).2 l₂).1.1 = (joinPrev l₁ b).2.1 := by
    cases l₂ with
    | nil => rfl
    | cons r l₂ =>
      rw [joinNext]
      split <;> rfl
  -- the intervals behind the new one start after it
  have hafter : ∀ r ∈ (joinNext (joinPrev l₁ b).2 l₂).2, (joinPrev l₁ b).2.1 < r.1 := by
    intro r hr
    have hr' : r ∈ l₂ := by
      cases l₂ with
      | nil => exact hr
      | cons s l₂ =>
        rw [joinNext] at hr
        split at hr
        · exact List.mem_cons_of_mem _ hr
        · exact hr
    exact lt_of_lt_of_le (lt_of_le_of_lt hle hb) (hb₂ r hr')
  refine List.pairwise_append.mpr ⟨hpre, hpost, fun r hr => List.forall_mem_cons.mpr ⟨?_, ?_⟩⟩
  · rw [hstart]
    exact hmid r hr
  · exact fun s hs => lt_trans (hmid r hr) (hafter s hs)

end VibeOS.Lib
