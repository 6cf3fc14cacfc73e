import Mathlib.Data.List.Nodup
import Mathlib.Logic.Function.Basic

/-!
Singly linked lists threaded through an array of links. `Chained` relates a front to the
members it leads to; taking a member out and appending one keep the relation, and a search from
the front finds the first member that passes, with the one before it.
-/
namespace VibeOS.Lib

variable {α : Type*} {next next' : α → Option α} {cur : Option α} {l l₁ l₂ : List α} {x : α}

/-- From `cur` the members of the list follow each other, and the last leads nowhere. -/
def Chained (next : α → Option α) : Option α → List α → Prop
  | cur, [] => cur = none
  | cur, x :: xs => cur = some x ∧ Chained next (next x) xs

theorem Chained.frame (h : Chained next cur l) (hn : ∀ x ∈ l, next' x = next x) :
    Chained next' cur l := by
  induction l generalizing cur with
  | nil => exact h
  | cons x l ih =>
    refine ⟨h.1, ?_⟩
    rw [hn x (List.mem_cons_self ..)]
    exact ih h.2 fun y hy => hn y (List.mem_cons_of_mem _ hy)

theorem Chained.head (h : Chained next cur l) : cur = l.head? := by
  cases l with
  | nil => exact h
  | cons x l => exact h.1

theorem Chained.suffix (h : Chained next cur (l₁ ++ l)) : Chained next l.head? l := by
  induction l₁ generalizing cur with
  | nil =>
    have hl : Chained next cur l := h
    exact hl.head ▸ hl
  | cons y l₁ ih => exact ih h.2

theorem Chained.drop (h : Chained next cur (l₁ ++ x :: l₂)) : Chained next (next x) l₂ := by
  induction l₁ generalizing cur with
  | nil => exact h.2
  | cons y l₁ ih => exact ih h.2

theorem Chained.unique (h : Chained next cur l₁) (h' : Chained next cur l₂) : l₁ = l₂ := by
  induction l₁ generalizing cur l₂ with
  | nil =>
    obtain rfl : cur = none := h
    cases l₂ with
    | nil => rfl
    | cons x l₂ => cases h'.1
  | cons x l₁ ih =>
    obtain ⟨rfl, hrest⟩ := h
    cases l₂ with
    | nil => cases h'
    | cons y l₂ =>
      obtain ⟨hxy, hrest'⟩ := h'
      cases hxy
      rw [ih hrest hrest']

theorem Chained.nodup (h : Chained next cur l) : l.Nodup := by
  induction l generalizing cur with
  | nil => exact List.nodup_nil
  | cons x l ih =>
    refine List.nodup_cons.mpr ⟨fun hx => ?_, ih h.2⟩
    obtain ⟨a, b, rfl⟩ := List.append_of_mem hx
    have hlen := congrArg List.length (h.2.unique (Chained.drop h.2))
    rw [List.length_append, List.length_cons] at hlen
    omega

theorem Chained.replace (h : Chained next cur (l₁ ++ x :: l)) (hl₁ : ∀ y ∈ l₁, next' y = next y)
    (hx : Chained next' (next' x) l₂) : Chained next' cur (l₁ ++ x :: l₂) := by
  induction l₁ generalizing cur with
  | nil => exact ⟨h.1, hx⟩
  | cons y l₁ ih =>
    refine ⟨h.1, ?_⟩
    rw [hl₁ y (List.mem_cons_self ..)]
    exact ih h.2 fun z hz => hl₁ z (List.mem_cons_of_mem _ hz)

theorem Chained.append {mid : Option α} (h : Chained next cur (l₁ ++ l)) (hnd : l₁.Nodup)
    (hl : ∀ y ∈ l₁, l₁.getLast? ≠ some y → next' y = next y)
    (hlast : ∀ y, l₁.getLast? = some y → next' y = mid) (hmid : Chained next' mid l₂) :
    Chained next' (if l₁ = [] then mid else cur) (l₁ ++ l₂) := by
  induction l₁ generalizing cur with
  | nil => exact hmid
  | cons y l₁ ih =>
    obtain ⟨hcur, hrest⟩ := h
    obtain ⟨hy, hnd'⟩ := List.nodup_cons.mp hnd
    rw [if_neg (List.cons_ne_nil _ _), List.cons_append]
    refine ⟨hcur, ?_⟩
    cases l₁ with
    | nil =>
      rw [hlast y rfl]
      exact hmid
    | cons z l₁ =>
      rw [List.getLast?_cons_cons] at hl hlast
      rw [hl y (List.mem_cons_self ..) fun he => hy (List.mem_of_getLast? he)]
      have := ih hrest hnd' (fun y hm => hl y (List.mem_cons_of_mem _ hm)) hlast
      rwa [if_neg (List.cons_ne_nil _ _)] at this

section
variable [DecidableEq α]

/-- The links with member `x` taken out from behind `prev`. -/
def unchain (next : α → Option α) (prev : Option α) (x : α) : α → Option α :=
  match prev with
  | some p => Function.update (Function.update next p (next x)) x none
  | none => Function.update next x none

theorem Chained.unchain (h : Chained next cur (l₁ ++ x :: l₂)) (hnd : (l₁ ++ x :: l₂).Nodup) :
    Chained (unchain next l₁.getLast? x) (if l₁ = [] then next x else cur) (l₁ ++ l₂) := by
  obtain ⟨hnd₁, hnd₂, hne⟩ := List.nodup_append.mp hnd
  have hother : ∀ y, l₁.getLast? ≠ some y → y ≠ x →
      VibeOS.Lib.unchain next l₁.getLast? x y = next y := by
    intro y hy hyx
    cases hp : l₁.getLast? with
    | none => exact Function.update_of_ne hyx ..
    | some p =>
      have hyp : y ≠ p := fun e => hy (e ▸ hp)
      exact (Function.update_of_ne hyx ..).trans (Function.update_of_ne hyp ..)
  refine h.append hnd₁ (fun y hy hl => hother y hl (hne y hy x (List.mem_cons_self ..)))
    (fun y hy => ?_) (h.drop.frame fun y hy => hother y (fun hl => ?_) ?_)
  · have hyx := hne y (List.mem_of_getLast? hy) x (List.mem_cons_self ..)
    rw [hy]
    exact (Function.update_of_ne hyx ..).trans (Function.update_self ..)
  · exact hne y (List.mem_of_getLast? hl) y (List.mem_cons_of_mem _ hy) rfl
  · exact fun e => (List.nodup_cons.mp hnd₂).1 (e ▸ hy)

/-- The links with `x` behind the last member. -/
def chainLast (next : α → Option α) (last : Option α) (x : α) : α → Option α :=
  match last with
  | some t => Function.update (Function.update next x none) t (some x)
  | none => Function.update next x none

theorem Chained.chainLast (h : Chained next cur l) (hnd : l.Nodup) (hx : x ∉ l) :
    Chained (chainLast next l.getLast? x) (if l = [] then some x else cur) (l ++ [x]) := by
  have hxl : ∀ y, l.getLast? = some y → y ≠ x :=
    fun y hy e => hx (e ▸ List.mem_of_getLast? hy)
  have hself : VibeOS.Lib.chainLast next l.getLast? x x = none := by
    cases ht : l.getLast? with
    | none => exact Function.update_self ..
    | some t => exact (Function.update_of_ne (hxl t ht).symm ..).trans (Function.update_self ..)
  have h' : Chained next cur (l ++ []) := by rwa [List.append_nil]
  refine h'.append hnd (fun y hy hl => ?_) (fun y hy => ?_) ⟨rfl, hself⟩
  · have hyx : y ≠ x := fun e => hx (e ▸ hy)
    cases ht : l.getLast? with
    | none => exact Function.update_of_ne hyx ..
    | some t =>
      have hyt : y ≠ t := fun e => hl (e ▸ ht)
      exact (Function.update_of_ne hyt ..).trans (Function.update_of_ne hyx ..)
  · rw [hy]
    exact Function.update_self ..

end

/-- The members from `cur` on, up to `fuel` of them. -/
def chainList (next : α → Option α) : Nat → Option α → List α
  | 0, _ => []
  | _ + 1, none => []
  | fuel + 1, some x => x :: chainList next fuel (next x)

theorem Chained.chainList_eq {fuel : Nat} (h : Chained next cur l) (hf : l.length ≤ fuel) :
    chainList next fuel cur = l := by
  induction l generalizing cur fuel with
  | nil =>
    obtain rfl : cur = none := h
    cases fuel <;> rfl
  | cons x l ih =>
    obtain ⟨fuel, rfl⟩ := Nat.exists_eq_succ_of_ne_zero (Nat.ne_of_gt (Nat.zero_lt_of_lt hf))
    obtain ⟨rfl, hrest⟩ := h
    rw [chainList, ih hrest (Nat.le_of_succ_le_succ hf)]

/-- The first member from `cur` on that `p` accepts, with the member before it; `none` when the
search has not ended within `fuel` members. -/
def searchChain (next : α → Option α) (p : α → Bool) :
    Nat → Option α → Option α → Option (Option (Option α × α))
  | 0, _, _ => none
  | _ + 1, _, none => some none
  | fuel + 1, prev, some x =>
    if p x then some (some (prev, x)) else searchChain next p fuel (some x) (next x)

theorem searchChain_eq {p : α → Bool} {q : Option α} {fuel : Nat} (h : Chained next cur l)
    (hf : l.length < fuel) :
    (searchChain next p fuel q cur = some none ∧ ∀ x ∈ l, p x = false) ∨
      ∃ l₁ x l₂, l = l₁ ++ x :: l₂ ∧ p x = true ∧ (∀ y ∈ l₁, p y = false) ∧
        searchChain next p fuel q cur = some (some (l₁.getLast?.or q, x)) := by
  induction l generalizing cur q fuel with
  | nil =>
    obtain ⟨fuel, rfl⟩ := Nat.exists_eq_succ_of_ne_zero (Nat.ne_of_gt hf)
    obtain rfl : cur = none := h
    exact .inl ⟨rfl, fun x hx => by cases hx⟩
  | cons y l ih =>
    obtain ⟨fuel, rfl⟩ := Nat.exists_eq_succ_of_ne_zero (Nat.ne_of_gt (Nat.zero_lt_of_lt hf))
    obtain ⟨rfl, hrest⟩ := h
    rw [searchChain]
    cases hp : p y with
    | true => exact .inr ⟨[], y, l, rfl, hp, fun z hz => (List.not_mem_nil hz).elim, rfl⟩
    | false =>
      rw [if_neg Bool.false_ne_true]
      rcases ih hrest (Nat.lt_of_succ_lt_succ hf) (q := some y) with
        ⟨hs, hnone⟩ | ⟨l₁, x, l₂, rfl, hx, hl₁, hs⟩
      · exact .inl ⟨hs, List.forall_mem_cons.mpr ⟨hp, hnone⟩⟩
      · refine .inr ⟨y :: l₁, x, l₂, rfl, hx, List.forall_mem_cons.mpr ⟨hp, hl₁⟩, ?_⟩
        rw [hs, List.getLast?_cons]
        cases l₁.getLast? <;> rfl

theorem chained_range (n : Nat) :
    Chained (fun i => if i + 1 < n then some (i + 1) else none) (if 0 < n then some 0 else none)
      (List.range n) := by
  have h : ∀ m k, m + k = n → Chained (fun i => if i + 1 < n then some (i + 1) else none)
      (if m < n then some m else none) (List.range' m k) := by
    intro m k
    induction k generalizing m with
    | zero =>
      intro hm
      exact if_neg (by omega)
    | succ k ih =>
      intro hm
      exact ⟨if_pos (by omega), ih (m + 1) (by omega)⟩
  rw [List.range_eq_range']
  exact h 0 n (Nat.zero_add n)

end VibeOS.Lib
