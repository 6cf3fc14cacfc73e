import Mathlib.Data.Fin.Tuple.Basic
import Mathlib.Data.Fintype.BigOperators
import Mathlib.Data.Multiset.Bind

/-!
Tables of a fixed number of slots, seen as the multiset of their cells. Writing one slot
replaces one cell and leaves the others.
-/
namespace VibeOS.Lib
variable {α : Type} {n : Nat}

def cells (t : Fin n → α) : Multiset α :=
  Finset.univ.val.map t

def others (t : Fin n → α) (i : Fin n) : Multiset α :=
  (Finset.univ.erase i).val.map t

theorem cells_eq (t : Fin n → α) (i : Fin n) : cells t = t i ::ₘ others t i := by
  unfold cells others
  rw [← Multiset.map_cons, Finset.erase_val, Multiset.cons_erase (Finset.mem_univ_val i)]

@[simp] theorem others_update (t : Fin n → α) (i : Fin n) (x : α) :
    others (Function.update t i x) i = others t i := by
  unfold others
  refine Multiset.map_congr rfl fun j hj => ?_
  rw [Function.update_of_ne (Finset.mem_erase.mp (Finset.mem_val.mp hj)).1]

theorem cells_update (t : Fin n → α) (i : Fin n) (x : α) :
    cells (Function.update t i x) = x ::ₘ others t i := by
  rw [cells_eq _ i, others_update, Function.update_self]

theorem mem_cells {t : Fin n → α} {x : α} : x ∈ cells t ↔ ∃ i, t i = x := by
  simp [cells]

theorem coe_map_finRange (t : Fin n → α) : (((List.finRange n).map t : List α) : Multiset α) =
    cells t := by
  unfold cells
  rw [← Multiset.map_coe]
  rfl

section Update
variable {β : Type} [DecidableEq α] {f : α → β} {a x : α} {v y : β}

theorem update_eq_iff : Function.update f a v x = y ↔ x = a ∧ v = y ∨ x ≠ a ∧ f x = y := by
  by_cases h : x = a
  · subst h
    simp
  · simp [h]

theorem update_eq_other (hf : f a ≠ y) (hv : v ≠ y) : Function.update f a v x = y ↔ f x = y := by
  rw [update_eq_iff]
  constructor
  · rintro (⟨-, rfl⟩ | ⟨-, hx⟩)
    · exact absurd rfl hv
    · exact hx
  · intro hx
    refine .inr ⟨?_, hx⟩
    rintro rfl
    exact hf hx

theorem update_none_eq_some {f : α → Option β} :
    Function.update f a none x = some y ↔ x ≠ a ∧ f x = some y := by
  simp [update_eq_iff]

end Update

section Filled
variable {t : Fin n → Option α} {i : Fin n} {x : α}

/-- What the occupied slots of a table of options hold. -/
def filled (t : Fin n → Option α) : Multiset α :=
  (cells t).filterMap id

def filledBut (t : Fin n → Option α) (i : Fin n) : Multiset α :=
  (others t i).filterMap id

theorem filled_of_some (h : t i = some x) : filled t = x ::ₘ filledBut t i := by
  rw [filled, cells_eq t i, h, Multiset.filterMap_cons_some id _ _ rfl]
  rfl

theorem filled_of_none (h : t i = none) : filled t = filledBut t i := by
  rw [filled, cells_eq t i, h, Multiset.filterMap_cons_none _ _ rfl]
  rfl

theorem filled_update_some (t : Fin n → Option α) (i : Fin n) (x : α) :
    filled (Function.update t i (some x)) = x ::ₘ filledBut t i := by
  rw [filled, cells_update, Multiset.filterMap_cons_some id _ _ rfl]
  rfl

theorem filled_update_none (t : Fin n → Option α) (i : Fin n) :
    filled (Function.update t i none) = filledBut t i := by
  rw [filled, cells_update, Multiset.filterMap_cons_none _ _ rfl]
  rfl

theorem mem_filled : x ∈ filled t ↔ ∃ i, t i = some x := by
  simp [filled, Multiset.mem_filterMap, mem_cells]

theorem card_filled_le (t : Fin n → Option α) : (filled t).card ≤ n := by
  have h : (filled t).card ≤ (cells t).card := by
    rw [filled, ← coe_map_finRange, Multiset.filterMap_coe, Multiset.coe_card, Multiset.coe_card]
    exact List.length_filterMap_le _ _
  rwa [cells, Multiset.card_map, Finset.card_val, Finset.card_univ, Fintype.card_fin] at h

theorem filled_empty : filled (fun _ : Fin n => (none : Option α)) = 0 := by
  refine Multiset.eq_zero_of_forall_notMem fun x hx => ?_
  obtain ⟨i, hi⟩ := mem_filled.mp hx
  cases hi

end Filled

/-- The first of the items with the greatest key, and its key; items without one are passed over. -/
def pickMax (key : α → Option Nat) : Option (α × Nat) → List α → Option (α × Nat)
  | best, [] => best
  | best, x :: l =>
    match key x with
    | none => pickMax key best l
    | some d => pickMax key (if best.all (·.2 < d) then some (x, d) else best) l

section PickMax
variable {key : α → Option Nat} {best : Option (α × Nat)} {l : List α} {x : α} {d : Nat}

theorem pickMax_eq_none (h : pickMax key best l = none) : best = none ∧ ∀ y ∈ l, key y = none := by
  induction l generalizing best with
  | nil => exact ⟨h, nofun⟩
  | cons y l ih =>
    unfold pickMax at h
    split at h
    · rename_i hy
      exact ⟨(ih h).1, List.forall_mem_cons.mpr ⟨hy, (ih h).2⟩⟩
    · rename_i e hy
      have hbest := (ih h).1
      split at hbest
      · cases hbest
      · rename_i hall
        rw [hbest] at hall
        exact absurd rfl hall

theorem pickMax_eq_some (h : pickMax key best l = some (x, d)) :
    (best = some (x, d) ∨ x ∈ l ∧ key x = some d) ∧ (∀ b ∈ best, b.2 ≤ d) ∧
      ∀ y ∈ l, ∀ e, key y = some e → e ≤ d := by
  induction l generalizing best with
  | nil =>
    obtain rfl : best = some (x, d) := h
    exact ⟨.inl rfl, by simp, nofun⟩
  | cons y l ih =>
    unfold pickMax at h
    split at h
    · rename_i hy
      obtain ⟨hfrom, hbest, hmax⟩ := ih h
      refine ⟨hfrom.imp_right (.imp_left (List.mem_cons_of_mem y)), hbest, ?_⟩
      refine List.forall_mem_cons.mpr ⟨fun e he => ?_, hmax⟩
      rw [hy] at he
      cases he
    · rename_i e hy
      obtain ⟨hfrom, hbest, hmax⟩ := ih h
      split at hfrom
      · rename_i hall
        rw [if_pos hall] at hbest
        have hed : e ≤ d := hbest (y, e) rfl
        refine ⟨.inr ?_, ?_, List.forall_mem_cons.mpr ⟨?_, hmax⟩⟩
        · rcases hfrom with heq | ⟨hin, hx⟩
          · cases heq
            exact ⟨List.mem_cons_self, hy⟩
          · exact ⟨List.mem_cons_of_mem y hin, hx⟩
        · intro b hb
          rw [hb, Option.all_some, decide_eq_true_eq] at hall
          omega
        · intro e' he'
          rw [hy] at he'
          cases he'
          exact hed
      · rename_i hall
        rw [if_neg hall] at hbest
        refine ⟨hfrom.imp_right (.imp_left (List.mem_cons_of_mem y)), hbest, ?_⟩
        refine List.forall_mem_cons.mpr ⟨fun e' he' => ?_, hmax⟩
        rw [hy] at he'
        cases he'
        cases best with
        | none => exact absurd rfl hall
        | some b =>
          rw [Option.all_some, decide_eq_true_eq] at hall
          have := hbest b rfl
          omega

end PickMax

end VibeOS.Lib
