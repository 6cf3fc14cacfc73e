import Mathlib.Data.List.Basic

/-!
Histories of events, newest first, and endless runs. An event can be good in the history before it,
and what it did stands until another event stops it. Where the steps that change a state lower its
rank, and in every state that is not final some later step would change it, a final state comes.
-/
namespace VibeOS.Lib
variable {E : Type}

/-- Some event that was good when it happened has not been stopped since. -/
def Since (good : E → List E → Prop) (stop : E) : List E → Prop
  | [] => False
  | e :: l => good e l ∨ e ≠ stop ∧ Since good stop l

/-- Every event was allowed by the history before it. -/
def Each (ok : E → List E → Prop) : List E → Prop
  | [] => True
  | e :: l => ok e l ∧ Each ok l

variable {good ok : E → List E → Prop} {stop e : E} {l l' : List E}

theorem since_cons (hgood : ¬ good e l) (hstop : e ≠ stop) :
    Since good stop (e :: l) ↔ Since good stop l := by
  simp [Since, hgood, hstop]

theorem since_append (h : ∀ e ∈ l', ∀ l, ¬ good e l) :
    Since good stop (l' ++ l) ↔ stop ∉ l' ∧ Since good stop l := by
  induction l' with
  | nil => simp
  | cons e l' ih =>
    have hrest := ih fun x hx => h x (List.mem_cons_of_mem _ hx)
    have hgood := h e List.mem_cons_self (l' ++ l)
    rw [List.cons_append, Since, hrest, List.mem_cons, not_or, and_assoc, eq_comm]
    exact or_iff_right hgood

theorem since_iff : Since good stop l ↔ ∃ l₁ e l₂, l = l₁ ++ e :: l₂ ∧ stop ∉ l₁ ∧ good e l₂ := by
  induction l with
  | nil => simp [Since]
  | cons x l ih =>
    rw [Since, ih]
    constructor
    · rintro (hx | ⟨hx, l₁, e, l₂, rfl, hstop, he⟩)
      · exact ⟨[], x, l, rfl, List.not_mem_nil, hx⟩
      · exact ⟨x :: l₁, e, l₂, rfl, List.not_mem_cons_of_ne_of_not_mem (Ne.symm hx) hstop, he⟩
    · rintro ⟨l₁, e, l₂, hl, hstop, he⟩
      cases l₁ with
      | nil =>
        cases hl
        exact .inl he
      | cons y l₁ =>
        cases hl
        rw [List.mem_cons, not_or] at hstop
        exact .inr ⟨Ne.symm hstop.1, l₁, e, l₂, rfl, hstop.2, he⟩

theorem Each.append_left (h : ∀ l₁ e l₂, l' = l₁ ++ e :: l₂ → ok e (l₂ ++ l)) (hl : Each ok l) :
    Each ok (l' ++ l) := by
  induction l' with
  | nil => exact hl
  | cons e l' ih =>
    refine ⟨h [] e l' rfl, ih fun l₁ x l₂ hx => h (e :: l₁) x l₂ ?_⟩
    rw [hx, List.cons_append]

theorem Each.at (h : Each ok (l' ++ e :: l)) : ok e l := by
  induction l' with
  | nil => exact h.1
  | cons x l' ih => exact ih h.2

theorem exists_final {σ : Type} (state : Nat → σ) (rank : σ → Nat) (final : σ → Prop)
    (hstep : ∀ t, state (t + 1) = state t ∨ rank (state (t + 1)) < rank (state t))
    (hhelp : ∀ t, ¬ final (state t) → ∃ u, t ≤ u ∧ (state u = state t → state (u + 1) ≠ state u))
    (t : Nat) :
    ∃ N, t ≤ N ∧ final (state N) := by
  induction hr : rank (state t) using Nat.strongRecOn generalizing t with
  | ind n ih =>
    by_cases hfinal : final (state t)
    · exact ⟨t, Nat.le_refl t, hfinal⟩
    have hlower : ∃ u, t ≤ u ∧ rank (state u) < n := by
      by_contra hnone
      -- then nothing changes any more, against the help that is due
      have hsame : ∀ k, state (t + k) = state t := by
        intro k
        induction k with
        | zero => rfl
        | succ k ihk =>
          rcases hstep (t + k) with heq | hlt
          · exact heq.trans ihk
          · rw [ihk, hr] at hlt
            exact absurd ⟨t + k + 1, by omega, hlt⟩ hnone
      obtain ⟨u, htu, hu⟩ := hhelp t hfinal
      obtain ⟨k, rfl⟩ := Nat.exists_eq_add_of_le htu
      exact hu (hsame k) ((hsame (k + 1)).trans (hsame k).symm)
    obtain ⟨u, htu, hu⟩ := hlower
    obtain ⟨N, huN, hN⟩ := ih _ hu u rfl
    exact ⟨N, Nat.le_trans htu huN, hN⟩

end VibeOS.Lib
