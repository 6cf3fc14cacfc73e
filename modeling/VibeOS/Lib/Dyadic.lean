import Mathlib.Algebra.Order.Ring.Nat

/-!
Blocks of `2 ^ k` points at multiples of `2 ^ k`. Block `i` of order `k` is the points `x` with
`x / 2 ^ k = i`, and its halves are the blocks `2 * i` and `2 * i + 1` of the order below. A set of
blocks that do not overlap and of which no two are the halves of one block is determined by the
points it covers: its blocks are the largest ones covered.
-/
namespace VibeOS.Lib

variable {top : Nat} {B B' : Nat → Nat → Prop} {P : Nat → Prop} {k i : Nat}

/-- Every point of block `i` of order `k` satisfies `P`. -/
def WholeBlock (P : Nat → Prop) (k i : Nat) : Prop := ∀ x, x / 2 ^ k = i → P x

/-- The points in the blocks of a set. -/
def CoveredBy (B : Nat → Nat → Prop) (x : Nat) : Prop := ∃ k, B k (x / 2 ^ k)

/-- Disjoint blocks of orders up to `top`, joined as far as they can be. -/
structure Merged (top : Nat) (B : Nat → Nat → Prop) : Prop where
  order_le : ∀ {k i}, B k i → k ≤ top
  unique : ∀ {k l x}, B k (x / 2 ^ k) → B l (x / 2 ^ l) → k = l
  halves : ∀ {k i}, k < top → B k (2 * i) → ¬ B k (2 * i + 1)

theorem wholeBlock_halves :
    WholeBlock P (k + 1) i ↔ WholeBlock P k (2 * i) ∧ WholeBlock P k (2 * i + 1) := by
  have hdiv : ∀ x, x / 2 ^ (k + 1) = x / 2 ^ k / 2 := fun x => by
    rw [Nat.pow_succ, Nat.div_div_eq_div_mul]
  constructor
  · refine fun h => ⟨fun x hx => h x ?_, fun x hx => h x ?_⟩
    · rw [hdiv, hx]
      omega
    · rw [hdiv, hx]
      omega
  · intro h x hx
    rw [hdiv] at hx
    rcases Nat.mod_two_eq_zero_or_one (x / 2 ^ k) with hm | hm
    · exact h.1 x (by omega)
    · exact h.2 x (by omega)

theorem block_nested {l x y : Nat} (hkl : k ≤ l) (h : x / 2 ^ k = y / 2 ^ k) :
    x / 2 ^ l = y / 2 ^ l := by
  obtain ⟨d, rfl⟩ := Nat.exists_eq_add_of_le hkl
  rw [Nat.pow_add, ← Nat.div_div_eq_div_mul, ← Nat.div_div_eq_div_mul, h]

namespace Merged

theorem exists_block (h : Merged top B) (hk : k ≤ top) (hw : WholeBlock (CoveredBy B) k i) :
    ∃ l, k ≤ l ∧ B l (i * 2 ^ k / 2 ^ l) := by
  induction k generalizing i with
  | zero =>
    obtain ⟨l, hl⟩ := hw (i * 2 ^ 0) (Nat.mul_div_cancel _ (Nat.two_pow_pos 0))
    exact ⟨l, Nat.zero_le l, hl⟩
  | succ k ih =>
    obtain ⟨hlow, hhigh⟩ := wholeBlock_halves.mp hw
    obtain ⟨l, hl, hB⟩ := ih (Nat.le_of_succ_le hk) hlow
    obtain ⟨l', hl', hB'⟩ := ih (Nat.le_of_succ_le hk) hhigh
    have hpos := Nat.two_pow_pos (k + 1)
    have hstart : 2 * i * 2 ^ k = i * 2 ^ (k + 1) := by
      rw [Nat.pow_succ']
      ac_rfl
    -- Both halves start in the same block of the next order.
    have hsame : (2 * i + 1) * 2 ^ k / 2 ^ (k + 1) = i * 2 ^ (k + 1) / 2 ^ (k + 1) := by
      rw [Nat.mul_div_cancel _ hpos, Nat.pow_succ, ← Nat.div_div_eq_div_mul,
        Nat.mul_div_cancel _ (Nat.two_pow_pos k)]
      omega
    rcases Nat.lt_or_eq_of_le hl with hlt | rfl
    · rw [hstart] at hB
      exact ⟨l, hlt, hB⟩
    · rcases Nat.lt_or_eq_of_le hl' with hlt | rfl
      · rw [block_nested hlt hsame] at hB'
        exact ⟨l', hlt, hB'⟩
      · rw [Nat.mul_div_cancel _ (Nat.two_pow_pos k)] at hB hB'
        exact absurd hB' (h.halves hk hB)

theorem mem_iff (h : Merged top B) : B k i ↔ k ≤ top ∧ WholeBlock (CoveredBy B) k i ∧
    (k < top → ¬ WholeBlock (CoveredBy B) (k + 1) (i / 2)) := by
  have hself : i * 2 ^ k / 2 ^ k = i := Nat.mul_div_cancel _ (Nat.two_pow_pos k)
  constructor
  · intro hB
    refine ⟨h.order_le hB, fun x hx => ⟨k, hx ▸ hB⟩, fun hlt hw => ?_⟩
    obtain ⟨l, hl, hB'⟩ := h.exists_block hlt hw
    have hin : i / 2 * 2 ^ (k + 1) / 2 ^ (k + 1) = i * 2 ^ k / 2 ^ (k + 1) := by
      rw [Nat.mul_div_cancel _ (Nat.two_pow_pos _), Nat.pow_succ, ← Nat.div_div_eq_div_mul, hself]
    rw [block_nested hl hin] at hB'
    have heq := h.unique (x := i * 2 ^ k) (hself.symm ▸ hB) hB'
    omega
  · rintro ⟨hk, hw, hmax⟩
    obtain ⟨l, hl, hB⟩ := h.exists_block hk hw
    rcases Nat.lt_or_eq_of_le hl with hlt | rfl
    · have hlt' : k < top := Nat.lt_of_lt_of_le hlt (h.order_le hB)
      refine absurd (fun x hx => ⟨l, ?_⟩) (hmax hlt')
      have hin : x / 2 ^ (k + 1) = i * 2 ^ k / 2 ^ (k + 1) := by
        rw [hx, Nat.pow_succ, ← Nat.div_div_eq_div_mul, hself]
      rw [block_nested hlt hin]
      exact hB
    · rw [hself] at hB
      exact hB

end Merged

end VibeOS.Lib
