import Mathlib.Algebra.Order.Ring.Nat
import Mathlib.Data.List.Nodup
import Mathlib.Data.List.Perm.Basic
import Mathlib.Data.Nat.Bitwise
import Mathlib.Tactic.Ring

/-!
Machine words as natural numbers: checked and saturating arithmetic, masks, flips and low zeros in
terms of division by powers of two, and the scan of a word's set bits from the lowest up.
-/
namespace VibeOS.Lib

def saturatingAdd (a b : Nat) : Nat := min (a + b) (2 ^ 64 - 1)

def checkedAdd (a b : Nat) : Option Nat := if a + b < 2 ^ 64 then some (a + b) else none

def checkedMul (a b : Nat) : Option Nat := if a * b < 2 ^ 64 then some (a * b) else none

theorem saturatingAdd_eq {a b : Nat} (h : a + b ≤ 2 ^ 64 - 1) : saturatingAdd a b = a + b :=
  Nat.min_eq_left h

theorem some_if_lt {x c w : Nat} : (if x < w then some x else none) = some c ↔ x = c ∧ c < w := by
  split
  · rename_i hlt
    rw [Option.some.injEq]
    exact ⟨fun h => ⟨h, h ▸ hlt⟩, fun h => h.1⟩
  · rename_i hge
    exact ⟨nofun, fun h => absurd (h.1 ▸ h.2) hge⟩

theorem checkedAdd_eq_some {a b c : Nat} : checkedAdd a b = some c ↔ a + b = c ∧ c < 2 ^ 64 :=
  some_if_lt

theorem checkedMul_eq_some {a b c : Nat} : checkedMul a b = some c ↔ a * b = c ∧ c < 2 ^ 64 :=
  some_if_lt

theorem and_high_mask {w k x : Nat} (hk : k ≤ w) (hx : x < 2 ^ w) :
    x &&& (2 ^ w - 2 ^ k) = x / 2 ^ k * 2 ^ k := by
  have hmask : 2 ^ w - 2 ^ k = (2 ^ (w - k) - 1) * 2 ^ k := by
    rw [Nat.sub_mul, ← Nat.pow_add, Nat.sub_add_cancel hk, Nat.one_mul]
  apply Nat.eq_of_testBit_eq
  intro i
  rw [hmask, Nat.testBit_and, Nat.testBit_mul_two_pow, Nat.testBit_mul_two_pow,
    Nat.testBit_two_pow_sub_one, Nat.testBit_div_two_pow]
  by_cases hi : k ≤ i
  · by_cases hw : i < w
    · simp [hi, show i - k < w - k by omega, Nat.sub_add_cancel hi]
    · have : x.testBit i = false :=
        Nat.testBit_lt_two_pow (Nat.lt_of_lt_of_le hx (Nat.pow_le_pow_right (by decide) (by omega)))
      simp [hi, Nat.sub_add_cancel hi, this]
  · simp [hi]

theorem xor_one (m : Nat) : m ^^^ 1 = if m % 2 = 0 then m + 1 else m - 1 := by
  split
  · rename_i h
    exact Nat.xor_one_of_even (Nat.even_iff.mpr h)
  · rename_i h
    exact Nat.xor_one_of_odd (Nat.odd_iff.mpr (by omega))

theorem xor_two_pow (k m : Nat) :
    (2 ^ k * m) ^^^ 2 ^ k = if m % 2 = 0 then 2 ^ k * m + 2 ^ k else 2 ^ k * m - 2 ^ k := by
  have h : (2 ^ k * m) ^^^ 2 ^ k = 2 ^ k * (m ^^^ 1) := by
    have := Nat.shiftLeft_xor_distrib (a := m) (b := 1) (i := k)
    rw [Nat.shiftLeft_eq, Nat.shiftLeft_eq, Nat.shiftLeft_eq, Nat.one_mul] at this
    rw [Nat.mul_comm, ← this, Nat.mul_comm]
  rw [h, xor_one]
  split
  · rw [Nat.mul_succ]
  · rw [Nat.mul_sub, Nat.mul_one]

theorem two_pow_dvd_of_testBit {x k : Nat} (h : ∀ i < k, x.testBit i = false) : 2 ^ k ∣ x := by
  apply Nat.dvd_of_mod_eq_zero
  apply Nat.eq_of_testBit_eq
  intro i
  rw [Nat.testBit_mod_two_pow, Nat.zero_testBit]
  by_cases hi : i < k
  · simp [h i hi]
  · simp [hi]

/-- The field of `b` bits from bit `p` on. -/
def field (w p b : Nat) : Nat :=
  w / 2 ^ p % 2 ^ b

theorem field_lt (w p b : Nat) : field w p b < 2 ^ b :=
  Nat.mod_lt _ (Nat.two_pow_pos b)

theorem shiftRight_and_eq_field (w p b : Nat) : w >>> p &&& (2 ^ b - 1) = field w p b := by
  rw [Nat.shiftRight_eq_div_pow, Nat.and_two_pow_sub_one_eq_mod]
  rfl

theorem field_add_self {w p b : Nat} (h : field w p b + 1 < 2 ^ b) :
    field (w + 2 ^ p) p b = field w p b + 1 := by
  unfold field at *
  rw [Nat.add_div_right _ (Nat.two_pow_pos p), Nat.add_mod,
    Nat.mod_eq_of_lt (by omega : 1 < 2 ^ b), Nat.mod_eq_of_lt h]

theorem add_div_of_field {w p b q : Nat} (h : field w p b + 1 < 2 ^ b) (hq : p + b ≤ q) :
    (w + 2 ^ p) / 2 ^ q = w / 2 ^ q := by
  unfold field at h
  obtain ⟨d, rfl⟩ := Nat.exists_eq_add_of_le hq
  have hup : (w + 2 ^ p) / 2 ^ (p + b) = w / 2 ^ (p + b) := by
    rw [Nat.pow_add, ← Nat.div_div_eq_div_mul, ← Nat.div_div_eq_div_mul,
      Nat.add_div_right _ (Nat.two_pow_pos p)]
    have hdm := Nat.div_add_mod (w / 2 ^ p) (2 ^ b)
    refine Nat.div_eq_of_lt_le ?_ ?_
    · rw [Nat.mul_comm]
      omega
    · rw [Nat.succ_mul, Nat.mul_comm]
      omega
  rw [Nat.pow_add 2 (p + b) d, ← Nat.div_div_eq_div_mul, ← Nat.div_div_eq_div_mul, hup]

theorem add_lt_of_field {w p b q : Nat} (h : field w p b + 1 < 2 ^ b) (hq : p + b ≤ q)
    (hw : w < 2 ^ q) :
    w + 2 ^ p < 2 ^ q := by
  have hzero := add_div_of_field h hq
  rw [Nat.div_eq_of_lt hw] at hzero
  exact (Nat.div_eq_zero_iff_lt (Nat.two_pow_pos q)).mp hzero

theorem field_add_other {w p b q c : Nat} (h : field w p b + 1 < 2 ^ b)
    (hq : q + c ≤ p ∨ p + b ≤ q) :
    field (w + 2 ^ p) q c = field w q c := by
  rcases hq with hq | hq
  · obtain ⟨d, rfl⟩ := Nat.exists_eq_add_of_le hq
    unfold field
    rw [Nat.pow_add, Nat.pow_add, Nat.mul_assoc, Nat.add_mul_div_left _ _ (Nat.two_pow_pos q),
      Nat.add_mul_mod_self_left]
  · rw [field, field, add_div_of_field h hq]

theorem field_sub {w p b : Nat} (h : field w p b ≠ 0) :
    w - 2 ^ p + 2 ^ p = w ∧ field (w - 2 ^ p) p b + 1 = field w p b := by
  have hpos := Nat.two_pow_pos p
  have hone : 1 ≤ w / 2 ^ p := by
    refine Nat.one_le_iff_ne_zero.mpr fun hz => h ?_
    rw [field, hz, Nat.zero_mod]
  have hle : 2 ^ p ≤ w := by
    have := (Nat.le_div_iff_mul_le hpos).mp hone
    omega
  refine ⟨Nat.sub_add_cancel hle, ?_⟩
  have hdiv : (w - 2 ^ p) / 2 ^ p + 1 = w / 2 ^ p := by
    rw [← Nat.add_div_right _ hpos, Nat.sub_add_cancel hle]
  unfold field at *
  rw [← hdiv] at h ⊢
  generalize (w - 2 ^ p) / 2 ^ p = x at *
  by_cases hx : (x % 2 ^ b) + 1 < 2 ^ b
  · rw [Nat.add_mod, Nat.mod_eq_of_lt (by omega : 1 < 2 ^ b), Nat.mod_eq_of_lt hx]
  · exfalso
    have hlt := Nat.mod_lt x (Nat.two_pow_pos b)
    have hfull : x % 2 ^ b + 1 = 2 ^ b := by omega
    refine h ?_
    have hdm := Nat.div_add_mod x (2 ^ b)
    have : x + 1 = 2 ^ b * (x / 2 ^ b + 1) := by
      rw [Nat.mul_succ]
      omega
    rw [this, Nat.mul_mod_right]

theorem field_sub_other {w p b q c : Nat} (h : field w p b ≠ 0) (hq : q + c ≤ p ∨ p + b ≤ q) :
    field (w - 2 ^ p) q c = field w q c := by
  obtain ⟨hw, hself⟩ := field_sub h
  have hfull := field_lt w p b
  have := field_add_other (w := w - 2 ^ p) (b := b) (by omega) hq
  rw [hw] at this
  exact this.symm

theorem testBit_and_pred {x k : Nat} (hk : x.testBit k = true) (hlow : ∀ i < k, x.testBit i = false)
    (i : Nat) : (x &&& (x - 1)).testBit i = (x.testBit i && decide (i ≠ k)) := by
  obtain ⟨m, rfl⟩ := two_pow_dvd_of_testBit hlow
  have hodd : m % 2 = 1 := by
    rw [Nat.testBit_two_pow_mul] at hk
    simpa [Nat.testBit_zero] using hk
  obtain ⟨n, rfl⟩ : ∃ n, m = 2 * n + 1 := ⟨m / 2, by omega⟩
  have hpow : 2 ^ k < 2 ^ (k + 1) := Nat.pow_lt_pow_right (by decide) (Nat.lt_succ_self k)
  have hx : 2 ^ k * (2 * n + 1) = 2 ^ (k + 1) * n + 2 ^ k := by ring
  have hpred : 2 ^ (k + 1) * n + 2 ^ k - 1 = 2 ^ (k + 1) * n + (2 ^ k - 1) :=
    Nat.add_sub_assoc (Nat.two_pow_pos k) _
  rw [hx, hpred, Nat.testBit_and, Nat.testBit_two_pow_mul_add _ hpow,
    Nat.testBit_two_pow_mul_add _ (by omega), Nat.testBit_two_pow_sub_one, Nat.testBit_two_pow]
  by_cases hi : i < k + 1
  · rw [if_pos hi, if_pos hi]
    by_cases hik : i = k
    · simp [hik]
    · simp [Ne.symm hik]
  · rw [if_neg hi, if_neg hi]
    simp [show i ≠ k by omega]

theorem getLsbD_and_pred {w : Nat} {x : BitVec w} (hx : x ≠ 0) (i : Nat) :
    (x &&& (x - 1)).getLsbD i = (x.getLsbD i && decide (i ≠ x.ctz.toNat)) := by
  have hpos : 0 < x.toNat := Nat.pos_of_ne_zero fun h => hx (BitVec.eq_of_toNat_eq h)
  have hsub : (x - 1).toNat = x.toNat - 1 := by
    have hw := x.isLt
    have hone : (1 : BitVec w).toNat = 1 :=
      (BitVec.toNat_ofNat 1 w).trans (Nat.mod_eq_of_lt (by omega))
    rw [BitVec.toNat_sub_of_le (BitVec.le_def.mpr (by omega)), hone]
  change (x &&& (x - 1)).toNat.testBit i = _
  rw [BitVec.toNat_and, hsub]
  exact testBit_and_pred (BitVec.getLsbD_true_ctz_of_ne_zero hx)
    (fun j hj => BitVec.getLsbD_false_of_lt_ctz hj) i

theorem getLsbD_one_shiftLeft {w n : Nat} (hn : n < w) (i : Nat) :
    (1#w <<< n).getLsbD i = decide (i = n) := by
  rw [← BitVec.twoPow_eq, BitVec.getLsbD_twoPow, decide_eq_true hn, Bool.true_and, decide_eq_decide]
  exact eq_comm

theorem getLsbD_low_mask {w n : Nat} (hn : n < w) (i : Nat) :
    ((1#w <<< n) - 1).getLsbD i = decide (i < n) := by
  have hpow : 2 ^ n < 2 ^ w := Nat.pow_lt_pow_right (by decide) hn
  have hshift : (1#w <<< n).toNat = 2 ^ n := by
    rw [← BitVec.twoPow_eq, BitVec.toNat_twoPow_of_lt hn]
  have hone : (1 : BitVec w).toNat = 1 :=
    (BitVec.toNat_ofNat 1 w).trans (Nat.mod_eq_of_lt (Nat.lt_of_le_of_lt (Nat.one_le_two_pow) hpow))
  have hsub : ((1#w <<< n) - 1).toNat = 2 ^ n - 1 := by
    rw [BitVec.toNat_sub_of_le (BitVec.le_def.mpr (by rw [hshift, hone]; exact Nat.one_le_two_pow)),
      hshift, hone]
  change ((1#w <<< n) - 1).toNat.testBit i = _
  rw [hsub, Nat.testBit_two_pow_sub_one]

theorem toNat_not_add_one {w k : Nat} {m : BitVec w} (hk : k < w)
    (hm : ∀ j < w, m.getLsbD j = decide (k ≤ j)) : (~~~m + 1).toNat = 2 ^ k := by
  have hlow : ~~~m = (1#w <<< k) - 1 := by
    refine BitVec.eq_of_getLsbD_eq fun j hj => ?_
    rw [BitVec.getLsbD_not, hm j hj, getLsbD_low_mask hk, decide_eq_true hj, Bool.true_and,
      ← decide_not, decide_eq_decide]
    omega
  rw [hlow, BitVec.sub_add_cancel, ← BitVec.twoPow_eq, BitVec.toNat_twoPow_of_lt hk]

/-- The set bits of a word, lowest first: the bit at `trailing_zeros` is taken and cleared while
there is one. -/
def setBits {w : Nat} (x : BitVec w) : List Nat :=
  if x = 0 then [] else x.ctz.toNat :: setBits (x &&& (x - 1))
termination_by x.toNat
decreasing_by
  rename_i hx
  have hle : (x &&& (x - 1)).toNat ≤ x.toNat := by
    rw [BitVec.toNat_and]
    exact Nat.and_le_left
  refine Nat.lt_of_le_of_ne hle fun h => ?_
  have hbit := getLsbD_and_pred hx x.ctz.toNat
  rw [BitVec.eq_of_toNat_eq h, BitVec.getLsbD_true_ctz_of_ne_zero hx] at hbit
  simp at hbit

theorem mem_setBits {w : Nat} (x : BitVec w) (b : Nat) : b ∈ setBits x ↔ x.getLsbD b = true := by
  induction x using setBits.induct with
  | case1 =>
    rw [setBits]
    simp
  | case2 x hx ih =>
    rw [setBits, if_neg hx, List.mem_cons, ih, getLsbD_and_pred hx]
    by_cases hb : b = x.ctz.toNat
    · simp [hb, BitVec.getLsbD_true_ctz_of_ne_zero hx]
    · simp [hb]

theorem pairwise_setBits {w : Nat} (x : BitVec w) : (setBits x).Pairwise (· < ·) := by
  induction x using setBits.induct with
  | case1 =>
    rw [setBits]
    simp
  | case2 x hx ih =>
    rw [setBits, if_neg hx]
    refine List.pairwise_cons.mpr ⟨fun b hb => ?_, ih⟩
    rw [mem_setBits, getLsbD_and_pred hx, Bool.and_eq_true, decide_eq_true_eq] at hb
    refine Nat.lt_of_le_of_ne (Nat.le_of_not_lt fun hlt => ?_) (Ne.symm hb.2)
    rw [BitVec.getLsbD_false_of_lt_ctz hlt] at hb
    exact nomatch hb.1

theorem nodup_setBits {w : Nat} (x : BitVec w) : (setBits x).Nodup :=
  (pairwise_setBits x).imp Nat.ne_of_lt

theorem length_setBits_le {w : Nat} (x : BitVec w) : (setBits x).length ≤ w := by
  have hsub : setBits x ⊆ List.range w := by
    intro b hb
    rw [mem_setBits] at hb
    exact List.mem_range.mpr (BitVec.lt_of_getLsbD hb)
  have := (List.subperm_of_subset (nodup_setBits x) hsub).length_le
  rwa [List.length_range] at this

end VibeOS.Lib
