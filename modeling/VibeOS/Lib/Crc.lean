import Mathlib.Algebra.Order.Ring.Nat
import Mathlib.Logic.Function.Iterate

/-!
Shift registers of reflected cyclic checksums. A shift is linear over exclusive or, and where the
polynomial's top bit is set it loses nothing, so two inputs whose differing bits fit the register
leave it in different states.
-/
namespace VibeOS.Lib
variable {w : Nat} {poly c d x y : BitVec w} {a b : List Bool}

def shiftReg (poly x : BitVec w) : BitVec w :=
  if x.getLsbD 0 then (x >>> 1) ^^^ poly else x >>> 1

def lowBit (w : Nat) (b : Bool) : BitVec w :=
  (BitVec.ofBool b).setWidth w

/-- The register after the bits of an input, in order. -/
def absorb (poly c : BitVec w) (bits : List Bool) : BitVec w :=
  bits.foldl (fun c b => shiftReg poly (c ^^^ lowBit w b)) c

/-- The bits of an input, the first one lowest. -/
def wordOf (w : Nat) : List Bool → BitVec w
  | [] => 0#w
  | b :: bits => lowBit w b ^^^ (wordOf w bits <<< 1)

theorem shiftReg_xor (poly x y : BitVec w) :
    shiftReg poly (x ^^^ y) = shiftReg poly x ^^^ shiftReg poly y := by
  unfold shiftReg
  simp only [BitVec.getLsbD_xor, BitVec.ushiftRight_xor_distrib]
  have hcancel : x >>> 1 ^^^ poly ^^^ (y >>> 1 ^^^ poly) = x >>> 1 ^^^ y >>> 1 := by
    rw [BitVec.xor_comm (y >>> 1), BitVec.xor_assoc, ← BitVec.xor_assoc poly, BitVec.xor_self,
      BitVec.zero_xor]
  cases x.getLsbD 0 <;> cases y.getLsbD 0 <;>
    simp only [Bool.xor_false, Bool.xor_true, Bool.not_false, Bool.not_true, Bool.false_eq_true,
      if_true, if_false, hcancel]
  · exact BitVec.xor_assoc ..
  · rw [BitVec.xor_assoc, BitVec.xor_assoc, BitVec.xor_comm poly]

@[simp] theorem shiftReg_zero (poly : BitVec w) : shiftReg poly 0#w = 0#w := by
  simp [shiftReg]

theorem shiftReg_ne_zero (hpoly : poly.msb = true) (hx : x ≠ 0#w) : shiftReg poly x ≠ 0#w := by
  intro h
  unfold shiftReg at h
  have hw : 0 < w := by
    rcases Nat.eq_zero_or_pos w with rfl | hw
    · exact absurd (Subsingleton.elim x _) hx
    · exact hw
  split at h
  · -- the shift clears the top bit, and the polynomial sets it
    have hmsb : (x >>> 1 ^^^ poly).msb = false := by rw [h]; simp
    rw [BitVec.msb_xor, hpoly, BitVec.msb_ushiftRight] at hmsb
    simp at hmsb
  · rename_i hlow
    apply hx
    apply BitVec.eq_of_getLsbD_eq
    intro i hi
    cases i with
    | zero => simpa using hlow
    | succ i =>
      have := congrArg (fun z => z.getLsbD i) h
      simpa [BitVec.getLsbD_ushiftRight, Nat.add_comm] using this

theorem iterate_shiftReg_ne_zero (hpoly : poly.msb = true) (hx : x ≠ 0#w) (n : Nat) :
    (shiftReg poly)^[n] x ≠ 0#w := by
  induction n generalizing x with
  | zero => exact hx
  | succ n ih => exact ih (shiftReg_ne_zero hpoly hx)

@[simp] theorem absorb_nil (poly c : BitVec w) : absorb poly c [] = c :=
  rfl

@[simp] theorem absorb_cons (poly c : BitVec w) (b : Bool) (bits : List Bool) :
    absorb poly c (b :: bits) = absorb poly (shiftReg poly (c ^^^ lowBit w b)) bits :=
  rfl

theorem absorb_append (poly c : BitVec w) (a b : List Bool) :
    absorb poly c (a ++ b) = absorb poly (absorb poly c a) b :=
  List.foldl_append

theorem lowBit_xor (b b' : Bool) : lowBit w (b ^^ b') = lowBit w b ^^^ lowBit w b' := by
  cases b <;> cases b' <;> simp [lowBit]

@[simp] theorem lowBit_false : lowBit w false = 0#w := by
  simp [lowBit]

theorem absorb_zipWith_xor (h : a.length = b.length) :
    absorb poly (c ^^^ d) (List.zipWith (· ^^ ·) a b) = absorb poly c a ^^^ absorb poly d b := by
  induction a generalizing b c d with
  | nil =>
    cases b with
    | nil => rfl
    | cons y b => cases h
  | cons x a ih =>
    cases b with
    | nil => cases h
    | cons y b =>
      have hmix : c ^^^ d ^^^ lowBit w (x ^^ y) = c ^^^ lowBit w x ^^^ (d ^^^ lowBit w y) := by
        rw [lowBit_xor]
        ac_rfl
      simp only [List.zipWith_cons_cons, absorb_cons]
      rw [hmix, shiftReg_xor]
      exact ih (Nat.succ.inj h)

theorem absorb_replicate_false (poly c : BitVec w) (n : Nat) :
    absorb poly c (List.replicate n false) = (shiftReg poly)^[n] c := by
  induction n generalizing c with
  | zero => rfl
  | succ n ih =>
    rw [List.replicate_succ, absorb_cons, lowBit_false, BitVec.xor_zero, ih]
    rfl

theorem getLsbD_wordOf (bits : List Bool) (i : Nat) :
    (wordOf w bits).getLsbD i = (decide (i < w) && bits.getD i false) := by
  induction bits generalizing i with
  | nil => simp [wordOf]
  | cons b bits ih =>
    rw [wordOf, BitVec.getLsbD_xor, BitVec.getLsbD_shiftLeft]
    cases i with
    | zero => cases b <;> simp [lowBit]
    | succ i =>
      have hlow : (lowBit w b).getLsbD (i + 1) = false := by
        rw [lowBit, BitVec.getLsbD_setWidth, BitVec.getLsbD_of_ge _ _ (by omega), Bool.and_false]
      rw [hlow, ih]
      by_cases hi : i + 1 < w
      · simp [hi, show i < w by omega]
      · simp [hi]

theorem shiftReg_shiftLeft (h : x.msb = false) : shiftReg poly (x <<< 1) = x := by
  have hlow : (x <<< 1).getLsbD 0 = false := by simp
  rw [shiftReg, hlow, if_neg Bool.false_ne_true]
  apply BitVec.eq_of_getLsbD_eq
  intro i hi
  rw [BitVec.getLsbD_ushiftRight, BitVec.getLsbD_shiftLeft]
  by_cases hi' : 1 + i < w
  · simp [hi', show ¬ 1 + i < 1 by omega]
  · have htop : i = w - 1 := by omega
    have : x.getLsbD i = false := by
      rw [htop]
      simpa [BitVec.msb_eq_getLsbD_last] using h
    simp [hi', this]

theorem absorb_eq_iterate (poly c : BitVec w) {bits : List Bool} (h : bits.length ≤ w) :
    absorb poly c bits = (shiftReg poly)^[bits.length] (c ^^^ wordOf w bits) := by
  induction bits generalizing c with
  | nil => simp [wordOf]
  | cons b bits ih =>
    have hlen : bits.length < w := h
    have htop : (wordOf w bits).msb = false := by
      rw [BitVec.msb_eq_getLsbD_last, getLsbD_wordOf]
      simp [List.getD_eq_getElem?_getD, List.getElem?_eq_none (show bits.length ≤ w - 1 by omega)]
    have hstep : shiftReg poly (c ^^^ wordOf w (b :: bits)) =
        shiftReg poly (c ^^^ lowBit w b) ^^^ wordOf w bits := by
      rw [wordOf, ← BitVec.xor_assoc, shiftReg_xor, shiftReg_shiftLeft htop]
    rw [absorb_cons, ih _ (Nat.le_of_lt hlen), List.length_cons, Function.iterate_succ_apply, hstep]

theorem wordOf_ne_zero {bits : List Bool} (hlen : bits.length ≤ w) (h : true ∈ bits) :
    wordOf w bits ≠ 0#w := by
  intro hz
  obtain ⟨i, hi, htrue⟩ := List.mem_iff_getElem.mp h
  have := congrArg (fun z => z.getLsbD i) hz
  simp only [getLsbD_wordOf, List.getD_eq_getElem?_getD, List.getElem?_eq_getElem hi] at this
  simp [htrue, show i < w by omega] at this

theorem eq_window {e : List Bool} {p n : Nat} (h : ∀ i : Nat, e[i]? = some true → p ≤ i ∧
    i < p + n) :
    ∃ k, e = List.replicate (min p e.length) false ++ (e.drop p).take n ++
      List.replicate k false := by
  refine ⟨e.length - (p + n), ?_⟩
  have hoff : ∀ {i : Nat} (hi : i < e.length), ¬ (p ≤ i ∧ i < p + n) → e[i] = false := by
    intro i hi hout
    cases hb : e[i] with
    | false => rfl
    | true => exact absurd (h i (List.getElem?_eq_some_iff.mpr ⟨hi, hb⟩)) hout
  have hfront : e.take p = List.replicate (min p e.length) false := by
    refine List.eq_replicate_iff.mpr ⟨List.length_take, fun b hb => ?_⟩
    obtain ⟨i, hi, rfl⟩ := List.mem_iff_getElem.mp hb
    rw [List.length_take] at hi
    rw [List.getElem_take]
    exact hoff (by omega) (by omega)
  have hback : (e.drop p).drop n = List.replicate (e.length - (p + n)) false := by
    refine List.eq_replicate_iff.mpr ⟨by simp, fun b hb => ?_⟩
    obtain ⟨i, hi, rfl⟩ := List.mem_iff_getElem.mp hb
    rw [List.length_drop, List.length_drop] at hi
    rw [List.getElem_drop, List.getElem_drop]
    exact hoff (by omega) (by omega)
  conv => lhs; rw [← List.take_append_drop p e, ← List.take_append_drop n (e.drop p), hfront, hback]
  rw [List.append_assoc]

/-- Inputs of one length that differ, and only inside a window of as many bits as the register
has, leave it in different states. -/
theorem absorb_ne_of_burst (hpoly : poly.msb = true) (hlen : a.length = b.length) (hne : a ≠ b)
    {p : Nat} (h : ∀ i : Nat, a[i]? ≠ b[i]? → p ≤ i ∧ i < p + w) (c : BitVec w) :
    absorb poly c a ≠ absorb poly c b := by
  have hbit : ∀ i : Nat, (List.zipWith (· ^^ ·) a b)[i]? = some true ↔ a[i]? ≠ b[i]? := by
    intro i
    rw [List.getElem?_zipWith]
    by_cases hi : i < a.length
    · rw [List.getElem?_eq_getElem hi, List.getElem?_eq_getElem (hlen ▸ hi)]
      cases a[i] <;> cases b[i] <;> simp
    · rw [List.getElem?_eq_none (Nat.le_of_not_lt hi),
        List.getElem?_eq_none (hlen ▸ Nat.le_of_not_lt hi)]
      simp
  obtain ⟨k, hk⟩ := eq_window (e := List.zipWith (· ^^ ·) a b) fun i hi => h i ((hbit i).mp hi)
  have hset : true ∈ (List.drop p (List.zipWith (· ^^ ·) a b)).take w := by
    obtain ⟨i, hi⟩ : ∃ i : Nat, a[i]? ≠ b[i]? := by
      by_contra hall
      exact hne (List.ext_getElem? fun i => by_contra fun hi => hall ⟨i, hi⟩)
    have hmem := List.mem_of_getElem? ((hbit i).mpr hi)
    rw [hk] at hmem
    simpa using hmem
  intro heq
  have hzero : absorb poly 0#w (List.zipWith (· ^^ ·) a b) = 0#w := by
    have hdiff : absorb poly (c ^^^ c) (List.zipWith (· ^^ ·) a b) =
        absorb poly c a ^^^ absorb poly c b := absorb_zipWith_xor hlen
    rwa [BitVec.xor_self, heq, BitVec.xor_self] at hdiff
  rw [hk, absorb_append, absorb_append, absorb_replicate_false, absorb_replicate_false,
    Function.iterate_fixed (shiftReg_zero poly), absorb_eq_iterate _ _ (List.length_take_le ..),
    BitVec.zero_xor] at hzero
  exact iterate_shiftReg_ne_zero hpoly (iterate_shiftReg_ne_zero hpoly
    (wordOf_ne_zero (List.length_take_le ..) hset) _) _ hzero

end VibeOS.Lib
