import Mathlib.Algebra.Order.Ring.Nat
import Mathlib.Tactic.Common

/-!
The tracer's histogram of lengths: eight buckets for each power of two, so that a percentile read
off it is never below the exact one and above it by less than an eighth of its power of two. All
samples are counted before the reads. Totals and ranks stay far below `2 ^ 64` and are natural
numbers.
-/
namespace VibeOS.Sched

abbrev lowShift : Nat := 6

abbrev octaves : Nat := 32

abbrev subs : Nat := 8

abbrev numBuckets : Nat := octaves * subs

structure Histogram where
  buckets : Nat → UInt32
  underCount : UInt32
  overCount : UInt32
  maxNs : Nat

namespace Histogram

def new : Histogram := ⟨fun _ => 0, 0, 0, 0⟩

/-- The bucket of a length: `none` below the first, `numBuckets` past the last. -/
def index (ns : Nat) : Option Nat :=
  if ns < 2 ^ lowShift then none
  else
    let k := ns.log2
    let octave := k - lowShift
    if octaves ≤ octave then some numBuckets
    else some (octave * subs + ns / 2 ^ (k - 3) % 8)

def upper (i : Nat) : Nat :=
  let k := i / subs + lowShift
  2 ^ k + (i % subs + 1) * 2 ^ (k - 3) - 1

def record (h : Histogram) (ns : Nat) : Histogram :=
  let h := match index ns with
    | none => { h with underCount := h.underCount + 1 }
    | some i =>
      if i = numBuckets then { h with overCount := h.overCount + 1 }
      else { h with buckets := Function.update h.buckets i (h.buckets i + 1) }
  { h with maxNs := max h.maxNs ns }

def count (h : Histogram) : Nat :=
  (List.range numBuckets).foldl (fun n i => n + (h.buckets i).toNat)
    (h.underCount.toNat + h.overCount.toNat)

/-- The first bucket with which `rank` samples are seen. -/
def scan (h : Histogram) (rank : Nat) : Nat → List Nat → Option Nat
  | _, [] => none
  | seen, i :: is =>
    let seen := seen + (h.buckets i).toNat
    if rank ≤ seen then some i else scan h rank seen is

def rankOf (n permille : Nat) : Nat :=
  max ((n * min permille 1000 + 999) / 1000) 1

def percentile (h : Histogram) (permille : Nat) : Nat :=
  if h.count = 0 then 0
  else
    let rank := rankOf h.count permille
    if rank ≤ h.underCount.toNat then min h.maxNs (2 ^ lowShift - 1)
    else
      match scan h rank h.underCount.toNat (List.range numBuckets) with
      | some i => min h.maxNs (upper i)
      | none => h.maxNs

/-- The buckets in order, the two outer ones among them. -/
def place (ns : Nat) : Nat :=
  (index ns).elim 0 (· + 1)

def tally (h : Histogram) (p : Nat) : UInt32 :=
  if p = 0 then h.underCount else if p = 257 then h.overCount else h.buckets (p - 1)

theorem index_eq (ns : Nat) : index ns = if ns < 64 then none
    else if 32 ≤ ns.log2 - 6 then some 256
    else some ((ns.log2 - 6) * 8 + ns / 2 ^ (ns.log2 - 3) % 8) := rfl

theorem place_low {ns : Nat} (h : ns < 64) : place ns = 0 := by
  simp [place, index_eq, h]

theorem place_high {ns : Nat} (h : 2 ^ 38 ≤ ns) : place ns = 257 := by
  have hlog : 38 ≤ ns.log2 := (Nat.le_log2 (by omega)).mpr h
  rw [place, index_eq, if_neg (by omega), if_pos (by omega)]
  rfl

/-- Between the outer buckets: `2 ^ d` is the width of the length's bucket. -/
theorem place_mid {ns : Nat} (hlow : 64 ≤ ns) (hhigh : ns < 2 ^ 38) :
    ∃ d, 3 ≤ d ∧ d ≤ 34 ∧ ns.log2 = d + 3 ∧ 8 ≤ ns / 2 ^ d ∧ ns / 2 ^ d < 16 ∧
      place ns + 31 = 8 * d + ns / 2 ^ d := by
  have hlo : 6 ≤ ns.log2 := (Nat.le_log2 (by omega)).mpr hlow
  have hhi : ns.log2 < 38 := (Nat.log2_lt (by omega)).mpr hhigh
  obtain ⟨d, hd⟩ : ∃ d, ns.log2 = d + 3 := ⟨ns.log2 - 3, by omega⟩
  have hbase := Nat.log2_self_le (n := ns) (by omega)
  have htop := Nat.lt_log2_self (n := ns)
  rw [hd, show d + 3 + 1 = 4 + d by omega, Nat.pow_add] at htop
  rw [hd, Nat.add_comm d, Nat.pow_add] at hbase
  have hge : 8 ≤ ns / 2 ^ d := (Nat.le_div_iff_mul_le (Nat.two_pow_pos d)).mpr hbase
  have hlt : ns / 2 ^ d < 16 := (Nat.div_lt_iff_lt_mul (Nat.two_pow_pos d)).mpr htop
  refine ⟨d, by omega, by omega, hd, hge, hlt, ?_⟩
  rw [place, index_eq, if_neg (by omega), if_neg (by omega), hd, Nat.add_sub_cancel, Option.elim]
  omega

theorem place_le (ns : Nat) : place ns ≤ 257 := by
  by_cases hlow : ns < 64
  · rw [place_low hlow]
    omega
  · by_cases hhigh : ns < 2 ^ 38
    · obtain ⟨d, -, hd, -, -, hlt, hp⟩ := place_mid (Nat.le_of_not_lt hlow) hhigh
      omega
    · rw [place_high (Nat.le_of_not_lt hhigh)]

theorem place_mono {a b : Nat} (hab : a ≤ b) : place a ≤ place b := by
  by_cases hlow : a < 64
  · rw [place_low hlow]
    exact Nat.zero_le _
  · by_cases hhigh : b < 2 ^ 38
    · obtain ⟨d, hd, -, hloga, -, hda, hpa⟩ := place_mid (Nat.le_of_not_lt hlow) (by omega)
      obtain ⟨c, hc, -, hlogb, hcb, -, hpb⟩ := place_mid (Nat.le_trans (by omega) hab) hhigh
      have hdc : d ≤ c := by
        have := (Nat.le_log2 (by omega)).mpr ((Nat.log2_self_le (by omega : a ≠ 0)).trans hab)
        omega
      rcases Nat.lt_or_eq_of_le hdc with hlt | rfl
      · omega
      · have := Nat.div_le_div_right (c := 2 ^ d) hab
        omega
    · rw [place_high (Nat.le_of_not_lt hhigh)]
      exact place_le a

/-- The edge of a length's bucket is past it by less than the bucket's width. -/
theorem upper_place {ns : Nat} (hlow : 64 ≤ ns) (hhigh : ns < 2 ^ 38) :
    ns ≤ upper (place ns - 1) ∧ 8 * (upper (place ns - 1) - ns) < 2 ^ ns.log2 := by
  obtain ⟨d, hd, -, hlog, hge, hlt, hp⟩ := place_mid hlow hhigh
  have hupper : upper (place ns - 1) = 2 ^ d * (ns / 2 ^ d) + 2 ^ d - 1 := by
    simp only [upper, subs, lowShift]
    rw [show (place ns - 1) / 8 + 6 = 3 + d by omega, show 3 + d - 3 = d by omega,
      show (place ns - 1) % 8 + 1 = ns / 2 ^ d - 7 by omega, Nat.pow_add, Nat.sub_mul,
      Nat.mul_comm (2 ^ d)]
    have := Nat.mul_le_mul_right (2 ^ d) hge
    omega
  have hmod := Nat.div_add_mod ns (2 ^ d)
  have hrest := Nat.mod_lt ns (Nat.two_pow_pos d)
  rw [hupper, hlog, Nat.pow_add]
  omega

theorem record_eq (h : Histogram) (ns : Nat) : (h.record ns).maxNs = max h.maxNs ns ∧
    ∀ p ≤ 257, (h.record ns).tally p = h.tally p + if place ns = p then 1 else 0 := by
  unfold record place
  cases hi : index ns with
  | none =>
    refine ⟨rfl, fun p _ => ?_⟩
    by_cases hp : p = 0 <;> simp [tally, hp, eq_comm]
  | some i =>
    dsimp only
    by_cases hlast : i = 256
    · rw [if_pos (show i = numBuckets from hlast)]
      refine ⟨rfl, fun p _ => ?_⟩
      by_cases hp : p = 257
      · simp [tally, hp, hlast]
      · simp [tally, hp, hlast, Ne.symm hp]
    · rw [if_neg (show ¬ i = numBuckets from hlast)]
      refine ⟨rfl, fun p _ => ?_⟩
      by_cases hp : i + 1 = p
      · subst hp
        simp [tally, hlast]
      · rcases (by omega : p = 0 ∨ p - 1 ≠ i) with rfl | hne
        · simp [tally]
        · simp [tally, hp, hne]

theorem foldl_record (xs : List Nat) (h : Histogram) :
    (∀ p ≤ 257, (xs.foldl record h).tally p = h.tally p + UInt32.ofNat (xs.countP (place · = p))) ∧
      h.maxNs ≤ (xs.foldl record h).maxNs ∧ ∀ x ∈ xs, x ≤ (xs.foldl record h).maxNs := by
  induction xs generalizing h with
  | nil => simp
  | cons x xs ih =>
    obtain ⟨htally, hmax, hall⟩ := ih (h.record x)
    rw [(record_eq h x).1] at hmax
    refine ⟨fun p hp => ?_, (le_max_left ..).trans hmax, List.forall_mem_cons.mpr
      ⟨(le_max_right ..).trans hmax, hall⟩⟩
    rw [List.foldl_cons, htally p hp, (record_eq h x).2 p hp, List.countP_cons]
    by_cases hx : place x = p
    · simp [hx, UInt32.add_assoc, UInt32.add_comm 1]
    · simp [hx]

theorem scan_eq {h : Histogram} {C : Nat → Nat} {rank p m a : Nat} (hmono : Monotone C)
    (hC : ∀ i < a + m, C (i + 1) = C i + (h.buckets i).toNat) (ha : a ≤ p) (hlt : C p < rank)
    (hle : p < a + m → rank ≤ C (p + 1)) :
    scan h rank (C a) (List.range' a m) = if p < a + m then some p else none := by
  induction m generalizing a with
  | zero => rw [if_neg (by omega), List.range'_zero, scan]
  | succ m ih =>
    rw [List.range'_succ, scan, ← hC a (by omega)]
    rw [← Nat.add_assoc, Nat.add_right_comm] at hC hle ⊢
    rcases Nat.lt_or_eq_of_le ha with hap | rfl
    · rw [if_neg (by have := hmono (show a + 1 ≤ p from hap); omega)]
      exact ih hC hap hle
    · rw [if_pos (hle (by omega)), if_pos (by omega)]

/-- Samples up to a place, with those at the next one. -/
theorem countP_place_succ (xs : List Nat) (i : Nat) : xs.countP (place · ≤ i + 1) =
    xs.countP (place · ≤ i) + xs.countP (place · = i + 1) := by
  induction xs with
  | nil => rfl
  | cons x xs ih =>
    simp only [List.countP_cons, ih, decide_eq_true_eq]
    split_ifs <;> omega

/-- What the histogram of a list of samples counts. -/
theorem recorded {xs : List Nat} (hfew : xs.length < 2 ^ 32) :
    (xs.foldl record new).underCount.toNat = xs.countP (place · ≤ 0) ∧
    (∀ i < 256, xs.countP (place · ≤ i + 1) =
      xs.countP (place · ≤ i) + ((xs.foldl record new).buckets i).toNat) ∧
    (xs.foldl record new).count = xs.length := by
  generalize hh : xs.foldl record new = h
  have htally : ∀ p ≤ 257, (h.tally p).toNat = xs.countP (place · = p) := by
    intro p hp
    have hle := List.countP_le_length (p := (place · = p)) (l := xs)
    rw [← hh, (foldl_record xs new).1 p hp, show tally new p = 0 by simp [tally, new],
      UInt32.zero_add, UInt32.toNat_ofNat_of_lt' (hle.trans_lt hfew)]
  have hunder : h.underCount.toNat = xs.countP (place · ≤ 0) := by
    simpa [tally] using htally 0 (by omega)
  have hbucket : ∀ i < 256, xs.countP (place · ≤ i + 1) =
      xs.countP (place · ≤ i) + (h.buckets i).toNat := by
    intro i hi
    have := htally (i + 1) (by omega)
    rw [tally, if_neg (by omega), if_neg (by omega), Nat.add_sub_cancel] at this
    rw [countP_place_succ, this]
  have hsum : ∀ m ≤ 256, (List.range m).foldl (fun n i => n + (h.buckets i).toNat)
      (h.underCount.toNat + h.overCount.toNat) = xs.countP (place · ≤ m) + h.overCount.toNat := by
    intro m hm
    induction m with
    | zero => simp [hunder]
    | succ m ih =>
      rw [List.range_succ, List.foldl_append, ih (by omega), hbucket m hm]
      simp only [List.foldl_cons, List.foldl_nil]
      omega
  refine ⟨hunder, hbucket, ?_⟩
  have hover : h.overCount.toNat = xs.countP (place · = numBuckets + 1) := htally 257 le_rfl
  rw [count, hsum numBuckets le_rfl, hover, ← countP_place_succ, List.countP_eq_length]
  exact fun x _ => decide_eq_true (place_le x)

section Percentile
variable {xs : List Nat} {permille v : Nat} (hfew : xs.length < 2 ^ 32)
  (hlt : xs.countP (· < v) < rankOf xs.length permille)
  (hle : rankOf xs.length permille ≤ xs.countP (· ≤ v))

include hlt hle in
/-- The rank of `v` is reached in the bucket of `v`, and in none before it. -/
theorem rank_place : rankOf xs.length permille ≤ xs.countP (place · ≤ place v) ∧
    ∀ j < place v, xs.countP (place · ≤ j) < rankOf xs.length permille := by
  refine ⟨hle.trans (List.countP_mono_left fun x _ hx => ?_), fun j hj =>
    (List.countP_mono_left fun x _ hx => ?_).trans_lt hlt⟩
  · simpa using place_mono (by simpa using hx)
  · by_contra hvx
    have := place_mono (Nat.le_of_not_lt (by simpa using hvx))
    simp only [decide_eq_true_eq] at hx
    omega

include hfew hlt hle in
theorem percentile_eq : (xs.foldl record new).percentile permille =
    if place v = 0 then min (xs.foldl record new).maxNs 63
    else if place v - 1 < 256 then min (xs.foldl record new).maxNs (upper (place v - 1))
    else (xs.foldl record new).maxNs := by
  obtain ⟨hunder, hbucket, hcount⟩ := recorded hfew
  obtain ⟨hreach, hbefore⟩ := rank_place hlt hle
  have hsome := List.countP_le_length (p := (· ≤ v)) (l := xs)
  generalize xs.foldl record new = h at *
  rw [percentile, hcount, if_neg (by omega), hunder]
  by_cases hfirst : place v = 0
  · rw [hfirst] at hreach
    rw [if_pos hreach, if_pos hfirst]
    rfl
  · have hmono : Monotone fun i => xs.countP (place · ≤ i) := fun i j hij =>
      List.countP_mono_left fun x _ hx => by simp only [decide_eq_true_eq] at hx ⊢; omega
    have hscan : scan h (rankOf xs.length permille) (xs.countP (place · ≤ 0)) (List.range' 0 256) =
        if place v - 1 < 0 + 256 then some (place v - 1) else none :=
      scan_eq (C := fun i => xs.countP (place · ≤ i)) hmono (fun i hi => hbucket i (by omega))
        (Nat.zero_le _) (hbefore _ (by omega))
        fun _ => by rwa [Nat.sub_add_cancel (Nat.pos_of_ne_zero hfirst)]
    rw [if_neg (Nat.not_le.mpr (hbefore 0 (Nat.pos_of_ne_zero hfirst))), if_neg hfirst,
      List.range_eq_range', show numBuckets = 256 from rfl, hscan, Nat.zero_add]
    by_cases hin : place v - 1 < 256
    · rw [if_pos hin, if_pos hin]
    · rw [if_neg hin, if_neg hin]

end Percentile

/-- A percentile is never below the sample of its rank, nor above the largest one, and past the
sample by less than an eighth of its power of two. -/
theorem percentile_close (xs : List Nat) (permille v : Nat) (hfew : xs.length < 2 ^ 32)
    (hlt : xs.countP (· < v) < rankOf xs.length permille)
    (hle : rankOf xs.length permille ≤ xs.countP (· ≤ v)) :
    let q := (xs.foldl record new).percentile permille
    v ≤ q ∧ q ≤ (xs.foldl record new).maxNs ∧ (v < 64 → q < 64) ∧
      (64 ≤ v → v < 2 ^ 38 → 8 * (q - v) < 2 ^ v.log2) := by
  have hmax := (foldl_record xs new).2.2
  have hq := percentile_eq hfew hlt hle
  generalize xs.foldl record new = h at *
  intro q
  change q = _ at hq
  have hvmax : v ≤ h.maxNs := by
    by_contra hbig
    have hall : xs.countP (· < v) = xs.length :=
      List.countP_eq_length.mpr fun x hx => decide_eq_true (by have := hmax x hx; omega)
    have := List.countP_le_length (p := (· ≤ v)) (l := xs)
    omega
  by_cases hlow : v < 64
  · rw [if_pos (place_low hlow)] at hq
    omega
  · by_cases hhigh : v < 2 ^ 38
    · obtain ⟨hup, hnear⟩ := upper_place (Nat.le_of_not_lt hlow) hhigh
      obtain ⟨d, hd, hd', -, hge, hdiv, hp⟩ := place_mid (Nat.le_of_not_lt hlow) hhigh
      rw [if_neg (by omega), if_pos (by omega)] at hq
      omega
    · rw [place_high (Nat.le_of_not_lt hhigh), if_neg (by omega), if_neg (by omega)] at hq
      omega

/-- The 99th percentile of three lengths. -/
theorem percentile_close_p99 :
    let q := ([100, 200, 5000].foldl record new).percentile 990
    5000 ≤ q ∧ 8 * (q - 5000) < 2 ^ Nat.log2 5000 := by
  have h := percentile_close [100, 200, 5000] 990 5000 (by decide) (by decide) (by decide)
  exact ⟨h.1, h.2.2.2 (by decide) (by decide)⟩

end Histogram
end VibeOS.Sched
