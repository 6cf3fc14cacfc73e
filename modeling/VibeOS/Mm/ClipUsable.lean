import VibeOS.Lib.Bits
import VibeOS.Lib.Cover
import VibeOS.Mm.Buddy

/-!
Clipping a range of usable memory by a list of exclusions, each rounded outward to pages. The list
is scanned again from every point the walk reaches: either an exclusion covers the point, and the
walk goes on behind the furthest of them, or the part up to the next exclusion ahead is emitted.
-/
namespace VibeOS.Mm
open Lib

structure AddrRange where
  start : Nat
  stop : Nat
  start_lt : start < 2 ^ 64
  stop_lt : stop < 2 ^ 64

namespace AddrRange

def lo (e : AddrRange) : Nat :=
  alignDown e.start pageSize

@[irreducible] def hi (e : AddrRange) : Nat :=
  if e.stop + (pageSize - 1) < 2 ^ 64 then alignDown (e.stop + (pageSize - 1)) pageSize
  else 2 ^ 64 - 1

end AddrRange

/-- The end of the furthest exclusion covering `cur`, and the start of the nearest one ahead. -/
structure ClipScan where
  skipTo : Option Nat
  next : Nat

def ClipScan.see (cur : Nat) (s : ClipScan) (e : AddrRange) : ClipScan :=
  if e.start ≥ e.stop then s
  else if e.lo ≤ cur ∧ cur < e.hi then
    { s with skipTo := some (s.skipTo.elim e.hi fun h => max h e.hi) }
  else if e.lo > cur ∧ e.lo < s.next then { s with next := e.lo }
  else s

def clipScan (excl : List AddrRange) (stop cur : Nat) : ClipScan :=
  excl.foldl (ClipScan.see cur) ⟨none, stop⟩

/-- What a scan of `excl` from `cur` has found. -/
structure ClipScan.Found (excl : List AddrRange) (stop cur : Nat) (s : ClipScan) : Prop where
  skip : ∀ k, s.skipTo = some k → ∃ e ∈ excl, e.start < e.stop ∧ e.lo ≤ cur ∧ cur < e.hi ∧ k = e.hi
  clear : s.skipTo = none → ∀ e ∈ excl, e.start < e.stop → e.lo ≤ cur → e.hi ≤ cur
  ahead : cur < s.next
  le_stop : s.next ≤ stop
  le_lo : ∀ e ∈ excl, e.start < e.stop → cur < e.lo → s.next ≤ e.lo
  next_of : s.next = stop ∨ ∃ e ∈ excl, e.start < e.stop ∧ s.next = e.lo

namespace ClipScan.Found
variable {excl : List AddrRange} {stop cur : Nat} {s : ClipScan} {e : AddrRange}

theorem pass (h : Found excl stop cur s) (hskip : e.start < e.stop → e.lo ≤ cur → e.hi ≤ cur)
    (hnext : e.start < e.stop → cur < e.lo → s.next ≤ e.lo) : Found (excl ++ [e]) stop cur s where
  skip k hk := by
    obtain ⟨f, hf, hrest⟩ := h.skip k hk
    exact ⟨f, List.mem_append_left _ hf, hrest⟩
  clear hn := List.forall_mem_append.mpr ⟨h.clear hn, List.forall_mem_singleton.mpr hskip⟩
  ahead := h.ahead
  le_stop := h.le_stop
  le_lo := List.forall_mem_append.mpr ⟨h.le_lo, List.forall_mem_singleton.mpr hnext⟩
  next_of := h.next_of.imp_right fun ⟨f, hf, hrest⟩ => ⟨f, List.mem_append_left _ hf, hrest⟩

theorem cover (h : Found excl stop cur s) (he : e.start < e.stop) (hlo : e.lo ≤ cur)
    (hhi : cur < e.hi) :
    Found (excl ++ [e]) stop cur
      { s with skipTo := some (s.skipTo.elim e.hi fun h => max h e.hi) } where
  skip k hk := by
    have hnew : ∃ f ∈ excl ++ [e], f.start < f.stop ∧ f.lo ≤ cur ∧ cur < f.hi ∧ e.hi = f.hi :=
      ⟨e, List.mem_append_right _ (List.mem_singleton_self e), he, hlo, hhi, rfl⟩
    rw [← Option.some.inj hk]
    cases hs : s.skipTo with
    | none => exact hnew
    | some j =>
      obtain ⟨f, hf, hrest⟩ := h.skip j hs
      rcases max_choice j e.hi with hm | hm
      · rw [Option.elim_some, hm]
        exact ⟨f, List.mem_append_left _ hf, hrest⟩
      · rw [Option.elim_some, hm]
        exact hnew
  clear := nofun
  ahead := h.ahead
  le_stop := h.le_stop
  le_lo := List.forall_mem_append.mpr
    ⟨h.le_lo, List.forall_mem_singleton.mpr fun _ hlt => absurd hlt (Nat.not_lt.mpr hlo)⟩
  next_of := h.next_of.imp_right fun ⟨f, hf, hrest⟩ => ⟨f, List.mem_append_left _ hf, hrest⟩

theorem nearer (h : Found excl stop cur s) (he : e.start < e.stop) (hlo : cur < e.lo)
    (hlt : e.lo < s.next) : Found (excl ++ [e]) stop cur { s with next := e.lo } where
  skip k hk := by
    obtain ⟨f, hf, hrest⟩ := h.skip k hk
    exact ⟨f, List.mem_append_left _ hf, hrest⟩
  clear hn := List.forall_mem_append.mpr
    ⟨h.clear hn, List.forall_mem_singleton.mpr fun _ hle => absurd hlo (Nat.not_lt.mpr hle)⟩
  ahead := hlo
  le_stop := Nat.le_trans (Nat.le_of_lt hlt) h.le_stop
  le_lo := List.forall_mem_append.mpr
    ⟨fun f hf hne hcur => Nat.le_trans (Nat.le_of_lt hlt) (h.le_lo f hf hne hcur),
      List.forall_mem_singleton.mpr fun _ _ => Nat.le_refl _⟩
  next_of := .inr ⟨e, List.mem_append_right _ (List.mem_singleton_self e), he, rfl⟩

theorem see (h : Found excl stop cur s) (e : AddrRange) :
    Found (excl ++ [e]) stop cur (s.see cur e) := by
  unfold ClipScan.see
  split
  · rename_i hempty
    exact h.pass (fun he => absurd he (Nat.not_lt.mpr hempty))
      (fun he => absurd he (Nat.not_lt.mpr hempty))
  · rename_i hne
    split
    · rename_i hcov
      exact h.cover (Nat.lt_of_not_le hne) hcov.1 hcov.2
    · rename_i hcov
      split
      · rename_i hlo
        exact h.nearer (Nat.lt_of_not_le hne) hlo.1 hlo.2
      · rename_i hlo
        refine h.pass (fun _ hle => ?_) (fun _ hlt => ?_)
        · exact Nat.le_of_not_lt fun hhi => hcov ⟨hle, hhi⟩
        · exact Nat.le_of_not_lt fun hn => hlo ⟨hlt, hn⟩

end ClipScan.Found

theorem clipScan_found (excl : List AddrRange) {stop cur : Nat} (h : cur < stop) :
    (clipScan excl stop cur).Found excl stop cur := by
  induction excl using List.reverseRecOn with
  | nil =>
    exact ⟨nofun, fun _ _ he => absurd he List.not_mem_nil, h, Nat.le_refl _,
      fun _ he => absurd he List.not_mem_nil, .inl rfl⟩
  | append_singleton excl e ih =>
    rw [clipScan, List.foldl_append]
    exact ih.see e

/-- The parts emitted from `cur` on, each a pair of its start and its end. -/
def clipFrom (excl : List AddrRange) (stop cur : Nat) : List (Nat × Nat) :=
  if _ : cur < stop then
    match _ : (clipScan excl stop cur).skipTo with
    | some h => clipFrom excl stop h
    | none =>
      (cur, (clipScan excl stop cur).next) :: clipFrom excl stop (clipScan excl stop cur).next
  else []
termination_by stop - cur
decreasing_by
  · have hlt : cur < stop := ‹_›
    obtain ⟨e, -, -, -, hhi, rfl⟩ := (clipScan_found excl hlt).skip _ ‹_›
    omega
  · have hlt : cur < stop := ‹_›
    have := (clipScan_found excl hlt).ahead
    omega

def clipUsable (r : AddrRange) (excl : List AddrRange) : List (Nat × Nat) :=
  clipFrom excl r.stop r.start

/-- `x` lies in the exclusion, widened outward to page boundaries. -/
def AddrRange.Widened (e : AddrRange) (x : Nat) : Prop :=
  e.start / pageSize * pageSize ≤ x ∧ x < (e.stop + (pageSize - 1)) / pageSize * pageSize

/-- `x` lies in a non-empty exclusion, widened. -/
def Excluded (excl : List AddrRange) (x : Nat) : Prop :=
  ∃ e ∈ excl, e.start < e.stop ∧ e.Widened x

theorem alignDown_page {x : Nat} (hx : x < 2 ^ 64) :
    alignDown x pageSize = x / pageSize * pageSize :=
  and_high_mask (k := 12) (by decide) hx

theorem AddrRange.lo_eq (e : AddrRange) : e.lo = e.start / pageSize * pageSize :=
  alignDown_page e.start_lt

theorem AddrRange.lt_hi_iff (e : AddrRange) {x : Nat} (hx : x < 2 ^ 64 - 1) :
    x < e.hi ↔ x < (e.stop + (pageSize - 1)) / pageSize * pageSize := by
  unfold hi
  split
  · rename_i hlt
    rw [alignDown_page hlt]
  · rename_i hge
    have hstop := e.stop_lt
    simp only [pageSize] at hge ⊢
    omega

theorem AddrRange.widened_iff (e : AddrRange) {x : Nat} (hx : x < 2 ^ 64 - 1) :
    e.Widened x ↔ e.lo ≤ x ∧ x < e.hi := by
  rw [Widened, e.lo_eq, e.lt_hi_iff hx]

theorem AddrRange.lo_lt_hi (e : AddrRange) (h : e.start < e.stop) : e.lo < e.hi := by
  have hstart : e.start < 2 ^ 64 - 1 := by
    have := e.stop_lt
    omega
  have hlo : e.lo ≤ e.start := by
    rw [e.lo_eq]
    exact Nat.div_mul_le_self ..
  refine Nat.lt_of_le_of_lt hlo ((e.lt_hi_iff hstart).mpr ?_)
  simp only [pageSize]
  omega

section
variable {excl : List AddrRange} {stop cur : Nat}

/-- What the parts emitted from `cur` on are. -/
structure Clipped (excl : List AddrRange) (stop cur : Nat) (l : List (Nat × Nat)) : Prop where
  proper : ∀ p ∈ l, p.1 < p.2
  apart : l.Pairwise fun p q => p.2 < q.1
  exact : ∀ x, 0 < cover l x ↔ cur ≤ x ∧ x < stop ∧ ¬ Excluded excl x

theorem Clipped.done (h : stop ≤ cur) : Clipped excl stop cur [] where
  proper := nofun
  apart := .nil
  exact x := by
    rw [cover_nil]
    exact ⟨fun hx => absurd hx (Nat.lt_irrefl 0), fun hx => by omega⟩

theorem Clipped.skip {l : List (Nat × Nat)} (hstop : stop < 2 ^ 64) {e : AddrRange} (he : e ∈ excl)
    (hne : e.start < e.stop) (hlo : e.lo ≤ cur) (hhi : cur < e.hi)
    (h : Clipped excl stop e.hi l) : Clipped excl stop cur l where
  proper := h.proper
  apart := h.apart
  exact x := by
    rw [h.exact]
    constructor
    · exact fun ⟨h₁, h₂⟩ => ⟨Nat.le_trans (Nat.le_of_lt hhi) h₁, h₂⟩
    · intro ⟨h₁, h₂, h₃⟩
      refine ⟨Nat.le_of_not_lt fun hlt => h₃ ⟨e, he, hne, ?_⟩, h₂, h₃⟩
      exact (e.widened_iff (by omega)).mpr ⟨Nat.le_trans hlo h₁, hlt⟩

theorem not_excluded_before_next {s : ClipScan} (hs : s.Found excl stop cur)
    (hskip : s.skipTo = none) (hstop : stop < 2 ^ 64) {x : Nat} (h₁ : cur ≤ x) (h₂ : x < s.next) :
    ¬ Excluded excl x := by
  rintro ⟨e, he, hne, hw⟩
  have hx : x < 2 ^ 64 - 1 := by
    have := hs.le_stop
    omega
  obtain ⟨hlo, hhi⟩ := (e.widened_iff hx).mp hw
  by_cases hcur : e.lo ≤ cur
  · have := hs.clear hskip e he hne hcur
    omega
  · have := hs.le_lo e he hne (Nat.lt_of_not_le hcur)
    omega

theorem excluded_at_next {s : ClipScan} (hs : s.Found excl stop cur) (hstop : stop < 2 ^ 64)
    (hlt : s.next < stop) : Excluded excl s.next := by
  rcases hs.next_of with hn | ⟨e, he, hne, hn⟩
  · omega
  · refine ⟨e, he, hne, (e.widened_iff (by omega)).mpr ?_⟩
    rw [hn]
    exact ⟨Nat.le_refl _, e.lo_lt_hi hne⟩

theorem Clipped.emit {s : ClipScan} {l : List (Nat × Nat)} (hs : s.Found excl stop cur)
    (hskip : s.skipTo = none) (hstop : stop < 2 ^ 64) (h : Clipped excl stop s.next l) :
    Clipped excl stop cur ((cur, s.next) :: l) where
  proper := List.forall_mem_cons.mpr ⟨hs.ahead, h.proper⟩
  apart := by
    refine .cons (fun q hq => ?_) h.apart
    -- the next part starts at a point that is not excluded, so not where this one ends
    have hin : 0 < cover l q.1 := cover_pos.mpr ⟨q, hq, Nat.le_refl _, h.proper q hq⟩
    obtain ⟨h₁, h₂, h₃⟩ := (h.exact q.1).mp hin
    refine Nat.lt_of_le_of_ne h₁ fun heq => h₃ ?_
    rw [← heq] at h₂ ⊢
    exact excluded_at_next hs hstop h₂
  exact x := by
    have hle := hs.le_stop
    have hahead := hs.ahead
    rw [cover_cons]
    by_cases hx : Within (cur, s.next) x
    · have hclear := not_excluded_before_next hs hskip hstop hx.1 hx.2
      rw [if_pos hx]
      exact ⟨fun _ => ⟨hx.1, Nat.lt_of_lt_of_le hx.2 hle, hclear⟩, fun _ => Nat.succ_pos _⟩
    · rw [if_neg hx, Nat.add_zero, h.exact]
      constructor
      · exact fun ⟨h₁, h₂⟩ => ⟨Nat.le_trans (Nat.le_of_lt hahead) h₁, h₂⟩
      · exact fun ⟨h₁, h₂⟩ => ⟨Nat.le_of_not_lt fun hlt => hx ⟨h₁, hlt⟩, h₂⟩

theorem clipFrom_clipped (excl : List AddrRange) {stop : Nat} (hstop : stop < 2 ^ 64) (cur : Nat) :
    Clipped excl stop cur (clipFrom excl stop cur) := by
  induction cur using clipFrom.induct excl stop with
  | case1 cur hlt k hk ih =>
    rw [clipFrom, dif_pos hlt]
    obtain ⟨e, he, hne, hlo, hhi, rfl⟩ := (clipScan_found excl hlt).skip k hk
    split
    · rename_i j hj
      obtain rfl := Option.some.inj (hk.symm.trans hj)
      exact ih.skip hstop he hne hlo hhi
    · rename_i hn
      exact absurd (hk.symm.trans hn) nofun
  | case2 cur hlt hn ih =>
    rw [clipFrom, dif_pos hlt]
    split
    · rename_i j hj
      exact absurd (hn.symm.trans hj) nofun
    · exact ih.emit (clipScan_found excl hlt) hn hstop
  | case3 cur hge =>
    rw [clipFrom, dif_neg hge]
    exact .done (Nat.le_of_not_lt hge)

end

/-- The parts of `r` that are emitted come in ascending order, and are the maximal parts of `r`
outside every non-empty exclusion widened to pages. -/
theorem clipUsable_exact (r : AddrRange) (excl : List AddrRange) :
    (clipUsable r excl).Pairwise (fun p q => p.2 < q.1) ∧
      ∀ p, p ∈ clipUsable r excl ↔
        MaximalPart (fun x => r.start ≤ x ∧ x < r.stop ∧ ¬ Excluded excl x) p := by
  have h := clipFrom_clipped excl r.stop_lt r.start
  refine ⟨h.apart, fun p => mem_iff_maximalPart h.proper h.apart (fun x => (h.exact x).symm) p⟩

example : clipUsable ⟨0, 64 * 4096, by decide, by decide⟩
    [⟨30 * 4096, 35 * 4096, by decide, by decide⟩,
      ⟨5 * 4096 + 1, 6 * 4096 - 1, by decide, by decide⟩,
      ⟨10 * 4096, 20 * 4096, by decide, by decide⟩, ⟨12 * 4096, 25 * 4096, by decide, by decide⟩,
        ⟨50 * 4096, 45 * 4096, by decide, by decide⟩,
        ⟨2 ^ 64 - 4, 2 ^ 64 - 1, by decide, by decide⟩] =
    [(0, 5 * 4096), (6 * 4096, 10 * 4096), (25 * 4096, 30 * 4096), (35 * 4096, 64 * 4096)] := by
  decide +kernel

end VibeOS.Mm
