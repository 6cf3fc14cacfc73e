import VibeOS.Mm.PageWalk

/-!
The probe of a mapper against its translations. An empty entry leaves its whole slot without
translation and a leaf translates its whole page, whatever the levels above; so the walks over a
range find exactly the canonical addresses that translate.
-/
namespace VibeOS.Mm
open Lib

theorem index_congr {x va k level : Nat} (h : x / 2 ^ (12 + 9 * k) = va / 2 ^ (12 + 9 * k))
    (hk : k ≤ level) : index x (level + 1) = index va (level + 1) := by
  rw [index_eq, index_eq, Nat.add_sub_cancel,
    show 12 + 9 * level = 12 + 9 * k + 9 * (level - k) by omega, Nat.pow_add,
    ← Nat.div_div_eq_div_mul, ← Nat.div_div_eq_div_mul, h]

theorem slotRemaining_spec {va level x : Nat} (hva : va < 2 ^ 64) (hl : level < 4)
    (hle : va ≤ x) (hx : x < va + slotRemaining va (level + 1)) (hx64 : x < 2 ^ 64) :
    x / 2 ^ (12 + 9 * level) = va / 2 ^ (12 + 9 * level) := by
  have hk : 12 + 9 * level ≤ 64 := by omega
  unfold slotRemaining at hx
  dsimp only at hx
  rw [Nat.add_sub_cancel, Nat.one_shiftLeft, and_high_mask hk hva] at hx
  have hpos : 0 < 2 ^ (12 + 9 * level) := Nat.two_pow_pos _
  have hdvd : 2 ^ (12 + 9 * level) ∣ 2 ^ 64 := Nat.pow_dvd_pow 2 hk
  generalize 2 ^ (12 + 9 * level) = span at *
  -- the slot ends at a multiple of its span, at the latest where the addresses do
  have hend : va / span * span + span ≤ 2 ^ 64 := by
    obtain ⟨q, hq⟩ := hdvd
    rw [hq] at hva ⊢
    have hdiv : va / span < q := Nat.div_lt_of_lt_mul hva
    calc va / span * span + span = (va / span + 1) * span := (Nat.succ_mul ..).symm
      _ ≤ q * span := Nat.mul_le_mul_right span hdiv
      _ = span * q := Nat.mul_comm ..
  have hmod := Nat.div_add_mod va span
  have hmodlt := Nat.mod_lt va hpos
  rw [Nat.mul_comm] at hmod
  rw [Nat.div_eq_iff hpos]
  generalize va / span * span = base at *
  split at hx <;> omega

theorem slotRemaining_pos (va level : Nat) : 0 < slotRemaining va level := by
  unfold slotRemaining
  dsimp only
  split
  · omega
  · rw [Nat.one_shiftLeft]
    exact Nat.two_pow_pos _

namespace Mapper
variable {m : Mapper} {va : Nat}

/-- What the loop of `probe` finds from a table of the level on is what `translate` finds in the
whole page, or in the whole slot. -/
def Found (m : Mapper) (va level table : Nat) : Probe → Prop
  | .mapped _ size flags => ∃ k < level, size.bytes = 2 ^ (12 + 9 * k) ∧
      ∀ x, x / 2 ^ (12 + 9 * k) = va / 2 ^ (12 + 9 * k) →
        ∃ pa, m.translateFrom x level table = some (pa, size, flags)
  | .skip n => ∃ k < level, n = slotRemaining va (k + 1) ∧
      ∀ x, x / 2 ^ (12 + 9 * k) = va / 2 ^ (12 + 9 * k) → m.translateFrom x level table = none

theorem Found.below {level table : Nat} {p : Probe}
    (habsent : isPresent (m.mem table (index va (level + 1))))
    (hleaf : ¬ (decide (level + 1 = 1) || isHuge (m.mem table (index va (level + 1)))) = true)
    (h : m.Found va level (entryPhys (m.mem table (index va (level + 1)))) p) :
    m.Found va (level + 1) table p := by
  have hdown : ∀ {x k}, k < level → x / 2 ^ (12 + 9 * k) = va / 2 ^ (12 + 9 * k) →
      m.translateFrom x (level + 1) table =
        m.translateFrom x level (entryPhys (m.mem table (index va (level + 1)))) := by
    intro x k hk hx
    rw [translateFrom, index_congr hx hk.le, habsent]
    exact if_neg hleaf
  cases p with
  | skip n =>
    obtain ⟨k, hk, hn, hx⟩ := h
    exact ⟨k, Nat.lt_succ_of_lt hk, hn, fun x hxk => (hdown hk hxk).trans (hx x hxk)⟩
  | mapped pa size flags =>
    obtain ⟨k, hk, hn, hx⟩ := h
    refine ⟨k, Nat.lt_succ_of_lt hk, hn, fun x hxk => ?_⟩
    rw [hdown hk hxk]
    exact hx x hxk

theorem found_probeFrom {level : Nat} (hl : 0 < level) (table : Nat) :
    m.Found va level table (m.probeFrom va level table) := by
  induction level generalizing table with
  | zero => cases hl
  | succ level ih =>
    rw [probeFrom]
    by_cases habsent : (!isPresent (m.mem table (index va (level + 1)))) = true
    · rw [if_pos habsent]
      refine ⟨level, Nat.lt_succ_self level, rfl, fun x hx => ?_⟩
      rw [translateFrom, index_congr hx (Nat.le_refl level)]
      exact if_pos habsent
    rw [if_neg habsent]
    by_cases hleaf : (decide (level + 1 = 1) || isHuge (m.mem table (index va (level + 1)))) = true
    · rw [if_pos hleaf]
      have hfind : ∀ {x k}, k ≤ level → x / 2 ^ (12 + 9 * k) = va / 2 ^ (12 + 9 * k) →
          ∃ pa, m.translateFrom x (level + 1) table =
            some (pa, sizeAt (level + 1), entryFlags (m.mem table (index va (level + 1)))) := by
        intro x k hk hx
        rw [translateFrom, index_congr hx hk]
        dsimp only
        rw [if_neg habsent, if_pos hleaf]
        exact ⟨_, rfl⟩
      cases level with
      | zero => exact ⟨0, Nat.zero_lt_one, rfl, fun x hx => hfind (Nat.le_refl 0) hx⟩
      | succ level => exact ⟨1, by omega, rfl, fun x hx => hfind (by omega) hx⟩
    · rw [if_neg hleaf]
      have hpos : 0 < level := by
        refine Nat.pos_of_ne_zero fun hz => hleaf ?_
        rw [hz]
        rfl
      exact Found.below (by simpa using habsent) hleaf (ih hpos _)

/-- A leaf of the canonical halves: a page whose first address translates. -/
structure IsLeaf (m : Mapper) (l : Leaf) : Prop where
  aligned : l.base % l.size.bytes = 0
  canonical : isCanonical l.base = true
  mapped : ∃ pa, m.translate l.base = some (pa, l.size, l.flags)

theorem isCanonical_iff {va : Nat} :
    isCanonical va = true ↔ va < 2 ^ 47 ∨ upperHalf ≤ va ∧ va < 2 ^ 64 := by
  unfold isCanonical upperHalf
  rw [Nat.shiftRight_eq_div_pow]
  simp only [Bool.or_eq_true, decide_eq_true_eq]
  omega

theorem isCanonical_page {x va : Nat} {size : PageSize} (h : x / size.bytes = va / size.bytes)
    (hva : isCanonical va = true) : isCanonical x = true := by
  rw [isCanonical_iff] at hva ⊢
  unfold upperHalf at *
  cases size with
  | size4K =>
    change x / 4096 = va / 4096 at h
    omega
  | size2M =>
    change x / 2097152 = va / 2097152 at h
    omega

theorem translate_page {x pa flags : Nat} {size : PageSize}
    (h : m.translate va = some (pa, size, flags)) (hx : x / size.bytes = va / size.bytes) :
    ∃ pa, m.translate x = some (pa, size, flags) := by
  have hfound : m.Found va levels m.root (m.probeFrom va levels m.root) :=
    m.found_probeFrom (by decide) m.root
  cases hp : m.probeFrom va levels m.root with
  | skip n =>
    rw [hp] at hfound
    obtain ⟨k, -, -, hnone⟩ := hfound
    rw [translate, hnone va rfl] at h
    cases h
  | mapped pa' size' flags' =>
    rw [hp] at hfound
    obtain ⟨k, -, hbytes, hsome⟩ := hfound
    obtain ⟨pa'', hva⟩ := hsome va rfl
    rw [translate, hva] at h
    obtain ⟨-, rfl, rfl⟩ : pa'' = pa ∧ size' = size ∧ flags' = flags := by simpa using h
    rw [hbytes] at hx
    exact hsome x hx

theorem probe_skip {n x : Nat} (hva : va < 2 ^ 64) (hp : m.probe va = .skip n) (hle : va ≤ x)
    (hx : x < va + max n 1) (hcanon : isCanonical x = true) : m.translate x = none := by
  have hx64 : x < 2 ^ 64 := by
    have := isCanonical_iff.mp hcanon
    omega
  unfold probe at hp
  split at hp
  · rename_i hhole
    rw [Bool.not_eq_true', ← Bool.not_eq_true, isCanonical_iff] at hhole
    rw [isCanonical_iff] at hcanon
    unfold upperHalf at *
    split at hp
    · cases hp
      omega
    · omega
  · have hfound : m.Found va levels m.root (m.probeFrom va levels m.root) :=
      m.found_probeFrom (by decide) m.root
    rw [hp] at hfound
    obtain ⟨k, hk, rfl, hnone⟩ := hfound
    have hpos := slotRemaining_pos va (k + 1)
    exact hnone x (slotRemaining_spec hva hk hle (by omega) hx64)

theorem probe_mapped {pa size flags} (hp : m.probe va = .mapped pa size flags) :
    isCanonical va = true ∧ ∃ pa, m.translate va = some (pa, size, flags) := by
  unfold probe at hp
  split at hp
  · split at hp <;> cases hp
  · rename_i hcanon
    have hfound : m.Found va levels m.root (m.probeFrom va levels m.root) :=
      m.found_probeFrom (by decide) m.root
    rw [hp] at hfound
    obtain ⟨k, -, -, hsome⟩ := hfound
    exact ⟨by simpa using hcanon, hsome va rfl⟩

theorem IsLeaf.div_eq {l : Leaf} {x : Nat} (h : m.IsLeaf l) (hc : l.Covers x) :
    x / l.size.bytes = l.base / l.size.bytes := by
  obtain ⟨hle, hlt⟩ := hc
  have hbase := Nat.div_add_mod l.base l.size.bytes
  rw [h.aligned, Nat.add_zero, Nat.mul_comm] at hbase
  rw [Nat.div_eq_iff (bytes_pos _), hbase]
  have := bytes_pos l.size
  constructor <;> omega

theorem IsLeaf.translate {l : Leaf} {x : Nat} (h : m.IsLeaf l) (hc : l.Covers x) :
    isCanonical x = true ∧ ∃ pa, m.translate x = some (pa, l.size, l.flags) := by
  obtain ⟨pa, hpa⟩ := h.mapped
  exact ⟨isCanonical_page (h.div_eq hc) h.canonical, translate_page hpa (h.div_eq hc)⟩

theorem isLeaf_of_translate {x pa flags : Nat} {size : PageSize} (hx : isCanonical x = true)
    (h : m.translate x = some (pa, size, flags)) :
    m.IsLeaf ⟨x / size.bytes * size.bytes, size, flags⟩ := by
  have hdiv : x / size.bytes * size.bytes / size.bytes = x / size.bytes :=
    Nat.mul_div_cancel _ (bytes_pos size)
  exact ⟨Nat.mul_mod_left .., isCanonical_page hdiv hx, translate_page h hdiv⟩

theorem probeSpec (m : Mapper) : ProbeSpec m.probe m.IsLeaf where
  skip {va n} hva hp l hl x hc hle := by
    by_contra hlt
    have hx : x < va + max n 1 := by
      unfold addSat at hlt
      omega
    obtain ⟨hcanon, pa, hpa⟩ := hl.translate hc
    rw [probe_skip hva hp hle hx hcanon] at hpa
    cases hpa
  mapped {va pa size flags} hva hp := by
    obtain ⟨hcanon, pa, hpa⟩ := probe_mapped hp
    exact isLeaf_of_translate hcanon hpa
  unique {l l' x} hl hl' hc hc' := by
    obtain ⟨-, pa, hpa⟩ := hl.translate hc
    obtain ⟨-, pa', hpa'⟩ := hl'.translate hc'
    rw [hpa] at hpa'
    obtain ⟨-, hsize, hflags⟩ : pa = pa' ∧ l.size = l'.size ∧
      l.flags = l'.flags := by simpa using hpa'
    have hdiv := (hl.div_eq hc).symm.trans (hsize ▸ hl'.div_eq hc')
    have hbase := Nat.div_mul_cancel (Nat.dvd_of_mod_eq_zero hl.aligned)
    have hbase' := Nat.div_mul_cancel (Nat.dvd_of_mod_eq_zero hl'.aligned)
    rw [← hsize, ← hdiv, hbase] at hbase'
    cases l
    cases l'
    simp_all

/-- `range_unmapped` says whether a canonical address of the range translates, and `walk_ranges`
reports the leaves that meet the range, in ascending order and joined into maximal runs. -/
theorem range_walks_exact (m : Mapper) (start stop : VirtAddr) :
    (m.rangeUnmapped start stop = true ↔
      ∀ x, start.val ≤ x → x < stop.val → isCanonical x = true → m.translate x = none) ∧
    ∃ leaves : List Leaf, leaves.Pairwise (fun l l' => l.base + l.size.bytes ≤ l'.base) ∧
      (∀ l, l ∈ leaves ↔ m.IsLeaf l ∧ l.Meets start.val stop.val) ∧
      m.walkRanges start stop = (leaves.splitBy Leaf.joins).map runOf := by
  refine ⟨?_, ?_⟩
  · rw [rangeUnmapped, m.probeSpec.unmappedFrom start stop start.val (Nat.le_refl _)]
    constructor
    · intro h x hx hstop hcanon
      cases hx' : m.translate x with
      | none => rfl
      | some p =>
        obtain ⟨pa, size, flags⟩ := p
        exact absurd ⟨x, hx, hstop, covers_base x size flags⟩ (h _ (isLeaf_of_translate hcanon hx'))
    · rintro h l hl ⟨x, hx, hstop, hc⟩
      obtain ⟨hcanon, pa, hpa⟩ := hl.translate hc
      rw [h x hx hstop hcanon] at hpa
      cases hpa
  · obtain ⟨leaves, hsorted, hmem, heq⟩ := m.probeSpec.walkFrom stop start.val none nofun
    exact ⟨leaves, hsorted, hmem, heq.trans (mergeRuns_eq leaves)⟩

/-- The range of the first address of `onePage`'s page with one bit above the canonical ones set. -/
def holeStart : VirtAddr := ⟨0x0001000000002000, by decide⟩

def holeStop : VirtAddr := ⟨0x0001000000003000, by decide⟩

/-- `translate` does not look at the upper bits of an address, so one between the canonical halves
translates in a range that is reported as unmapped. -/
theorem unmapped_range_translates :
    onePage.rangeUnmapped holeStart holeStop = true ∧ holeStart.val < holeStop.val ∧
      onePage.translate holeStart.val = some (0x200000, .size4K, 1) := by
  refine ⟨?_, by decide, by decide +kernel⟩
  rw [rangeUnmapped,
    onePage.probeSpec.unmappedFrom holeStart holeStop holeStart.val (Nat.le_refl _)]
  rintro l hl ⟨x, hx, hstop, hc⟩
  have hcanon := isCanonical_iff.mp (hl.translate hc).1
  simp only [holeStart, holeStop, upperHalf] at *
  omega

end Mapper
end VibeOS.Mm
