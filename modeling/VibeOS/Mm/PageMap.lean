import VibeOS.Mm.PageLinks

/-!
What mapping and unmapping one page does to the translations of the canonical addresses: those of
the page change, and those of every other address stay as they were. A call that fails changes
none.
-/
namespace VibeOS.Mm
open Lib

namespace Mapper
variable {root : Nat} {alloc : FrameAlloc root} {m m' : Mapper} {va d t : Nat}

/-- The flags of a leaf that `map_page` stores. -/
def leafFlags (flags : Nat) : PageSize → Nat
  | .size4K => (flags ||| PageFlags.present) &&& pteFlagsMask
  | .size2M => (flags ||| PageFlags.present ||| PageFlags.huge) &&& pteFlagsMask

/-- The translations with the page of `va` mapped to the frame at `pa`, of which an entry holds
52 bits. -/
def mapped (M : Nat → Option (Nat × PageSize × Nat)) (va pa flags : Nat) (size : PageSize)
    (x : Nat) : Option (Nat × PageSize × Nat) :=
  if x / size.bytes = va / size.bytes then
    some (pa % 2 ^ 52 + x % size.bytes, size, leafFlags flags size)
  else M x

/-- The translations with the page of `va` taken out. -/
def unmapped (M : Nat → Option (Nat × PageSize × Nat)) (va : Nat) (size : PageSize) (x : Nat) :
    Option (Nat × PageSize × Nat) :=
  if x / size.bytes = va / size.bytes then none else M x

/-- The depth of the tables that hold leaves of the size. -/
def leafDepth : PageSize → Nat
  | .size4K => 3
  | .size2M => 2

theorem agree_iff {x va : Nat} (hx : isCanonical x = true) (hva : isCanonical va = true)
    (size : PageSize) :
    format.Agree x va (leafDepth size + 1) ↔ x / size.bytes = va / size.bytes := by
  simp only [isCanonical, Nat.shiftRight_eq_div_pow, Bool.or_eq_true, decide_eq_true_eq] at hx hva
  have hidx : ∀ i, format.idx x i = format.idx va i ↔
      x / 2 ^ (12 + 9 * (4 - i - 1)) % 512 = va / 2 ^ (12 + 9 * (4 - i - 1)) % 512 := by
    intro i
    change index x (levels - i) = index va (levels - i) ↔ _
    rw [index_eq, index_eq]
    rfl
  simp only [TreeFormat.Agree, hidx]
  cases size with
  | size4K =>
    change (∀ i < 4, _) ↔ x / 4096 = va / 4096
    constructor
    · intro h
      have h0 := h 0 (by decide)
      have h1 := h 1 (by decide)
      have h2 := h 2 (by decide)
      have h3 := h 3 (by decide)
      omega
    · intro h i _
      rw [Nat.pow_add, ← Nat.div_div_eq_div_mul, ← Nat.div_div_eq_div_mul]
      exact congrArg (· / 2 ^ (9 * (4 - i - 1)) % 512) h
  | size2M =>
    change (∀ i < 3, _) ↔ x / 2097152 = va / 2097152
    constructor
    · intro h
      have h0 := h 0 (by decide)
      have h1 := h 1 (by decide)
      have h2 := h 2 (by decide)
      omega
    · intro h i hi
      rw [show 12 + 9 * (4 - i - 1) = 21 + 9 * (2 - i) by omega, Nat.pow_add,
        ← Nat.div_div_eq_div_mul, ← Nat.div_div_eq_div_mul]
      exact congrArg (· / 2 ^ (9 * (2 - i)) % 512) h

theorem entryKind_leafEntry (pa flags : Nat) (size : PageSize) :
    entryKind (leafDepth size) (leafEntry pa flags size) = .leaf := by
  have hpres : isPresent (leafEntry pa flags size) = true := by
    cases size with
    | size4K => exact contains_makeEntry (by decide)
    | size2M =>
      rw [leafEntry, Nat.or_right_comm]
      exact contains_makeEntry (by decide)
  rw [entryKind, hpres]
  cases size with
  | size4K => rfl
  | size2M =>
    have hhuge : isHuge (leafEntry pa flags .size2M) = true := contains_makeEntry (by decide)
    rw [hhuge]
    rfl

theorem leafAt_leafEntry {pa : Nat} (flags : Nat) {size : PageSize} (x : Nat)
    (hpa : pa % pageSize4K = 0) :
    leafAt x (leafDepth size, leafEntry pa flags size) =
      (pa % 2 ^ 52 + x % size.bytes, size, leafFlags flags size) := by
  have hphys : entryPhys (leafEntry pa flags size) = pa % 2 ^ 52 := by
    exact (entryPhys_makeEntry ..).trans (and_pteAddrMask hpa)
  have hflags : entryFlags (leafEntry pa flags size) = leafFlags flags size := by
    cases size <;> exact entryFlags_makeEntry ..
  rw [leafAt, hphys, hflags]
  cases size <;> rfl

theorem Inv.mapPage (h : m.Inv alloc) (va pa flags : Nat) (size : PageSize) (mode : MapMode) :
    (m.mapPage alloc va pa flags size mode).2.Inv alloc ∧
      match (m.mapPage alloc va pa flags size mode).1 with
      | .error _ => ∀ x, (m.mapPage alloc va pa flags size mode).2.translate x = m.translate x
      | .ok () => ∀ x, isCanonical x = true →
          (m.mapPage alloc va pa flags size mode).2.translate x =
            mapped m.translate va pa flags size x := by
  generalize hres : m.mapPage alloc va pa flags size mode = res
  rw [Mapper.mapPage] at hres
  split at hres
  · subst hres
    exact ⟨h, fun _ => rfl⟩
  rename_i hcanon
  rw [Bool.not_eq_true', Bool.not_eq_false] at hcanon
  dsimp only at hres
  split at hres
  · subst hres
    exact ⟨h, fun _ => rfl⟩
  rename_i halign
  rw [Bool.or_eq_true, not_or] at halign
  have hdepth : 0 + (levels - leafLevel size) + leafLevel size = levels := by
    cases size <;> rfl
  have hpa : pa % pageSize4K = 0 := by
    have hpa := halign.2
    rw [Bool.not_eq_true', Bool.not_eq_false] at hpa
    cases size with
    | size4K => exact isAligned_iff.mp hpa
    | size2M =>
      have := isAligned_iff.mp hpa
      change pa % 4096 = 0
      omega
  have hstart : format.walk m.mem root va 0 = some root := rfl
  obtain ⟨walked, m₁, hrun, h₁, htr, hw⟩ := h.descend (by cases size <;> decide) hdepth hstart
  rw [h.root_eq, hrun] at hres
  cases walked with
  | error e =>
    subst hres
    exact ⟨h₁, htr⟩
  | ok t =>
    have ht : format.walk m₁.mem root va (leafDepth size) = some t := by
      have := hw t rfl
      cases size <;> exact this
    have hidx : index va (leafLevel size) = format.idx va (leafDepth size) := by
      cases size <;> rfl
    simp only [hidx] at hres
    split at hres
    · subst hres
      exact ⟨h₁, htr⟩
    split at hres
    · subst hres
      exact ⟨h₁, htr⟩
    rename_i hsame
    have hold : ∀ t', entryKind (leafDepth size) (m₁.mem t (format.idx va (leafDepth size))) ≠
        .table t' := by
      intro t'
      rw [entryKind]
      split
      · exact fun he => by cases he
      · rename_i hpres
        rw [Bool.not_eq_true', Bool.not_eq_false] at hpres
        rw [hpres, Bool.true_and, bne_iff_ne, not_not] at hsame
        rw [if_pos]
        · exact fun he => by cases he
        · rw [hsame]
          cases size <;> rfl
    obtain ⟨hinv, hin, hout⟩ := h₁.setLeaf ht (by cases size <;> decide) (by cases size <;> decide)
      hold (e := leafEntry pa flags size)
        (by rw [entryKind_leafEntry]; exact fun _ he => by cases he)
    subst hres
    refine ⟨hinv, fun x hx => ?_⟩
    rw [mapped]
    split
    · rename_i hpage
      rw [hin x ((agree_iff hx hcanon size).mpr hpage), entryKind_leafEntry]
      exact congrArg some (leafAt_leafEntry flags x hpa)
    · rename_i hpage
      rw [hout x fun hagree => hpage ((agree_iff hx hcanon size).mp hagree), htr]

theorem Inv.unmapFrom (h : m.Inv alloc) {level : Nat} (hl : level ≤ levels)
    (ht : format.walk m.mem root va (levels - level) = some t) :
    (Mapper.unmapFrom va level t m).2.Inv alloc ∧
      match (Mapper.unmapFrom va level t m).1 with
      | none => m.translateFrom va level t = none ∧ (Mapper.unmapFrom va level t m).2 = m
      | some (pa, size) =>
        (∃ flags, m.translateFrom va level t = some (pa + va % size.bytes, size, flags)) ∧
        (∀ x, format.Agree x va (leafDepth size + 1) →
          (Mapper.unmapFrom va level t m).2.translate x = none) ∧
        ∀ x, ¬ format.Agree x va (leafDepth size + 1) →
          (Mapper.unmapFrom va level t m).2.translate x = m.translate x := by
  induction level generalizing t with
  | zero => exact ⟨h, rfl, rfl⟩
  | succ level ih =>
    have hidx : index va (level + 1) = format.idx va (levels - (level + 1)) :=
      index_depth (by omega)
    rw [Mapper.unmapFrom, translateFrom]
    simp only [hidx]
    split
    · exact ⟨h, rfl, rfl⟩
    rename_i hpres
    rw [Bool.not_eq_true', Bool.not_eq_false] at hpres
    split
    · rename_i hleaf
      have hlow : level < 2 := by
        by_contra hhigh
        rw [Bool.or_eq_true, decide_eq_true_iff] at hleaf
        have hhuge := hleaf.resolve_left (by omega)
        rw [h.upper ht (by simp only [levels] at *; omega) _ (format_idx_lt ..) hpres] at hhuge
        cases hhuge
      have hdepth : leafDepth (sizeAt (level + 1)) = levels - (level + 1) := by
        obtain rfl | rfl : level = 0 ∨ level = 1 := by omega
        · rfl
        · rfl
      have hold : ∀ t', entryKind (levels - (level + 1))
          (m.mem t (format.idx va (levels - (level + 1)))) ≠ .table t' := by
        intro t'
        rw [entryKind, hpres, if_neg (by decide), if_pos]
        · exact fun he => by cases he
        · rw [Bool.or_eq_true, decide_eq_true_iff] at hleaf ⊢
          refine hleaf.imp_left fun he => ?_
          simp only [levels]
          omega
      obtain ⟨hinv, hin, hout⟩ := h.setLeaf ht (by simp only [levels]; omega)
        (by simp only [levels]; omega) hold (e := 0)
        (by rw [entryKind_zero]; exact fun _ he => by cases he)
      dsimp only
      rw [hdepth]
      refine ⟨hinv, ⟨entryFlags (m.mem t (format.idx va (levels - (level + 1)))), ?_⟩,
        fun x hx => ?_, hout⟩
      · rw [and_bytes]
      · rw [hin x hx, entryKind_zero]
    · rename_i hleaf
      refine ih (Nat.le_of_succ_le hl) ?_
      have hkind : format.kind (levels - (level + 1))
          (m.mem t (format.idx va (levels - (level + 1)))) =
          .table (entryPhys (m.mem t (format.idx va (levels - (level + 1))))) := by
        rw [format_kind, entryKind, hpres, if_neg (by decide), if_neg]
        rw [Bool.or_eq_true, decide_eq_true_iff] at hleaf ⊢
        refine fun hor => hleaf (hor.imp_left fun he => ?_)
        simp only [levels] at he hl
        omega
      rw [show levels - level = levels - (level + 1) + 1 by omega, TreeFormat.walk_succ ht, hkind]

/-- `unmap_page` takes the page of a canonical address out and returns its frame, or finds
nothing mapped there. -/
theorem Inv.unmapPage (h : m.Inv alloc) (hva : isCanonical va = true) :
    (m.unmapPage va).2.Inv alloc ∧
      match (m.unmapPage va).1 with
      | none => m.translate va = none ∧ ∀ x, (m.unmapPage va).2.translate x = m.translate x
      | some (pa, size) =>
        (∃ flags, m.translate va = some (pa + va % size.bytes, size, flags)) ∧
        ∀ x, isCanonical x = true →
          (m.unmapPage va).2.translate x = unmapped m.translate va size x := by
  have hstart : format.walk m.mem root va (levels - levels) = some root := rfl
  obtain ⟨hinv, hres⟩ := h.unmapFrom (Nat.le_refl levels) hstart
  rw [Mapper.unmapPage, Mapper.translate, h.root_eq]
  refine ⟨hinv, ?_⟩
  cases hr : (Mapper.unmapFrom va levels root m).1 with
  | none =>
    rw [hr] at hres
    refine ⟨hres.1, fun x => ?_⟩
    rw [hres.2]
  | some p =>
    obtain ⟨pa, size⟩ := p
    rw [hr] at hres
    obtain ⟨hold, hin, hout⟩ := hres
    refine ⟨hold, fun x hx => ?_⟩
    rw [unmapped]
    split
    · rename_i hpage
      exact hin x ((agree_iff hx hva size).mpr hpage)
    · rename_i hpage
      exact hout x fun hagree => hpage ((agree_iff hx hva size).mp hagree)

end Mapper

end VibeOS.Mm
