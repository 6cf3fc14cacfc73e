import VibeOS.Lib.Bits
import VibeOS.Lib.TableTree
import VibeOS.Mm.PageTable

/-!
The tables of a mapper as a tree: an entry that is present leads to a table, unless it is at
level 1 or has the huge bit. What `translate` returns is what the tree finds. The walk of `map_page`
links empty tables, which translates nothing anew; a leaf stored or cleared changes the translations
of the addresses that select its entry and no others.
-/
namespace VibeOS.Mm
open Lib

theorem isAligned_iff {x k : Nat} : isAligned x (1 <<< k) = true ↔ x % 2 ^ k = 0 := by
  rw [isAligned, Nat.one_shiftLeft, Nat.and_two_pow_sub_one_eq_mod, decide_eq_true_iff]

theorem and_bytes (va : Nat) (size : PageSize) : va &&& (size.bytes - 1) = va % size.bytes := by
  cases size
  · exact Nat.and_two_pow_sub_one_eq_mod va 12
  · exact Nat.and_two_pow_sub_one_eq_mod va 21

theorem index_eq (va level : Nat) : index va level = va / 2 ^ (12 + 9 * (level - 1)) % 512 := by
  rw [index, Nat.shiftRight_eq_div_pow]
  exact Nat.and_two_pow_sub_one_eq_mod _ 9

theorem index_lt (va level : Nat) : index va level < ptesPerTable := by
  rw [index_eq]
  exact Nat.mod_lt _ (by decide)

theorem entryPhys_makeEntry (phys flags : Nat) :
    entryPhys (makeEntry phys flags) = phys &&& pteAddrMask := by
  have hself : pteAddrMask &&& pteAddrMask = pteAddrMask := Nat.and_self _
  have hapart : pteFlagsMask &&& pteAddrMask = 0 := by decide
  rw [entryPhys, makeEntry, Nat.and_or_distrib_right, Nat.and_assoc, Nat.and_assoc, hself, hapart,
    Nat.and_zero, Nat.or_zero]

theorem entryFlags_makeEntry (phys flags : Nat) :
    entryFlags (makeEntry phys flags) = flags &&& pteFlagsMask := by
  have hself : pteFlagsMask &&& pteFlagsMask = pteFlagsMask := Nat.and_self _
  have hapart : pteAddrMask &&& pteFlagsMask = 0 := by decide
  rw [entryFlags, makeEntry, Nat.and_or_distrib_right, Nat.and_assoc, Nat.and_assoc, hself, hapart,
    Nat.and_zero, Nat.zero_or]

theorem and_pteAddrMask {phys : Nat} (h : phys % pageSize4K = 0) :
    phys &&& pteAddrMask = phys % 2 ^ 52 := by
  have hmask : pteAddrMask = (2 ^ 52 - 1) &&& (2 ^ 52 - 2 ^ 12) := by decide
  have hpage : phys % 2 ^ 12 = 0 := h
  rw [hmask, ← Nat.and_assoc, Nat.and_two_pow_sub_one_eq_mod,
    and_high_mask (by decide) (Nat.mod_lt _ (by decide))]
  omega

theorem or_and_self (x b : Nat) : (x ||| b) &&& b = b := by
  apply Nat.eq_of_testBit_eq
  intro i
  simp only [Nat.testBit_and, Nat.testBit_or]
  cases x.testBit i <;> cases b.testBit i <;> rfl

theorem contains_makeEntry {phys flags bits : Nat} (h : pteFlagsMask &&& bits = bits) :
    PageFlags.contains (entryFlags (makeEntry phys (flags ||| bits))) bits = true := by
  rw [entryFlags_makeEntry, PageFlags.contains, Nat.and_assoc, h, or_and_self, decide_eq_true_iff]

/-- What an entry of a table `d` levels below the root is. -/
def entryKind (d entry : Nat) : Entry Nat :=
  if !isPresent entry then .absent
  else if d = 3 || isHuge entry then .leaf
  else .table (entryPhys entry)

def format : TreeFormat Nat Nat Nat Nat where
  idx va d := index va (levels - d)
  kind := entryKind

theorem format_idx_lt (va d : Nat) : format.idx va d < ptesPerTable := index_lt ..

theorem index_depth {va d level : Nat} (h : d + level = levels) :
    index va level = format.idx va d := by
  change _ = index va (levels - d)
  congr 1
  omega

theorem format_kind (d entry : Nat) : format.kind d entry = entryKind d entry := rfl

theorem entryKind_zero (d : Nat) : entryKind d 0 = .absent := by
  rw [entryKind, if_pos (by decide)]

namespace Mapper
variable {m : Mapper} {va : Nat}

/-- The translation that a leaf found at depth `d` gives. -/
def leafAt (va : Nat) (found : Nat × Nat) : Nat × PageSize × Nat :=
  (entryPhys found.2 + va % (sizeAt (levels - found.1)).bytes, sizeAt (levels - found.1),
    entryFlags found.2)

theorem translateFrom_eq {level table : Nat} (h : level ≤ levels) :
    m.translateFrom va level table =
      (format.find m.mem va level (levels - level) table).map (leafAt va) := by
  induction level generalizing table with
  | zero => rfl
  | succ level ih =>
    have hback : levels - (levels - (level + 1)) = level + 1 := by omega
    have hlast : (levels - (level + 1) = 3) = (level + 1 = 1) := by
      simp only [levels, eq_iff_iff] at *
      omega
    have hnext : levels - (level + 1) + 1 = levels - level := by omega
    rw [translateFrom, TreeFormat.find]
    simp only [format, entryKind, hback, hlast]
    split
    · rfl
    · split
      · simp only [Option.map_some, leafAt, hback, and_bytes]
      · rw [ih (Nat.le_of_succ_le h), hnext]
        rfl

theorem translate_eq : m.translate va = (format.find m.mem va levels 0 m.root).map (leafAt va) :=
  translateFrom_eq (Nat.le_refl levels)

end Mapper

variable {root : Nat} (alloc : FrameAlloc root)

/-- The root, or a frame that one of the first `n` calls of the allocator has returned. -/
def FrameAlloc.Used (n u : Nat) : Prop := u = root ∨ ∃ i < n, alloc.answer i = some u

namespace Mapper

/-- The tables form a tree, and no table above level 2 has a huge entry. -/
structure Inv (m : Mapper) : Prop where
  root_eq : m.root = root
  tree : format.IsTree m.mem root (alloc.Used m.calls)
  upper : ∀ {x d t}, format.walk m.mem root x d = some t → d < 2 → ∀ i < ptesPerTable,
    isPresent (m.mem t i) = true → isHuge (m.mem t i) = false

variable {alloc} {m m' : Mapper} {va d t : Nat}

theorem write_mem_self (m : Mapper) (t i e : Nat) : (m.write t i e).mem t i = e := by
  simp [write]

theorem write_mem_of_ne (m : Mapper) {t i e u j : Nat} (h : u ≠ t ∨ j ≠ i) :
    (m.write t i e).mem u j = m.mem u j := by
  unfold write
  by_cases hu : u = t
  · subst hu
    simp [h.resolve_left (fun hne => hne rfl)]
  · simp [hu]

theorem Inv.translate_eq (h : m.Inv alloc) (x : Nat) :
    m.translate x = (format.find m.mem x levels 0 root).map (leafAt x) := by
  rw [Mapper.translate_eq, h.root_eq]

theorem not_used {f : Nat} (hf : alloc.answer m.calls = some f) : ¬ alloc.Used m.calls f := by
  rintro (heq | ⟨i, hi, ha⟩)
  · exact (alloc.frame hf).2.2 heq
  · exact absurd (alloc.once ha hf) (Nat.ne_of_lt hi)

theorem Inv.call (h : m.Inv alloc) : Inv alloc { m with calls := m.calls + 1 } where
  root_eq := h.root_eq
  tree := h.tree.mono fun _ hu =>
    hu.imp_right fun ⟨i, hi, ha⟩ => ⟨i, Nat.lt_succ_of_lt hi, ha⟩
  upper := h.upper

/-- The mapper after a new table `f` is linked at the key's entry in table `t`. -/
def linkTable (m : Mapper) (t i f : Nat) : Mapper :=
  (zeroFrame { m with calls := m.calls + 1 } f).write t i (makeEntry f interior)

theorem kind_interior {f d : Nat} (hpage : f % pageSize4K = 0) (hlt : f < 2 ^ 52) (hd : d < 3) :
    isHuge (makeEntry f interior) = false ∧ entryKind d (makeEntry f interior) = .table f := by
  have hpres : isPresent (makeEntry f interior) = true := by
    rw [isPresent, entryFlags_makeEntry]
    decide
  have hhuge : isHuge (makeEntry f interior) = false := by
    rw [isHuge, entryFlags_makeEntry]
    decide
  refine ⟨hhuge, ?_⟩
  rw [entryKind, hpres, hhuge, entryPhys_makeEntry, and_pteAddrMask hpage, Nat.mod_eq_of_lt hlt,
    decide_eq_false (Nat.ne_of_lt hd)]
  rfl

theorem Inv.linkTable (h : m.Inv alloc) {f : Nat} (hf : alloc.answer m.calls = some f) (hd : d < 3)
    (ht : format.walk m.mem root va d = some t)
    (habsent : isPresent (m.mem t (format.idx va d)) = false) :
    (m.linkTable t (format.idx va d) f).Inv alloc ∧
      (∀ x, (m.linkTable t (format.idx va d) f).translate x = m.translate x) ∧
      format.walk (m.linkTable t (format.idx va d) f).mem root va (d + 1) = some f := by
  obtain ⟨hpage, hlt, -⟩ := alloc.frame hf
  obtain ⟨hhuge, hkind⟩ := kind_interior hpage hlt hd
  have hnot := not_used hf
  have hft : f ≠ t := fun he => hnot (he ▸ h.tree.used ht)
  obtain ⟨m', hm'⟩ : ∃ m', m' = m.linkTable t (format.idx va d) f := ⟨_, rfl⟩
  rw [← hm']
  have hcalls : m'.calls = m.calls + 1 := by rw [hm']; rfl
  have hroot : m'.root = root := by rw [hm']; exact h.root_eq
  have hself : m'.mem t (format.idx va d) = makeEntry f interior := by
    rw [hm']
    exact write_mem_self ..
  have hzero : ∀ i < ptesPerTable, m'.mem f i = 0 := by
    intro i hi
    rw [hm', Mapper.linkTable, write_mem_of_ne _ (.inl hft)]
    simp [zeroFrame, hi]
  have hmem : ∀ u, alloc.Used m.calls u → ∀ i, u ≠ t ∨ i ≠ format.idx va d →
      m'.mem u i = m.mem u i := by
    intro u hu i hne
    have huf : u ≠ f := fun he => hnot (he ▸ hu)
    rw [hm', Mapper.linkTable, write_mem_of_ne _ hne]
    simp [zeroFrame, huf]
  have hnew : format.kind d (m'.mem t (format.idx va d)) = .table f := by
    rw [hself]
    exact hkind
  have hempty : ∀ x d', format.kind d' (m'.mem f (format.idx x d')) = .absent := by
    intro x d'
    rw [hzero _ (format_idx_lt ..)]
    exact entryKind_zero d'
  have hold : format.kind d (m.mem t (format.idx va d)) = .absent := by
    change entryKind d _ = _
    rw [entryKind, habsent]
    rfl
  have hinv : m'.Inv alloc := by
    refine ⟨hroot, ?_, fun {x d' u} hw hd' i hi hp => ?_⟩
    · refine (h.tree.link ht hmem hnew hempty hnot).mono ?_
      rw [hcalls]
      rintro u (hu | rfl)
      · exact hu.imp_right fun ⟨i, hi, ha⟩ => ⟨i, Nat.lt_succ_of_lt hi, ha⟩
      · exact .inr ⟨m.calls, Nat.lt_succ_self _, hf⟩
    · rcases h.tree.link_walk ht hmem hnew hempty hw with hw | ⟨rfl, -, -⟩
      · by_cases hut : u = t ∧ i = format.idx va d
        · obtain ⟨rfl, rfl⟩ := hut
          rw [hself]
          exact hhuge
        · rw [hmem u (h.tree.used hw) i (by tauto)] at hp ⊢
          exact h.upper hw hd' i hi hp
      · rw [hzero i hi] at hp
        cases hp
  refine ⟨hinv, fun x => ?_, ?_⟩
  · have hn : levels = (3 - d) + 1 + d := by
      simp only [levels]
      omega
    rw [hinv.translate_eq, h.translate_eq, hn, h.tree.find_link ht hmem hnew hempty hold]
  · have hw : format.walk m'.mem root va d = some t := by
      rw [TreeFormat.walk_congr fun d' hd' u hu =>
        h.tree.same_entry ht hmem hu (.inl (Nat.ne_of_lt hd')), ht]
    rw [TreeFormat.walk_succ hw, hnew]

theorem walk_next (ht : format.walk m.mem root va d = some t) (hd : d < 3)
    (hpresent : ¬ (!isPresent (m.mem t (format.idx va d))) = true)
    (hhuge : ¬ isHuge (m.mem t (format.idx va d)) = true) :
    format.walk m.mem root va (d + 1) = some (entryPhys (m.mem t (format.idx va d))) := by
  have hkind : format.kind d (m.mem t (format.idx va d)) =
      .table (entryPhys (m.mem t (format.idx va d))) := by
    change entryKind d _ = _
    rw [entryKind, if_neg hpresent, if_neg]
    rw [Bool.or_eq_true, decide_eq_true_iff]
    exact fun hor => hor.elim (fun he => absurd he (Nat.ne_of_lt hd)) hhuge
  rw [TreeFormat.walk_succ ht, hkind]

theorem Inv.descend {n leafLevel : Nat} (h : m.Inv alloc) (hl : 1 ≤ leafLevel)
    (hd : d + n + leafLevel = levels) (ht : format.walk m.mem root va d = some t) :
    ∃ res m', descend alloc va leafLevel n t m = (res, m') ∧ m'.Inv alloc ∧
      (∀ x, m'.translate x = m.translate x) ∧
      ∀ t', res = .ok t' → format.walk m'.mem root va (d + n) = some t' := by
  induction n generalizing m d t with
  | zero =>
    refine ⟨.ok t, m, rfl, h, fun _ => rfl, fun t' he => ?_⟩
    cases he
    exact ht
  | succ n ih =>
    have hidx : index va (leafLevel + (n + 1)) = format.idx va d := index_depth (by omega)
    have hd3 : d < 3 := by
      simp only [levels] at hd
      omega
    rw [Mapper.descend]
    simp only [hidx]
    split
    · rename_i habsent
      rw [Bool.not_eq_true'] at habsent
      split
      · exact ⟨_, _, rfl, h.call, fun _ => rfl, nofun⟩
      · rename_i f hf
        obtain ⟨h₁, htr₁, hw₁⟩ := h.linkTable hf hd3 ht habsent
        obtain ⟨res, m₂, hrun, h₂, htr₂, hw₂⟩ := ih h₁ (by omega) hw₁
        refine ⟨res, m₂, hrun, h₂, fun x => (htr₂ x).trans (htr₁ x), ?_⟩
        rw [Nat.add_right_comm] at hw₂
        exact hw₂
    · rename_i hpresent
      split
      · exact ⟨_, _, rfl, h, fun _ => rfl, nofun⟩
      · rename_i hhuge
        obtain ⟨res, m₂, hrun, h₂, htr₂, hw₂⟩ :=
          ih h (by omega) (walk_next ht hd3 hpresent hhuge)
        refine ⟨res, m₂, hrun, h₂, htr₂, ?_⟩
        rw [Nat.add_right_comm] at hw₂
        exact hw₂

theorem Inv.setLeaf (h : m.Inv alloc) (ht : format.walk m.mem root va d = some t) (hd : 2 ≤ d)
    (hd3 : d ≤ 3) {e : Nat} (hold : ∀ t', entryKind d (m.mem t (format.idx va d)) ≠ .table t')
    (hnew : ∀ t', entryKind d e ≠ .table t') :
    (m.write t (format.idx va d) e).Inv alloc ∧
      (∀ x, format.Agree x va (d + 1) → (m.write t (format.idx va d) e).translate x =
        match entryKind d e with
        | .leaf => some (leafAt x (d, e))
        | _ => none) ∧
      ∀ x, ¬ format.Agree x va (d + 1) →
        (m.write t (format.idx va d) e).translate x = m.translate x := by
  have hself := write_mem_self m t (format.idx va d) e
  have hmem : ∀ u, alloc.Used m.calls u → ∀ i, u ≠ t ∨ i ≠ format.idx va d →
      (m.write t (format.idx va d) e).mem u i = m.mem u i := fun _ _ _ hne => write_mem_of_ne m hne
  have hnew' : ∀ t', format.kind d ((m.write t (format.idx va d) e).mem t (format.idx va d)) ≠
      .table t' := by
    rw [hself]
    exact hnew
  have hwalk := h.tree.store_walk ht hmem hold hnew'
  have hinv : (m.write t (format.idx va d) e).Inv alloc := by
    refine ⟨h.root_eq, h.tree.store ht hmem hold hnew', fun {x d' u} hw hd' i hi hp => ?_⟩
    rw [hwalk] at hw
    have hut : u ≠ t := by
      rintro rfl
      have := (h.tree.unique hw ht).1
      omega
    rw [write_mem_of_ne m (.inl hut)] at hp ⊢
    exact h.upper hw hd' i hi hp
  have hn : levels = (3 - d) + 1 + d := by
    simp only [levels]
    omega
  refine ⟨hinv, fun x hx => ?_, fun x hx => ?_⟩
  · rw [hinv.translate_eq, hn, h.tree.find_stored ht hmem hx, hself, format_kind]
    cases hk : entryKind d e with
    | absent => rfl
    | leaf => rfl
    | table t' => exact absurd hk (hnew t')
  · rw [hinv.translate_eq, h.translate_eq, h.tree.find_other ht hmem hx]

end Mapper

end VibeOS.Mm
