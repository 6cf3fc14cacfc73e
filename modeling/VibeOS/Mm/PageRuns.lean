import VibeOS.Mm.PageMap

/-!
Runs of the mapper. `map_range` maps the pages of its range one after another and stops at the first
that fails. Every call moves the translations of the canonical addresses as the flat map of its
pages says, from a zeroed root on and whenever the frame allocator fails. A request finds its slot
occupied by a leaf, or, for a page of 2 MiB, by a table of smaller pages; unmapping the last of
those leaves the table behind, and the slot stays occupied with nothing mapped under it.
-/
namespace VibeOS.Mm
open Lib

namespace Mapper
variable {root : Nat} {alloc : FrameAlloc root} {m : Mapper}

/-- The pages of a range from an offset on: where each is, its frame and its size. -/
def rangePages (va pa len off : Nat) : List (Nat × Nat × PageSize) :=
  if _h : off < len then
    (va + off, pa + off, rangeSize va pa len off) ::
      rangePages va pa len (off + (rangeSize va pa len off).bytes)
  else []
termination_by len - off
decreasing_by
  have := rangeSize_pos va pa len off
  omega

/-- The translations with the pages mapped one after another. -/
def mapPages (M : Nat → Option (Nat × PageSize × Nat)) (flags : Nat)
    (pages : List (Nat × Nat × PageSize)) : Nat → Option (Nat × PageSize × Nat) :=
  pages.foldl (fun M p => mapped M p.1 p.2.1 flags p.2.2) M

theorem mapPages_congr {M M' : Nat → Option (Nat × PageSize × Nat)} {x : Nat} (h : M x = M' x)
    (flags : Nat) (pages : List (Nat × Nat × PageSize)) :
    mapPages M flags pages x = mapPages M' flags pages x := by
  induction pages generalizing M M' with
  | nil => exact h
  | cons p pages ih =>
    refine ih ?_
    simp only [mapped, h]

theorem Inv.rangeFrom (h : m.Inv alloc) (va pa len flags : Nat) (mode : MapMode) (off : Nat) :
    ∃ res m' n, rangeFrom (fun off size m => m.mapPage alloc (va + off) (pa + off) flags size mode)
        va pa len off m = (res, m') ∧ m'.Inv alloc ∧
      (res = .ok → n = (rangePages va pa len off).length) ∧
      (∀ e, res = .err e → n < (rangePages va pa len off).length) ∧
      ∀ x, isCanonical x = true →
        m'.translate x = mapPages m.translate flags ((rangePages va pa len off).take n) x := by
  induction hm : len - off using Nat.strongRecOn generalizing off m with
  | ind k ih =>
    rw [Mapper.rangeFrom, rangePages]
    split
    case isFalse => exact ⟨.ok, m, 0, rfl, h, fun _ => rfl, nofun, fun _ _ => rfl⟩
    rename_i hlt
    split
    · exact ⟨.overflow, m, 0, rfl, h, nofun, nofun, fun _ _ => rfl⟩
    dsimp only
    obtain ⟨hinv, hres⟩ := h.mapPage (va + off) (pa + off) flags (rangeSize va pa len off) mode
    generalize m.mapPage alloc (va + off) (pa + off) flags (rangeSize va pa len off) mode = r at *
    obtain ⟨res, m₁⟩ := r
    cases res with
    | error e =>
      refine ⟨.err e, m₁, 0, rfl, hinv, nofun, fun _ _ => ?_, fun x _ => hres x⟩
      exact Nat.succ_pos _
    | ok u =>
      dsimp only at hres ⊢
      split
      · exact ⟨.overflow, m₁, 1, rfl, hinv, nofun, nofun, fun x hx => hres x hx⟩
      · have hpos := rangeSize_pos va pa len off
        obtain ⟨res, m₂, n, hrun, h₂, hok, herr, htr⟩ :=
          ih (len - (off + (rangeSize va pa len off).bytes)) (by omega) hinv
            (off + (rangeSize va pa len off).bytes) rfl
        refine ⟨res, m₂, n + 1, hrun, h₂, fun he => congrArg (· + 1) (hok he),
          fun e he => Nat.succ_lt_succ (herr e he), fun x hx => ?_⟩
        rw [htr x hx]
        exact mapPages_congr (hres x hx) flags _

inductive Op where
  | mapPage (va pa flags : Nat) (size : PageSize) (mode : MapMode)
  | mapRange (va pa len flags : Nat) (mode : MapMode)
  | unmapPage (va : Nat)

inductive Outcome where
  | page (res : Except MapError Unit)
  | range (res : RangeResult)
  | frame (res : Option (Nat × PageSize))

def step (alloc : FrameAlloc root) (m : Mapper) : Op → Outcome × Mapper
  | .mapPage va pa flags size mode =>
    let (res, m) := m.mapPage alloc va pa flags size mode
    (.page res, m)
  | .mapRange va pa len flags mode =>
    let (res, m) := m.mapRange alloc va pa len flags mode
    (.range res, m)
  | .unmapPage va =>
    let (res, m) := m.unmapPage va
    (.frame res, m)

/-- A page is unmapped by a canonical address. -/
def Op.Canonical : Op → Prop
  | .unmapPage va => isCanonical va = true
  | _ => True

/-- How a call with its outcome moves the flat map of the canonical addresses. One that maps or
unmaps no page leaves the translations of all addresses alone. -/
def Effect (M M' : Nat → Option (Nat × PageSize × Nat)) : Op → Outcome → Prop
  | .mapPage va pa flags size _, .page (.ok ()) =>
    ∀ x, isCanonical x = true → M' x = mapped M va pa flags size x
  | .mapPage .., .page (.error _) => ∀ x, M' x = M x
  | .mapRange va pa len flags _, .range res =>
    -- all the pages of the range, or those before the one that failed
    ∃ n, (res = .ok → n = (rangePages va pa len 0).length) ∧
      (∀ e, res = .err e → n ≤ (rangePages va pa len 0).length - 1) ∧
      ∀ x, isCanonical x = true → M' x = mapPages M flags ((rangePages va pa len 0).take n) x
  | .unmapPage va, .frame none =>
    M va = none ∧ ∀ x, M' x = M x
  | .unmapPage va, .frame (some (pa, size)) =>
    (∃ flags, M va = some (pa + va % size.bytes, size, flags)) ∧
      ∀ x, isCanonical x = true → M' x = unmapped M va size x
  | _, _ => False

theorem Inv.mapRange (h : m.Inv alloc) (va pa len flags : Nat) (mode : MapMode) :
    (m.mapRange alloc va pa len flags mode).2.Inv alloc ∧
      Effect m.translate (m.mapRange alloc va pa len flags mode).2.translate
        (.mapRange va pa len flags mode) (.range (m.mapRange alloc va pa len flags mode).1) := by
  rw [Mapper.mapRange]
  split
  · rename_i hlen
    subst hlen
    refine ⟨h, 0, fun _ => ?_, nofun, fun _ _ => rfl⟩
    rw [rangePages, dif_neg (Nat.lt_irrefl 0)]
    rfl
  split
  · exact ⟨h, 0, nofun, fun _ _ => Nat.zero_le _, fun _ _ => rfl⟩
  · obtain ⟨res, m', n, hrun, hinv, hok, herr, htr⟩ := h.rangeFrom va pa len flags mode 0
    rw [hrun]
    exact ⟨hinv, n, hok, fun e he => Nat.le_pred_of_lt (herr e he), htr⟩

theorem Inv.step (h : m.Inv alloc) {op : Op} (hop : op.Canonical) :
    (m.step alloc op).2.Inv alloc ∧
      Effect m.translate (m.step alloc op).2.translate op (m.step alloc op).1 := by
  cases op with
  | mapPage va pa flags size mode =>
    obtain ⟨hinv, hres⟩ := h.mapPage va pa flags size mode
    refine ⟨hinv, ?_⟩
    rw [Mapper.step]
    generalize m.mapPage alloc va pa flags size mode = r at *
    obtain ⟨res, m'⟩ := r
    cases res with
    | error e => exact hres
    | ok u => exact hres
  | mapRange va pa len flags mode => exact h.mapRange va pa len flags mode
  | unmapPage va =>
    obtain ⟨hinv, hres⟩ := h.unmapPage hop
    refine ⟨hinv, ?_⟩
    rw [Mapper.step]
    generalize m.unmapPage va = r at *
    obtain ⟨res, m'⟩ := r
    cases res with
    | none => exact hres
    | some p => exact hres

/-- A mapper over a zeroed root that has asked for no frame yet. -/
structure Zeroed (root : Nat) (m : Mapper) : Prop where
  root_eq : m.root = root
  zero : ∀ i < ptesPerTable, m.mem root i = 0
  calls : m.calls = 0

/-- The mappers that calls lead to from a zeroed root. -/
inductive Reach (alloc : FrameAlloc root) : Mapper → Prop
  | zeroed {m : Mapper} : Zeroed root m → Reach alloc m
  | step {m : Mapper} {op : Op} : Reach alloc m → op.Canonical → Reach alloc (m.step alloc op).2

theorem Zeroed.walk (h : Zeroed root m) {x d t : Nat} (hw : format.walk m.mem root x d = some t) :
    t = root ∧ d = 0 := by
  cases d with
  | zero =>
    cases hw
    exact ⟨rfl, rfl⟩
  | succ d =>
    have hfirst : format.walk m.mem root x 1 = none := by
      rw [TreeFormat.walk_succ (t := root) rfl, h.zero _ (format_idx_lt ..), format_kind,
        entryKind_zero]
    rw [TreeFormat.walk_none (Nat.succ_le_succ (Nat.zero_le d)) hfirst] at hw
    cases hw

theorem Zeroed.inv (h : Zeroed root m) (alloc : FrameAlloc root) : m.Inv alloc where
  root_eq := h.root_eq
  tree := by
    refine ⟨fun hw => .inl (h.walk hw).1, fun hw hw' => ?_⟩
    obtain ⟨-, rfl⟩ := h.walk hw
    obtain ⟨-, rfl⟩ := h.walk hw'
    exact ⟨rfl, fun i hi => absurd hi (Nat.not_lt_zero i)⟩
  upper hw _ i hi hp := by
    obtain ⟨rfl, -⟩ := h.walk hw
    rw [h.zero i hi] at hp
    cases hp

theorem Zeroed.translate (h : Zeroed root m) (x : Nat) : m.translate x = none := by
  rw [Mapper.translate, levels, translateFrom, h.root_eq, h.zero _ (index_lt ..)]
  rfl

theorem Reach.inv (h : Reach alloc m) : m.Inv alloc := by
  induction h with
  | zeroed hz => exact hz.inv alloc
  | step _ hop ih => exact (ih.step hop).1

/-- From a zeroed root, which translates nothing, every call moves what `translate` returns for
the canonical addresses as its pages say and leaves every other translation alone. -/
theorem translate_follows_calls (alloc : FrameAlloc root) :
    (∀ m, Zeroed root m → ∀ x, m.translate x = none) ∧
      ∀ m, Reach alloc m → ∀ op : Op, op.Canonical →
        Effect m.translate (m.step alloc op).2.translate op (m.step alloc op).1 :=
  ⟨fun _ hz => hz.translate, fun _ h _ hop => (h.inv.step hop).2⟩

/-- Three frames after the root at `0x1000`, then none. -/
def threeFrames : FrameAlloc 0x1000 where
  answer i := if i < 3 then some (0x2000 + i * 0x1000) else none
  frame {i f} h := by
    split at h
    · cases h
      change (0x2000 + i * 0x1000) % 4096 = 0 ∧ _ ∧ _
      omega
    · cases h
  once {i j f} hi hj := by
    split at hi
    · split at hj
      · cases hi
        have := Option.some.inj hj
        omega
      · cases hj
    · cases hi

def zeroedRoot : Mapper := ⟨0x1000, fun _ _ => 0, 0⟩

def onePage : Mapper := (zeroedRoot.step threeFrames (.mapPage 0x2000 0x200000 0 .size4K .fresh)).2

/-- A range of two pages of 4 KiB and one of 2 MiB mapped after it. -/
def mixedPages : Mapper :=
  (onePage.step threeFrames (.mapRange 0x1FE000 0x3FE000 0x202000 0 .fresh)).2

/-- A page is mapped, then the range; a request inside its large page is refused, and the large page
is unmapped by an address inside it. -/
theorem translate_follows_calls_mixedPages :
    Effect zeroedRoot.translate onePage.translate (.mapPage 0x2000 0x200000 0 .size4K .fresh)
        (.page (.ok ())) ∧
      Effect onePage.translate mixedPages.translate (.mapRange 0x1FE000 0x3FE000 0x202000 0 .fresh)
        (.range .ok) ∧
      Effect mixedPages.translate
        (mixedPages.step threeFrames (.mapPage 0x212000 0 0 .size4K .fresh)).2.translate
        (.mapPage 0x212000 0 0 .size4K .fresh) (.page (.error .pageSizeMismatch)) ∧
      Effect mixedPages.translate
        (mixedPages.step threeFrames (.unmapPage 0x212345)).2.translate (.unmapPage 0x212345)
        (.frame (some (0x400000, .size2M))) ∧
      mixedPages.translate 0x2345 = some (0x200345, .size4K, 1) ∧
      mixedPages.translate 0x1FF678 = some (0x3FF678, .size4K, 1) ∧
      mixedPages.translate 0x212345 = some (0x412345, .size2M, 129) := by
  have hsteps := (translate_follows_calls threeFrames).2
  have hzero : Reach threeFrames zeroedRoot := .zeroed ⟨rfl, fun _ _ => rfl, rfl⟩
  have hone : Reach threeFrames onePage := .step hzero trivial
  have hmixed : Reach threeFrames mixedPages := .step hone trivial
  have hrange : (onePage.mapRange threeFrames 0x1FE000 0x3FE000 0x202000 0 .fresh).1 = .ok := by
    decide +kernel
  have hmap : (mixedPages.mapPage threeFrames 0x212000 0 0 .size4K .fresh).1 =
      .error .pageSizeMismatch := by decide +kernel
  have hunmap : (mixedPages.unmapPage 0x212345).1 = some (0x400000, .size2M) := by decide +kernel
  refine ⟨hsteps _ hzero (.mapPage 0x2000 0x200000 0 .size4K .fresh) trivial, ?_, ?_, ?_, ?_⟩
  · rw [← hrange]
    exact hsteps _ hone (.mapRange 0x1FE000 0x3FE000 0x202000 0 .fresh) trivial
  · rw [← hmap]
    exact hsteps _ hmixed (.mapPage 0x212000 0 0 .size4K .fresh) trivial
  · rw [← hunmap]
    exact hsteps _ hmixed (.unmapPage 0x212345) rfl
  · decide +kernel

/-- A `map_range` that fails leaves its first page mapped, and `unmap_page` of a non-canonical
address takes out the page of the canonical address with the same indexes. -/
theorem calls_reach_further :
    (onePage.mapRange threeFrames 0x1000 0x300000 0x2000 0 .fresh).1 = .err .alreadyMapped ∧
      onePage.translate 0x1000 = none ∧
      (onePage.mapRange threeFrames 0x1000 0x300000 0x2000 0 .fresh).2.translate 0x1000 =
        some (0x300000, .size4K, 1) ∧
      isCanonical 0x0001000000002000 = false ∧
      onePage.translate 0x2000 = some (0x200000, .size4K, 1) ∧
      (onePage.unmapPage 0x0001000000002000).1 = some (0x200000, .size4K) ∧
      (onePage.unmapPage 0x0001000000002000).2.translate 0x2000 = none := by
  decide +kernel

variable {m' : Mapper} {va d t t' : Nat}

/-- No entry of the table is set. -/
def ZeroTable (m : Mapper) (t : Nat) : Prop := ∀ i < ptesPerTable, m.mem t i = 0

theorem linkTable_zero {i f : Nat} (hne : f ≠ t) : (m.linkTable t i f).ZeroTable f := by
  intro j hj
  rw [linkTable, write_mem_of_ne _ (.inl hne)]
  simp [zeroFrame, hj]

theorem Inv.descend_fresh {n leafLevel : Nat} (h : m.Inv alloc) (hl : 1 ≤ leafLevel)
    (hd : d + n + leafLevel = levels) (ht : format.walk m.mem root va d = some t)
    (hrun : Mapper.descend alloc va leafLevel n t m = (.ok t', m')) :
    (m' = m ∨ m'.ZeroTable t') ∧ (m.ZeroTable t → m'.ZeroTable t') := by
  induction n generalizing m d t with
  | zero =>
    cases hrun
    exact ⟨.inl rfl, id⟩
  | succ n ih =>
    have hidx : index va (leafLevel + (n + 1)) = format.idx va d := index_depth (by omega)
    have hd3 : d < 3 := by
      simp only [levels] at hd
      omega
    rw [Mapper.descend] at hrun
    simp only [hidx] at hrun
    split at hrun
    · rename_i habsent
      rw [Bool.not_eq_true'] at habsent
      split at hrun
      · cases hrun
      · rename_i f hf
        obtain ⟨h₁, -, hw₁⟩ := h.linkTable hf hd3 ht habsent
        have hft : f ≠ t := fun he => not_used hf (he ▸ h.tree.used ht)
        have hzero := (ih h₁ (by omega) hw₁ hrun).2 (linkTable_zero hft)
        exact ⟨.inr hzero, fun _ => hzero⟩
    · rename_i hpresent
      split at hrun
      · cases hrun
      · rename_i hhuge
        obtain ⟨hsame, -⟩ := ih h (by omega) (walk_next ht hd3 hpresent hhuge) hrun
        refine ⟨hsame, fun hz => absurd ?_ hpresent⟩
        rw [hz _ (format_idx_lt ..)]
        rfl

theorem descend_error {n leafLevel : Nat} {e : MapError}
    (hrun : descend alloc va leafLevel n t m = (.error e, m')) : e ≠ .alreadyMapped := by
  induction n generalizing m t with
  | zero => cases hrun
  | succ n ih =>
    rw [descend] at hrun
    dsimp only at hrun
    split at hrun
    · split at hrun
      · cases hrun
        exact fun he => by cases he
      · exact ih hrun
    · split at hrun
      · cases hrun
        exact fun he => by cases he
      · exact ih hrun

theorem Inv.translate_leaf (h : m.Inv alloc) (ht : format.walk m.mem root va d = some t)
    (hd : d ≤ 3) (hleaf : entryKind d (m.mem t (format.idx va d)) = .leaf) :
    (m.translate va).isSome = true := by
  have hn : levels = (3 - d) + 1 + d := by
    simp only [levels]
    omega
  rw [h.translate_eq, hn, TreeFormat.find_walk ht, TreeFormat.find, format_kind, hleaf]
  rfl

/-- The slot of the 2 MiB page of `va` leads to a table with no page in it. -/
def EmptyTableAt (m : Mapper) (va : Nat) : Prop :=
  ∃ t, format.walk m.mem m.root va 3 = some t ∧ ∀ i < ptesPerTable, isPresent (m.mem t i) = false

/-- The addresses of a 2 MiB page have one table of depth 3. -/
theorem walk_page (hva : va % pageSize2M = 0) (hcanon : isCanonical va = true) {x : Nat}
    (hle : va ≤ x) (hlt : x < va + pageSize2M) :
    format.walk m.mem root x 3 = format.walk m.mem root va 3 := by
  have hva' : va % 2097152 = 0 := hva
  have hlt' : x < va + 2097152 := hlt
  have hx : isCanonical x = true := by
    simp only [isCanonical, Nat.shiftRight_eq_div_pow, Bool.or_eq_true, decide_eq_true_eq]
      at hcanon ⊢
    omega
  refine TreeFormat.walk_agree ((agree_iff hx hcanon .size2M).mpr ?_)
  change x / 2097152 = va / 2097152
  omega

theorem Inv.translate_below (h : m.Inv alloc) (hva : va % pageSize2M = 0)
    (hcanon : isCanonical va = true) (ht : format.walk m.mem root va 3 = some t) {i : Nat}
    (hi : i < ptesPerTable) (hp : isPresent (m.mem t i) = true) :
    (m.translate (va + i * 4096)).isSome = true := by
  have hva' : va % 2097152 = 0 := hva
  have hi' : i < 512 := hi
  have hlt : va + i * 4096 < va + pageSize2M := by
    change va + i * 4096 < va + 2097152
    omega
  have hidx : format.idx (va + i * 4096) 3 = i := by
    change index (va + i * 4096) 1 = i
    rw [index_eq]
    change (va + i * 4096) / 4096 % 512 = i
    omega
  refine h.translate_leaf ((walk_page hva hcanon (Nat.le_add_right ..) hlt).trans ht)
    (Nat.le_refl 3) ?_
  rw [hidx, entryKind, hp]
  rfl

theorem walk_link {u : Nat} (ht : format.walk m.mem root va d = some t)
    (hu : format.walk m.mem root va (d + 1) = some u) :
    isPresent (m.mem t (format.idx va d)) = true ∧ isHuge (m.mem t (format.idx va d)) = false ∧
      entryPhys (m.mem t (format.idx va d)) = u := by
  rw [TreeFormat.walk_succ ht, format_kind, entryKind] at hu
  by_cases hp : isPresent (m.mem t (format.idx va d)) = true
  · rw [hp, if_neg (by decide)] at hu
    by_cases hleaf : (decide (d = 3) || isHuge (m.mem t (format.idx va d))) = true
    · rw [if_pos hleaf] at hu
      cases hu
    · rw [if_neg hleaf] at hu
      rw [Bool.or_eq_true, not_or, Bool.not_eq_true, Bool.not_eq_true] at hleaf
      exact ⟨hp, hleaf.2, Option.some.inj hu⟩
  · rw [if_pos (by simpa using hp)] at hu
    cases hu

/-- Along tables that are there the loop of `map_page` changes nothing. -/
theorem descend_along {n leafLevel : Nat} (hd : d + n + leafLevel = levels)
    (ht : format.walk m.mem root va d = some t)
    (ht' : format.walk m.mem root va (d + n) = some t') :
    descend alloc va leafLevel n t m = (.ok t', m) := by
  induction n generalizing d t with
  | zero =>
    obtain rfl := Option.some.inj (ht.symm.trans ht')
    rfl
  | succ n ih =>
    have hidx : index va (leafLevel + (n + 1)) = format.idx va d := index_depth (by omega)
    cases hu : format.walk m.mem root va (d + 1) with
    | none =>
      rw [TreeFormat.walk_none (by omega) hu] at ht'
      cases ht'
    | some u =>
      obtain ⟨hp, hh, rfl⟩ := walk_link ht hu
      rw [descend]
      simp only [hidx, hp, hh, Bool.not_true, Bool.false_eq_true, if_false]
      exact ih (by omega) hu (by rwa [Nat.add_assoc, Nat.add_comm 1])

/-- Where the slot of a 2 MiB page leads to an empty table the page is refused, and none of its
addresses is mapped. -/
theorem refused_of_empty (h : m.Inv alloc) {pa : Nat} (flags : Nat) (hcanon : isCanonical va = true)
    (hva : isAligned va pageSize2M = true) (hpa : isAligned pa pageSize2M = true)
    (hempty : m.EmptyTableAt va) :
    (m.mapPage alloc va pa flags .size2M .fresh).1 = .error .alreadyMapped ∧
      ∀ x, va ≤ x → x < va + pageSize2M → m.translate x = none := by
  obtain ⟨t, ht, hzero⟩ := hempty
  rw [h.root_eq] at ht
  constructor
  · cases hu : format.walk m.mem root va 2 with
    | none =>
      rw [TreeFormat.walk_none (by omega) hu] at ht
      cases ht
    | some u =>
      have hpresent := (walk_link hu ht).1
      have hrun : descend alloc va (leafLevel .size2M) (levels - leafLevel .size2M) m.root m =
          (.ok u, m) := by
        rw [h.root_eq]
        exact descend_along rfl rfl hu
      have hidx : index va (leafLevel .size2M) = format.idx va 2 := rfl
      simp only [mapPage, hcanon, PageSize.bytes, hva, hpa, hrun, hidx, hpresent, Bool.not_true,
        Bool.or_self, Bool.false_eq_true, if_false, Bool.true_and, decide_true, if_true]
  · intro x hle hlt
    have hx : format.walk m.mem root x 3 = some t :=
      (walk_page (isAligned_iff.mp hva) hcanon hle hlt).trans ht
    rw [h.translate_eq, show levels = 1 + 3 from rfl, TreeFormat.find_walk hx, TreeFormat.find,
      format_kind, entryKind, hzero _ (format_idx_lt ..)]
    rfl

/-- Mappers that calls lead to from a zeroed root, whatever addresses they are given. -/
inductive Runs (alloc : FrameAlloc root) : Mapper → Prop
  | zeroed {m : Mapper} : Zeroed root m → Runs alloc m
  | step {m : Mapper} (op : Op) : Runs alloc m → Runs alloc (m.step alloc op).2

theorem Runs.inv (h : Runs alloc m) : m.Inv alloc := by
  induction h with
  | zeroed hz => exact hz.inv alloc
  | @step m op _ ih =>
    cases op with
    | mapPage va pa flags size mode => exact (ih.mapPage va pa flags size mode).1
    | mapRange va pa len flags mode => exact (ih.mapRange va pa len flags mode).1
    | unmapPage va =>
      have hstart : format.walk m.mem root va (levels - levels) = some root := rfl
      change Inv alloc (unmapFrom va levels m.root m).2
      rw [ih.root_eq]
      exact (ih.unmapFrom (Nat.le_refl levels) hstart).1

theorem translated_of_refused (h : m.Inv alloc) {pa flags : Nat} {size : PageSize}
    (hslot : ¬ (size = .size2M ∧ isCanonical va = true ∧ isAligned va pageSize2M = true ∧
      isAligned pa pageSize2M = true ∧ m.EmptyTableAt va))
    (hres : (m.mapPage alloc va pa flags size .fresh).1 = .error .alreadyMapped) :
    ∃ x, va ≤ x ∧ x < va + size.bytes ∧ (m.translate x).isSome = true := by
  rw [mapPage] at hres
  split at hres
  · cases hres
  rename_i hcanon
  rw [Bool.not_eq_true', Bool.not_eq_false] at hcanon
  dsimp only at hres
  split at hres
  · cases hres
  rename_i halign
  rw [Bool.or_eq_true, not_or, Bool.not_eq_true', Bool.not_eq_true', Bool.not_eq_false,
    Bool.not_eq_false] at halign
  have hdepth : 0 + (levels - leafLevel size) + leafLevel size = levels := by
    cases size <;> rfl
  have hl : 1 ≤ leafLevel size := by cases size <;> decide
  have hstart : format.walk m.mem root va 0 = some root := rfl
  obtain ⟨walked, m₁, hrun, h₁, htr, hw⟩ := h.descend hl hdepth hstart
  rw [h.root_eq, hrun] at hres
  cases walked with
  | error e =>
    cases hres
    exact absurd rfl (descend_error hrun)
  | ok t =>
    have ht : format.walk m₁.mem root va (leafDepth size) = some t := by
      have := hw t rfl
      cases size <;> exact this
    have hidx : index va (leafLevel size) = format.idx va (leafDepth size) := by
      cases size <;> rfl
    simp only [hidx] at hres
    split at hres
    case isFalse =>
      split at hres <;> cases hres
    rename_i hpres
    rw [Bool.and_eq_true] at hpres
    have hbytes : 0 < size.bytes := by cases size <;> decide
    have hself : (m₁.translate va).isSome = true →
        ∃ x, va ≤ x ∧ x < va + size.bytes ∧ (m.translate x).isSome = true := fun hs =>
      ⟨va, Nat.le_refl va, Nat.lt_add_of_pos_right hbytes, htr va ▸ hs⟩
    cases size with
    | size4K =>
      refine hself (h₁.translate_leaf ht (Nat.le_refl 3) ?_)
      rw [entryKind, hpres.1]
      rfl
    | size2M =>
      by_cases hhuge : isHuge (m₁.mem t (format.idx va 2)) = true
      · refine hself (h₁.translate_leaf ht (by decide) ?_)
        rw [entryKind, hpres.1]
        exact if_pos (Bool.or_eq_true_iff.mpr (.inr hhuge))
      · -- the slot leads to a table, which was there before the call
        have hsame : m₁ = m := by
          refine (h.descend_fresh hl hdepth hstart hrun).1.resolve_right fun hz => ?_
          rw [hz _ (format_idx_lt ..)] at hpres
          exact absurd hpres.1 (by decide)
        subst hsame
        have hnext := walk_next ht (by decide) (by rw [hpres.1]; decide) hhuge
        have hempty : ¬ m₁.EmptyTableAt va := fun he => hslot ⟨rfl, hcanon, halign.1, halign.2, he⟩
        simp only [EmptyTableAt, h.root_eq, not_exists, not_and] at hempty
        have hfull := hempty _ hnext
        simp only [not_forall, Bool.not_eq_false] at hfull
        obtain ⟨i, hi, hp⟩ := hfull
        have hva := isAligned_iff.mp halign.1
        refine ⟨va + i * 4096, Nat.le_add_right .., ?_, h.translate_below hva hcanon hnext hi hp⟩
        have hi' : i < 512 := hi
        change va + i * 4096 < va + 2097152
        omega

/-- A fresh request that meets `AlreadyMapped` is for a page with a translated address, except
exactly for a 2 MiB page whose slot leads to an empty table. -/
theorem alreadyMapped_translated {pa flags : Nat} {size : PageSize} (hr : Runs alloc m) :
    ((m.mapPage alloc va pa flags size .fresh).1 = .error .alreadyMapped →
      ∃ x, va ≤ x ∧ x < va + size.bytes ∧ (m.translate x).isSome = true) ↔
    ¬ (size = .size2M ∧ isCanonical va = true ∧ isAligned va pageSize2M = true ∧
      isAligned pa pageSize2M = true ∧ m.EmptyTableAt va) := by
  refine ⟨?_, fun hslot => translated_of_refused hr.inv hslot⟩
  rintro htrans ⟨rfl, hcanon, hva, hpa, hempty⟩
  obtain ⟨hres, hnone⟩ := refused_of_empty hr.inv flags hcanon hva hpa hempty
  obtain ⟨x, hle, hlt, hx⟩ := htrans hres
  rw [hnone x hle hlt] at hx
  cases hx

theorem alreadyMapped_translated_onePage :
    (onePage.mapPage threeFrames 0x2000 0x300000 0 .size4K .fresh).1 = .error .alreadyMapped ∧
      ∃ x, 0x2000 ≤ x ∧ x < 0x2000 + PageSize.size4K.bytes ∧ (onePage.translate x).isSome = true :=
  have hres : (onePage.mapPage threeFrames 0x2000 0x300000 0 .size4K .fresh).1 =
      .error .alreadyMapped := by decide +kernel
  have hruns : Runs threeFrames onePage := .step _ (.zeroed ⟨rfl, fun _ _ => rfl, rfl⟩)
  have hsize : PageSize.size4K ≠ .size2M := by decide
  ⟨hres, (alreadyMapped_translated hruns).mpr (fun h => hsize h.1) hres⟩

/-- The page of `onePage` unmapped again. -/
def onePageGone : Mapper := (onePage.step threeFrames (.unmapPage 0x2000)).2

/-- A page of 4 KiB is mapped and unmapped again. Its table stays, and the 2 MiB page around it can
no longer be mapped, though none of its addresses is. -/
theorem alreadyMapped_of_unmapped :
    Runs threeFrames onePageGone ∧
      (onePageGone.mapPage threeFrames 0 0 0 .size2M .fresh).1 = .error .alreadyMapped ∧
      ∀ x < PageSize.size2M.bytes, onePageGone.translate x = none := by
  have hzero : Zeroed 0x1000 zeroedRoot := ⟨rfl, fun _ _ => rfl, rfl⟩
  refine ⟨.step _ (.step _ (.zeroed hzero)), by decide +kernel, fun x hx => ?_⟩
  have hcanon : isCanonical x = true := by
    have hx' : x < 2097152 := hx
    simp only [isCanonical, Nat.shiftRight_eq_div_pow, Bool.or_eq_true, decide_eq_true_eq]
    omega
  have hop : (Op.mapPage 0x2000 0x200000 0 .size4K .fresh).Canonical := trivial
  have hop' : (Op.unmapPage 0x2000).Canonical := rfl
  obtain ⟨hinv, hmap⟩ := (hzero.inv threeFrames).step hop
  have hunmap : Effect onePage.translate onePageGone.translate (.unmapPage 0x2000)
      (.frame (some (0x200000, .size4K))) := (hinv.step hop').2
  have hmap' : Effect zeroedRoot.translate onePage.translate
      (.mapPage 0x2000 0x200000 0 .size4K .fresh) (.page (.ok ())) := hmap
  rw [hunmap.2 x hcanon, unmapped]
  split
  · rfl
  · rename_i hpage
    rw [hmap' x hcanon, mapped, if_neg hpage, hzero.translate]

end Mapper

end VibeOS.Mm
