import VibeOS.Fat.Volume

/-!
What the cache and the disk show together. A slot in use holds its sector of the table, no
sector is in two slots, and a sector no dirty slot holds is on the disk; every operation of
the cache keeps this, a failed one too, unless a failed read spoils a slot in use.
-/
namespace VibeOS.Fat
open Lib

/-- Sector `k` of the table, whose first copy begins at sector `r`, is `F k`. -/
structure Shows (r : Nat) (F : Nat → Sector) (s : State) : Prop where
  rsvd : s.vol.info.rsvd = r
  copies : 0 < s.vol.info.numFats
  fsinfo : s.vol.info.fsinfo < r
  inTable : ∀ i, (s.vol.cache i).used = true → (s.vol.cache i).idx < s.vol.info.fatsz
  slot : ∀ i, (s.vol.cache i).used = true → (s.vol.cache i).data = F (s.vol.cache i).idx
  once : ∀ i j, (s.vol.cache i).used = true → (s.vol.cache j).used = true →
    (s.vol.cache i).idx = (s.vol.cache j).idx → i = j
  dirty : ∀ i, (s.vol.cache i).dirty = true → (s.vol.cache i).used = true
  disk : ∀ k < s.vol.info.fatsz, (∀ i, (s.vol.cache i).dirty = true → (s.vol.cache i).idx ≠ k) →
    s.disk.data (r + k) = F k

/-- Whether an operation with this fate leaves its destination as it was should it fail. -/
def Fate.spares : Fate → Bool
  | .fail _ (some _) => false
  | _ => true

/-- The next read, should it fail, leaves its buffer as it was. -/
def Sparing (s : State) : Prop :=
  (s.disk.reads s.disk.nread).spares = true
  deriving Decidable

/-- What a write-back leaves alone. -/
structure Flushed (s s' : State) : Prop where
  info : s'.vol.info = s.vol.info
  used : ∀ i, (s'.vol.cache i).used = (s.vol.cache i).used
  idx : ∀ i, (s'.vol.cache i).idx = (s.vol.cache i).idx
  reads : s'.disk.reads = s.disk.reads
  nread : s'.disk.nread = s.disk.nread

variable {r : Nat} {F : Nat → Sector} {s s' : State} {slot : Fin fatCacheLen} {k : Nat}

theorem Flushed.refl (s : State) : Flushed s s :=
  ⟨rfl, fun _ => rfl, fun _ => rfl, rfl, rfl⟩

theorem Flushed.sparing (h : Flushed s s') (hs : Sparing s) : Sparing s' := by
  unfold Sparing
  rw [h.reads, h.nread]
  exact hs

theorem Shows.congr (h : Shows r F s) (hi : s'.vol.info = s.vol.info)
    (hc : s'.vol.cache = s.vol.cache)
    (hd : ∀ k < s.vol.info.fatsz, s'.disk.data (r + k) = s.disk.data (r + k)) : Shows r F s' where
  rsvd := hi ▸ h.rsvd
  copies := hi ▸ h.copies
  fsinfo := hi ▸ h.fsinfo
  inTable := by rw [hi, hc]; exact h.inTable
  slot := by rw [hc]; exact h.slot
  once := by rw [hc]; exact h.once
  dirty := by rw [hc]; exact h.dirty
  disk := by
    rw [hi, hc]
    intro k hk hclean
    rw [hd k hk]
    exact h.disk k hk hclean

theorem fatLba_ok {info : FatInfo} {copy lba : Nat} (h : info.fatLba copy k = .ok lba) :
    k < info.fatsz ∧ lba = copy * info.fatsz + info.rsvd + k := by
  unfold FatInfo.fatLba at h
  split at h
  · cases h
  · split at h
    · cases h
    · cases h
      exact ⟨by omega, rfl⟩

theorem wp_diskWrite {Q : Unit → State → Prop} {E : FatError → State → Prop} (lba : Nat)
    (b : Sector)
    (hok : ∀ w, Q () ({ s with disk := { s.disk with nwrite := w } }.setSector lba b))
    (herr : ∀ e w b', E e ({ s with disk := { s.disk with nwrite := w } }.setSector lba b')) :
    (diskWrite lba b).wp Q E s := by
  unfold diskWrite
  simp only [Eff.wp_bind, Eff.wp_get, Eff.wp_modify]
  split
  · exact hok _
  · simp only [Eff.wp_bind, Eff.wp_modify, Eff.wp_fail]
    exact herr _ _ _

theorem setSector_of_ne {lba : Nat} (b : Sector) (h : lba ≠ k) :
    (s.setSector lba b).disk.data k = s.disk.data k :=
  Function.update_of_ne (Ne.symm h) _ _

@[simp] theorem setSector_self (s : State) (lba : Nat) (b : Sector) :
    (s.setSector lba b).disk.data lba = b :=
  Function.update_self _ _ _

theorem setSlot_cache (s : State) (i j : Fin fatCacheLen) (c : FatSec) :
    (s.setSlot i c).vol.cache j = if j = i then c else s.vol.cache j :=
  Function.update_apply _ _ _ _

/-- The copies of a slot's sector written so far: the sectors of other slots are untouched, and
the first copy is the slot's once it has been written. -/
structure Writing (s : State) (c : FatSec) (rest : List Nat) (s' : State) : Prop where
  vol : s'.vol = s.vol
  reads : s'.disk.reads = s.disk.reads
  nread : s'.disk.nread = s.disk.nread
  other : ∀ k < s.vol.info.fatsz, k ≠ c.idx →
    s'.disk.data (s.vol.info.rsvd + k) = s.disk.data (s.vol.info.rsvd + k)
  first : 0 ∈ rest ∨ s'.disk.data (s.vol.info.rsvd + c.idx) = c.data

theorem Writing.shows {c : FatSec} {rest : List Nat} (h : Writing s c rest s') (hs : Shows r F s)
    (hc : s.vol.cache slot = c) (hdirty : c.dirty = true) : Shows r F s' where
  rsvd := h.vol ▸ hs.rsvd
  copies := h.vol ▸ hs.copies
  fsinfo := h.vol ▸ hs.fsinfo
  inTable := by rw [h.vol]; exact hs.inTable
  slot := by rw [h.vol]; exact hs.slot
  once := by rw [h.vol]; exact hs.once
  dirty := by rw [h.vol]; exact hs.dirty
  disk := by
    rw [h.vol]
    intro k hk hclean
    -- The sector being written is dirty, so its bytes on the disk are not yet read.
    have hne : k ≠ c.idx := fun he => hclean slot (hc ▸ hdirty) (hc ▸ he.symm)
    have := h.other k hk hne
    rw [hs.rsvd] at this
    rw [this]
    exact hs.disk k hk hclean

theorem Writing.step {c : FatSec} {copy : Nat} {rest : List Nat} (h : Writing s c (copy :: rest) s')
    (hk : c.idx < s.vol.info.fatsz) :
    (do let lba ← Eff.ofExcept (s.vol.info.fatLba copy c.idx); diskWrite lba c.data : V Unit).wp
      (fun _ => Writing s c rest) (fun _ s'' => Writing s c (copy :: rest) s'' ∨
        Writing s c [0] s'') s' := by
  rw [Eff.wp_bind]
  refine Eff.wp_ofExcept_of (fun lba hlba => ?_) fun _ _ => .inl h
  obtain ⟨-, rfl⟩ := fatLba_ok hlba
  -- A copy's sector is another copy's only if both are the same.
  have hfar : ∀ k < s.vol.info.fatsz, copy ≠ 0 ∨ k ≠ c.idx →
      copy * s.vol.info.fatsz + s.vol.info.rsvd + c.idx ≠ s.vol.info.rsvd + k := by
    intro k hk hne
    cases copy with
    | zero =>
      rw [Nat.zero_mul, Nat.zero_add]
      omega
    | succ n =>
      rw [Nat.succ_mul]
      omega
  refine wp_diskWrite _ _ (fun w => ?_) fun e w b' => .inr ?_
  · refine ⟨h.vol, h.reads, h.nread, fun k hk hne => ?_, ?_⟩
    · exact (setSector_of_ne _ (hfar k hk (.inr hne))).trans (h.other k hk hne)
    · rcases Nat.eq_zero_or_pos copy with rfl | hpos
      · right
        rw [Nat.zero_mul, Nat.zero_add]
        exact setSector_self _ _ _
      · rcases h.first with hm | hd
        · exact .inl ((List.mem_cons.mp hm).resolve_left (by omega))
        · exact .inr ((setSector_of_ne _ (hfar _ hk (.inl (by omega)))).trans hd)
  · exact ⟨h.vol, h.reads, h.nread, fun k hk hne =>
      (setSector_of_ne _ (hfar k hk (.inr hne))).trans (h.other k hk hne), .inl (by simp)⟩

theorem Shows.clean (h : Shows r F s) (hd : s.disk.data (r + (s.vol.cache slot).idx)
      = (s.vol.cache slot).data) (hu : (s.vol.cache slot).used = true) :
    Shows r F (s.setSlot slot { s.vol.cache slot with dirty := false }) := by
  have hcell : ∀ i, ((s.setSlot slot { s.vol.cache slot with dirty := false }).vol.cache i).used
        = (s.vol.cache i).used ∧
      ((s.setSlot slot { s.vol.cache slot with dirty := false }).vol.cache i).idx
        = (s.vol.cache i).idx ∧
      ((s.setSlot slot { s.vol.cache slot with dirty := false }).vol.cache i).data
        = (s.vol.cache i).data ∧
      (((s.setSlot slot { s.vol.cache slot with dirty := false }).vol.cache i).dirty = true ↔
        i ≠ slot ∧ (s.vol.cache i).dirty = true) := by
    intro i
    rw [setSlot_cache]
    split
    · subst i
      simp
    · simp [*]
  refine ⟨h.rsvd, h.copies, h.fsinfo, fun i hi => ?_, fun i hi => ?_, fun i j hi hj he => ?_,
    fun i hi => ?_, fun k hk hclean => ?_⟩
  · rw [(hcell i).2.1]
    exact h.inTable i ((hcell i).1 ▸ hi)
  · rw [(hcell i).2.1, (hcell i).2.2.1]
    exact h.slot i ((hcell i).1 ▸ hi)
  · rw [(hcell i).1] at hi
    rw [(hcell j).1] at hj
    rw [(hcell i).2.1, (hcell j).2.1] at he
    exact h.once i j hi hj he
  · rw [(hcell i).1]
    exact h.dirty i ((hcell i).2.2.2.mp hi).2
  · by_cases he : k = (s.vol.cache slot).idx
    · subst he
      exact hd.trans (h.slot slot hu)
    · refine h.disk k hk fun i hi hik => ?_
      have hne : i ≠ slot := by
        rintro rfl
        exact he hik.symm
      exact hclean i ((hcell i).2.2.2.mpr ⟨hne, hi⟩) ((hcell i).2.1.trans hik)

theorem wp_flushOneFat (h : Shows r F s) (slot : Fin fatCacheLen) :
    (flushOneFat slot).wp
      (fun _ s' => Shows r F s' ∧ Flushed s s' ∧ (s'.vol.cache slot).dirty = false)
      (fun _ s' => Shows r F s') s := by
  unfold flushOneFat
  simp only [Eff.wp_bind, Eff.wp_get, Eff.wp_ite, Eff.wp_pure, Eff.wp_modify]
  split
  · rename_i hc
    refine ⟨h, .refl s, ?_⟩
    rcases hc with hu | hd
    · by_contra hd
      exact absurd (h.dirty slot (by simpa using hd)) (by simp [hu])
    · exact hd
  · rename_i hc
    simp only [not_or, Bool.not_eq_false] at hc
    obtain ⟨hu, hd⟩ := hc
    set c := s.vol.cache slot with hcdef
    have hstart : Writing s c (List.range s.vol.info.numFats) s :=
      ⟨rfl, rfl, rfl, fun _ _ _ => rfl, .inl (List.mem_range.mpr h.copies)⟩
    refine Eff.wp_mono (Eff.wp_forEach (E := fun _ s' => Shows r F s') (Writing s c)
      (fun copy rest s' hw => ?_) hstart) (fun _ s' hw => ?_) fun _ _ => id
    · refine Eff.wp_mono (hw.step (h.inTable slot hu)) (fun _ _ => id) fun _ s'' hs'' => ?_
      rcases hs'' with hw' | hw' <;> exact hw'.shows h hcdef.symm hd
    · have hs' : Shows r F s' := hw.shows h hcdef.symm hd
      have hfirst := hw.first.resolve_left (by simp)
      have hcell : s'.vol.cache slot = c := by rw [hw.vol]
      refine ⟨hs'.clean ?_ ?_, ⟨?_, fun i => ?_, fun i => ?_, hw.reads, hw.nread⟩, ?_⟩
      · rw [hcell, ← h.rsvd]
        exact hfirst
      · rw [hcell]
        exact hu
      · exact (congrArg FatVol.info hw.vol : s'.vol.info = s.vol.info)
      · rw [setSlot_cache, ← hw.vol]
        split
        · subst i; rfl
        · rfl
      · rw [setSlot_cache, ← hw.vol]
        split
        · subst i; rfl
        · rfl
      · rw [setSlot_cache, if_pos rfl]

def Misses (k : Nat) (s : State) : Prop :=
  ∀ i, (s.vol.cache i).used = true → (s.vol.cache i).idx ≠ k

theorem Flushed.misses (h : Flushed s s') (hm : Misses k s) : Misses k s' := by
  intro i hi
  rw [h.idx]
  exact hm i (h.used i ▸ hi)

theorem Shows.load (h : Shows r F s) (hm : Misses k s) (hk : k < s.vol.info.fatsz)
    (hclean : (s.vol.cache slot).dirty = false) {c : FatSec} (hu : c.dirty = false)
    (hi : c.idx = k) (hd : c.data = s.disk.data (r + k)) : Shows r F (s.setSlot slot c) := by
  have hF : s.disk.data (r + k) = F k :=
    h.disk k hk fun i hi => hm i (h.dirty i hi)
  refine ⟨h.rsvd, h.copies, h.fsinfo, fun i => ?_, fun i => ?_, fun i j => ?_, fun i => ?_,
    fun j hj hcl => ?_⟩
  · rw [setSlot_cache]
    split
    · exact fun _ => hi ▸ hk
    · exact h.inTable i
  · rw [setSlot_cache]
    split
    · intro _
      rw [hd, hF, hi]
    · exact h.slot i
  · rw [setSlot_cache, setSlot_cache]
    intro hiu hju he
    split at hiu <;> split at hju
    · simp [*]
    · rename_i hi' hj'
      rw [if_pos hi', if_neg hj', hi] at he
      exact absurd he.symm (hm j hju)
    · rename_i hi' hj'
      rw [if_neg hi', if_pos hj', hi] at he
      exact absurd he (hm i hiu)
    · rename_i hi' hj'
      rw [if_neg hi', if_neg hj'] at he
      exact h.once i j hiu hju he
  · rw [setSlot_cache]
    split
    · simp [hu]
    · exact h.dirty i
  · refine h.disk j hj fun i hid => ?_
    have hne : i ≠ slot := by
      rintro rfl
      rw [hclean] at hid
      cases hid
    have := hcl i
    rw [setSlot_cache, if_neg hne] at this
    exact this hid

theorem Shows.setUnused (h : Shows r F s) (hu : (s.vol.cache slot).used = false) (b : Sector) :
    Shows r F (s.setSlot slot { s.vol.cache slot with data := b }) := by
  have hcell : ∀ i, (s.vol.cache i).used = true →
      (s.setSlot slot { s.vol.cache slot with data := b }).vol.cache i = s.vol.cache i := by
    intro i hi
    rw [setSlot_cache, if_neg]
    rintro rfl
    rw [hu] at hi
    cases hi
  have hused : ∀ i, ((s.setSlot slot { s.vol.cache slot with data := b }).vol.cache i).used
      = (s.vol.cache i).used := by
    intro i
    rw [setSlot_cache]
    split
    · subst i; rfl
    · rfl
  refine ⟨h.rsvd, h.copies, h.fsinfo, fun i hi => ?_, fun i hi => ?_, fun i j hi hj he => ?_,
    fun i hi => ?_, fun k hk hcl => ?_⟩
  · rw [hused] at hi
    rw [hcell i hi]
    exact h.inTable i hi
  · rw [hused] at hi
    rw [hcell i hi]
    exact h.slot i hi
  · rw [hused] at hi hj
    rw [hcell i hi, hcell j hj] at he
    exact h.once i j hi hj he
  · rw [hused]
    refine h.dirty i ?_
    rw [setSlot_cache] at hi
    split at hi
    · subst i; exact hi
    · exact hi
  · refine h.disk k hk fun i hi => ?_
    have := hcl i
    rw [hcell i (h.dirty i hi)] at this
    exact this hi

theorem setSlot_setSlot (s : State) (i : Fin fatCacheLen) (c c' : FatSec) :
    (s.setSlot i c).setSlot i c' = s.setSlot i c' := by
  simp [State.setSlot]

theorem wp_fatLoad (h : Shows r F s) (hm : Misses k s) (hk : k < s.vol.info.fatsz)
    (hclean : (s.vol.cache slot).dirty = false) :
    (fatLoad slot k).wp
      (fun i s' => Shows r F s' ∧ (s'.vol.cache i).used = true ∧ (s'.vol.cache i).idx = k)
      (fun _ s' => ((s.vol.cache slot).used = true → Sparing s) → Shows r F s') s := by
  unfold fatLoad diskRead
  simp only [Eff.wp_bind, Eff.wp_get, Eff.wp_modify, Eff.wp_pure, hclean, Bool.false_eq_true,
    if_false]
  refine Eff.wp_ofExcept_of (fun lba hlba => ?_) fun _ _ _ => h
  obtain ⟨-, rfl⟩ := fatLba_ok hlba
  rw [Nat.zero_mul, Nat.zero_add, h.rsvd]
  set t : State := { s with disk := { s.disk with nread := s.disk.nread + 1 } } with ht
  have htF : Shows r F t := h.congr rfl rfl fun _ _ => rfl
  cases hr : s.disk.reads s.disk.nread with
  | ok =>
    simp only [Eff.wp_ofExcept]
    rw [setSlot_setSlot]
    refine ⟨?_, by simp [setSlot_cache], by simp [setSlot_cache]⟩
    exact htF.load hm hk hclean rfl rfl (by simp [setSlot_cache, ht])
  | fail e left =>
    simp only [Eff.wp_ofExcept]
    intro hsp
    by_cases hu : (s.vol.cache slot).used = true
    · cases left with
      | some b =>
        have := hsp hu
        simp [Sparing, hr, Fate.spares] at this
      | none => exact htF.congr rfl (Function.update_eq_self _ _) fun _ _ => rfl
    · exact htF.setUnused (by simpa using hu) _

/-- While every slot is in use, the next read spares its buffer should it fail. -/
def Spares (s : State) : Prop :=
  (∀ i, (s.vol.cache i).used = true) → Sparing s
  deriving Decidable

theorem position_some {p : FatSec → Bool} {cache : Fin fatCacheLen → FatSec} {i : Fin fatCacheLen}
    (h : position p cache = some i) : p (cache i) = true := by
  have := List.find?_some h
  exact this

theorem position_none {p : FatSec → Bool} {cache : Fin fatCacheLen → FatSec}
    (h : position p cache = none) (i : Fin fatCacheLen) : p (cache i) = false := by
  have := List.find?_eq_none.mp h i (List.mem_finRange i)
  simpa using this

theorem wp_fatCache (h : Shows r F s) (k : Nat) :
    (fatCache k).wp
      (fun i s' => Shows r F s' ∧ (s'.vol.cache i).used = true ∧ (s'.vol.cache i).idx = k)
      (fun _ s' => Spares s → Shows r F s') s := by
  unfold fatCache
  simp only [Eff.wp_bind, Eff.wp_get]
  refine Eff.wp_require_of (fun hk => ?_) fun _ _ => h
  split
  · rename_i i hi
    have := position_some hi
    simp only [Bool.and_eq_true, beq_iff_eq] at this
    exact ⟨h, this.1, this.2⟩
  rename_i hmiss
  have hm : Misses k s := by
    intro i hu he
    have := position_none hmiss i
    simp [hu, he] at this
  split
  · rename_i i hi
    have hu : (s.vol.cache i).used = false := by simpa using position_some hi
    have hd : (s.vol.cache i).dirty = false := by
      by_contra hd
      exact absurd (h.dirty i (by simpa using hd)) (by simp [hu])
    refine Eff.wp_mono (wp_fatLoad h hm hk hd) (fun _ _ => id) fun _ _ hs _ => hs fun ht => ?_
    rw [hu] at ht
    cases ht
  rename_i hfull
  have hall : ∀ i, (s.vol.cache i).used = true := fun i => by simpa using position_none hfull i
  split
  · rename_i i hi
    have hd : (s.vol.cache i).dirty = false := by simpa using position_some hi
    exact Eff.wp_mono (wp_fatLoad h hm hk hd) (fun _ _ => id) fun _ _ hs hsp =>
      hs fun _ => hsp hall
  · rw [Eff.wp_bind]
    refine Eff.wp_mono (wp_flushOneFat h 0) (fun _ s' hs' => ?_) fun _ _ hs' _ => hs'
    obtain ⟨hs', hfl, hd⟩ := hs'
    exact Eff.wp_mono (wp_fatLoad hs' (hfl.misses hm) (hfl.info ▸ hk) hd) (fun _ _ => id)
      fun _ _ hs hsp => hs fun _ => hfl.sparing (hsp hall)

def entryOf (F : Nat → Sector) (clu : Nat) : Nat :=
  (F (clu * 4 / sec)).getLE 4 (clu * 4 % sec) &&& entMask

theorem wp_fatEnt (h : Shows r F s) (clu : Nat) :
    (fatEnt clu).wp
      (fun p s' => Shows r F s' ∧ (s'.vol.cache p.1).used = true ∧
        (s'.vol.cache p.1).idx = clu * 4 / sec ∧ p.2 = clu * 4 % sec)
      (fun _ s' => Spares s → Shows r F s') s := by
  unfold fatEnt fatLoc
  simp only [Eff.wp_bind, Eff.wp_get]
  refine Eff.wp_require_of (fun _ => ?_) fun _ _ => h
  split
  · exact fun _ => h
  · simp only [Eff.wp_ofExcept, Eff.wp_pure, and_true]
    exact wp_fatCache h _

theorem wp_fatGet (h : Shows r F s) (clu : Nat) :
    (fatGet clu).wp (fun x s' => Shows r F s' ∧ x = entryOf F clu)
      (fun _ s' => Spares s → Shows r F s') s := by
  unfold fatGet
  simp only [Eff.wp_bind, Eff.wp_get, Eff.wp_pure]
  refine Eff.wp_mono (wp_fatEnt h clu) (fun p s' hs => ?_) fun _ _ => id
  obtain ⟨hs', hu, hi, ho⟩ := hs
  exact ⟨hs', by rw [hs'.slot _ hu, hi, ho, entryOf]⟩

def setEntry (F : Nat → Sector) (clu val : Nat) : Nat → Sector :=
  Function.update F (clu * 4 / sec) ((F (clu * 4 / sec)).putLE 4 (clu * 4 % sec)
    (((F (clu * 4 / sec)).getLE 4 (clu * 4 % sec) &&& 0xF0000000) ||| (val &&& entMask)))

theorem entryOf_setEntry (F : Nat → Sector) (clu val clu' : Nat) :
    entryOf (setEntry F clu val) clu' = if clu' = clu then val &&& entMask else entryOf F clu' := by
  unfold entryOf setEntry
  split
  · subst clu'
    have hoff : clu * 4 % 512 + 4 ≤ 512 := by omega
    rw [Function.update_self, Buf.getLE_putLE hoff, Nat.and_or_distrib_right, Nat.and_assoc,
      Nat.and_assoc, Nat.and_self, show (0xF0000000 &&& entMask) = 0 from rfl, Nat.and_zero,
      Nat.zero_or]
    · refine Nat.or_lt_two_pow (n := 32) ?_ ?_
      · exact Nat.and_lt_two_pow _ (by decide)
      · exact Nat.and_lt_two_pow _ (by decide)
  · rename_i hne
    by_cases hk : clu' * 4 / sec = clu * 4 / sec
    · rw [hk, Function.update_self, Buf.putLE, Buf.getLE_put_ne]
      have hfar : clu' * 4 % 512 + 4 ≤ clu * 4 % 512 ∨ clu * 4 % 512 + 4 ≤ clu' * 4 % 512 := by
        change clu' * 4 / 512 = clu * 4 / 512 at hk
        omega
      rwa [length_leBytes]
    · rw [Function.update_of_ne hk]

theorem Shows.store (h : Shows r F s) (hu : (s.vol.cache slot).used = true)
    (hk : (s.vol.cache slot).idx = k) (b : Sector) :
    Shows r (Function.update F k b)
      (s.setSlot slot { s.vol.cache slot with data := b, dirty := true }) := by
  have hcell :
    ∀ i, ((s.setSlot slot { s.vol.cache slot with data := b, dirty := true }).vol.cache i).used
        = (s.vol.cache i).used ∧
      ((s.setSlot slot { s.vol.cache slot with data := b, dirty := true }).vol.cache i).idx
        = (s.vol.cache i).idx := by
    intro i
    rw [setSlot_cache]
    split
    · subst i
      exact ⟨rfl, rfl⟩
    · exact ⟨rfl, rfl⟩
  subst hk
  refine ⟨h.rsvd, h.copies, h.fsinfo, fun i hi => ?_, fun i hi => ?_, fun i j hi hj he => ?_,
    fun i hi => ?_, fun k hk hclean => ?_⟩
  · rw [(hcell i).2]
    exact h.inTable i ((hcell i).1 ▸ hi)
  · rw [(hcell i).2]
    rw [(hcell i).1] at hi
    rw [setSlot_cache]
    split
    · subst i
      rw [Function.update_self]
    · rename_i hne
      rw [Function.update_of_ne fun he => hne (h.once i slot hi hu he)]
      exact h.slot i hi
  · rw [(hcell i).1] at hi
    rw [(hcell j).1] at hj
    rw [(hcell i).2, (hcell j).2] at he
    exact h.once i j hi hj he
  · rw [(hcell i).1]
    rw [setSlot_cache] at hi
    split at hi
    · subst i
      exact hu
    · exact h.dirty i hi
  · have hne : k ≠ (s.vol.cache slot).idx := by
      rintro rfl
      refine hclean slot ?_ (hcell slot).2
      rw [setSlot_cache, if_pos rfl]
    rw [Function.update_of_ne hne]
    refine h.disk k hk fun i hi => ?_
    rw [← (hcell i).2]
    refine hclean i ?_
    rw [setSlot_cache]
    split
    · rfl
    · exact hi

theorem recount_info (v : FatVol) (old val : Nat) : (v.recount old val).info = v.info := by
  unfold FatVol.recount
  split_ifs <;> rfl

theorem recount_cache (v : FatVol) (old val : Nat) : (v.recount old val).cache = v.cache := by
  unfold FatVol.recount
  split_ifs <;> rfl

theorem wp_fatSet (h : Shows r F s) (clu val : Nat) :
    (fatSet clu val).wp (fun _ s' => Shows r (setEntry F clu val) s')
      (fun _ s' => Spares s → Shows r F s') s := by
  unfold fatSet
  simp only [Eff.wp_bind, Eff.wp_get, Eff.wp_modify]
  refine Eff.wp_mono (wp_fatEnt h clu) (fun p s' hs => ?_) fun _ _ => id
  obtain ⟨hs', hu, hi, ho⟩ := hs
  have hst := hs'.store hu hi ((F (clu * 4 / sec)).putLE 4 (clu * 4 % sec)
    (((F (clu * 4 / sec)).getLE 4 (clu * 4 % sec) &&& 0xF0000000) ||| (val &&& entMask)))
  have hd : (s'.vol.cache p.1).data = F (clu * 4 / sec) := by rw [hs'.slot _ hu, hi]
  rw [hd, ho]
  exact hst.congr (recount_info _ _ _) (recount_cache _ _ _) fun _ _ => rfl

theorem wp_diskWrite_rsvd (h : Shows r F s) {lba : Nat} (hl : lba < r) (b : Sector) :
    (diskWrite lba b).wp (fun _ s' => Shows r F s') (fun _ s' => Shows r F s') s := by
  have hkeep :
    ∀ w b', Shows r F ({ s with disk := { s.disk with nwrite := w } }.setSector lba b') :=
    fun w b' => h.congr rfl rfl fun k _ => setSector_of_ne _ (by omega)
  exact wp_diskWrite _ _ (fun w => hkeep w b) fun _ w b' => hkeep w b'

theorem wp_writeFsinfo (h : Shows r F s) :
    writeFsinfo.wp (fun _ s' => Shows r F s') (fun _ s' => Shows r F s') s := by
  unfold writeFsinfo
  simp only [Eff.wp_bind, Eff.wp_get, Eff.wp_ite, Eff.wp_pure]
  split
  · exact h
  · refine Eff.wp_mono (wp_diskWrite_rsvd h h.fsinfo _) (fun _ s' hs => ?_) fun _ _ => id
    split
    · rename_i hb
      exact wp_diskWrite_rsvd hs (h.rsvd ▸ hb.2.2) _
    · exact hs

theorem wp_commitFat (h : Shows r F s) :
    commitFat.wp (fun _ s' => Shows r F s') (fun _ s' => Shows r F s') s := by
  unfold commitFat
  rw [Eff.wp_bind]
  refine Eff.wp_mono (Eff.wp_forEach (fun _ s' => Shows r F s') (fun i rest s' hs => ?_) h)
    (fun _ s' hs => ?_) fun _ _ => id
  · exact Eff.wp_mono (wp_flushOneFat hs i) (fun _ _ hs' => hs'.1) fun _ _ => id
  · simp only [Eff.wp_bind, Eff.wp_get, Eff.wp_ite, Eff.wp_modify, Eff.wp_pure]
    split
    · exact Eff.wp_mono (wp_writeFsinfo hs) (fun _ _ hs' => hs'.congr rfl rfl fun _ _ => rfl)
        fun _ _ => id
    · exact hs

theorem wp_sync (h : Shows r F s) :
    sync.wp (fun _ s' => Shows r F s') (fun _ s' => Shows r F s') s := by
  unfold sync diskFlush
  simp only [Eff.wp_bind, Eff.wp_get, Eff.wp_modify]
  refine Eff.wp_mono (wp_commitFat h) (fun _ s' hs => ?_) fun _ _ => id
  split <;> exact hs.congr rfl rfl fun _ _ => rfl

end VibeOS.Fat
