import VibeOS.Fat.TableSpec

/-!
Failures of the disk, counted. An operation of the table on a cluster in range fails only with
one disk operation more that failed, and succeeds only with none; either way it leaves the
geometry, the counts and every sector past the table alone.
-/
namespace VibeOS.Fat
open Lib

structure Fates where
  reads : Nat → Fate
  writes : Nat → Fate
  flushes : Nat → Fate

def Disk.fates (d : Disk) : Fates :=
  ⟨d.reads, d.writes, d.flushes⟩

def Fate.failed : Fate → Bool
  | .ok => false
  | .fail _ _ => true

/-- The failures among the first `n` operations. -/
def failures (f : Nat → Fate) : Nat → Nat
  | 0 => 0
  | n + 1 => failures f n + (f n).failed.toNat

def State.faults (s : State) : Nat :=
  failures s.disk.reads s.disk.nread + failures s.disk.writes s.disk.nwrite +
    failures s.disk.flushes s.disk.nflush

/-- A geometry in which the table holds an entry for every cluster and ends where the data
begins. -/
structure Layout (g : FatInfo) : Prop where
  copies : 0 < g.numFats
  data : g.dataLba = g.numFats * g.fatsz + g.rsvd
  small : g.dataLba < u32
  fits : g.nclus + 2 ≤ g.fatsz * 128
  nclus : g.nclus ≤ maxNclus
  bps : g.bps = sec
  spc : 0 < g.spc
  cluster : g.spc * sec ≤ maxClusBytes
  sectors : g.dataLba + g.nclus * g.spc < u32

/-- What the operations of the table leave alone, with `n` disk operations failed. -/
structure Calm (n : Nat) (s s' : State) : Prop where
  info : s'.vol.info = s.vol.info
  free : s'.vol.free = s.vol.free
  hint : s'.vol.hint = s.vol.hint
  fates : s'.disk.fates = s.disk.fates
  data : ∀ lba, s.vol.info.dataLba ≤ lba → s'.disk.data lba = s.disk.data lba
  faults : s'.faults = s.faults + n

variable {m n : Nat} {s s' s'' : State} {slot : Fin fatCacheLen} {k : Nat}

theorem Calm.refl (s : State) : Calm 0 s s :=
  ⟨rfl, rfl, rfl, rfl, fun _ _ => rfl, rfl⟩

theorem Calm.trans (h : Calm m s s') (h' : Calm n s' s'') : Calm (m + n) s s'' where
  info := h'.info.trans h.info
  free := h'.free.trans h.free
  hint := h'.hint.trans h.hint
  fates := h'.fates.trans h.fates
  data lba hlba := (h'.data lba (h.info ▸ hlba)).trans (h.data lba hlba)
  faults := by rw [h'.faults, h.faults, Nat.add_assoc]

theorem Calm.after (h : Calm 0 s s') (h' : Calm n s' s'') : Calm n s s'' := by
  have := h.trans h'
  rwa [Nat.zero_add] at this

theorem Calm.setSlot (h : Calm n s s') (i : Fin fatCacheLen) (c : FatSec) :
    Calm n s (s'.setSlot i c) :=
  ⟨h.info, h.free, h.hint, h.fates, h.data, h.faults⟩

theorem diskRead_cases (lba : Nat) (buf : Sector) :
    (diskRead lba buf).wp (fun p s' => s'.vol = s.vol ∧
        ((p.1 = .ok () ∧ p.2 = s.disk.data lba ∧ Calm 0 s s') ∨
          ((∃ e, p.1 = .error e) ∧ Calm 1 s s')))
      (fun _ _ => False) s := by
  unfold diskRead
  simp only [Eff.wp_bind, Eff.wp_get, Eff.wp_modify, Eff.wp_pure, true_and]
  have hcalm : ∀ b : Nat, ((s.disk.reads s.disk.nread).failed.toNat = b) →
      Calm b s { s with disk := { s.disk with nread := s.disk.nread + 1 } } := by
    intro b hb
    refine ⟨rfl, rfl, rfl, rfl, fun _ _ => rfl, ?_⟩
    simp only [State.faults, failures, hb]
    omega
  cases hr : s.disk.reads s.disk.nread with
  | ok => exact .inl ⟨rfl, rfl, hcalm 0 (by rw [hr]; rfl)⟩
  | fail e left => exact .inr ⟨⟨e, rfl⟩, hcalm 1 (by rw [hr]; rfl)⟩

theorem diskWrite_cases (lba : Nat) (b : Sector) :
    (diskWrite lba b).wp
      (fun _ s' => s'.faults = s.faults ∧ ∃ w,
        s' = { s with disk := { s.disk with nwrite := w } }.setSector lba b)
      (fun _ s' => s'.faults = s.faults + 1 ∧ ∃ w b',
        s' = { s with disk := { s.disk with nwrite := w } }.setSector lba b' ∧
          ((s.disk.writes s.disk.nwrite).spares = true → b' = s.disk.data lba)) s := by
  unfold diskWrite
  simp only [Eff.wp_bind, Eff.wp_get, Eff.wp_modify]
  cases hw : s.disk.writes s.disk.nwrite with
  | ok =>
    refine ⟨?_, _, rfl⟩
    simp only [State.faults, State.setSector, failures, hw, Fate.failed, Bool.toNat_false]
    omega
  | fail e left =>
    simp only [Eff.wp_bind, Eff.wp_modify, Eff.wp_fail]
    refine ⟨?_, _, _, rfl, fun hs => ?_⟩
    · simp only [State.faults, State.setSector, failures, hw, Fate.failed, Bool.toNat_true]
      omega
    · cases left with
      | none => rfl
      | some b => cases hs

theorem wp_diskWrite_below {lba : Nat} (hlba : lba < s.vol.info.dataLba) (b : Sector) :
    (diskWrite lba b).wp (fun _ s' => s'.vol = s.vol ∧ Calm 0 s s')
      (fun _ s' => s'.vol = s.vol ∧ Calm 1 s s') s := by
  have hdata : ∀ w b' l, s.vol.info.dataLba ≤ l →
      ({ s with disk := { s.disk with nwrite := w } }.setSector lba b').disk.data l
        = s.disk.data l := fun w b' l hl => setSector_of_ne _ (by omega)
  refine Eff.wp_mono (diskWrite_cases lba b) (fun _ s' h => ?_) fun _ s' h => ?_
  · obtain ⟨hf, w, rfl⟩ := h
    exact ⟨rfl, rfl, rfl, rfl, rfl, hdata w b, hf⟩
  · obtain ⟨hf, w, b', rfl, -⟩ := h
    exact ⟨rfl, rfl, rfl, rfl, rfl, hdata w b', hf⟩

theorem Layout.fatLba_lt {g : FatInfo} (h : Layout g) {copy : Nat} (hc : copy < g.numFats)
    (hk : k < g.fatsz) : copy * g.fatsz + g.rsvd + k < g.dataLba := by
  have hcopy : (copy + 1) * g.fatsz ≤ g.numFats * g.fatsz := Nat.mul_le_mul_right _ hc
  rw [h.data]
  rw [Nat.succ_mul] at hcopy
  omega

theorem Layout.fatLba_eq {g : FatInfo} (h : Layout g) {copy : Nat} (hc : copy < g.numFats)
    (hk : k < g.fatsz) : g.fatLba copy k = .ok (copy * g.fatsz + g.rsvd + k) := by
  have hlt := h.fatLba_lt hc hk
  have hsmall := h.small
  rw [FatInfo.fatLba, if_neg (by omega), if_neg (by omega)]

/-- Every slot in use holds a sector of the table. -/
def InTable (s : State) : Prop :=
  ∀ i, (s.vol.cache i).used = true → (s.vol.cache i).idx < s.vol.info.fatsz

theorem calm_flushOneFat (hl : Layout s.vol.info) (ht : InTable s) (slot : Fin fatCacheLen) :
    (flushOneFat slot).wp (fun _ s' => Calm 0 s s' ∧ InTable s') (fun _ s' => Calm 1 s s') s := by
  unfold flushOneFat
  simp only [Eff.wp_bind, Eff.wp_get, Eff.wp_ite, Eff.wp_pure, Eff.wp_modify]
  split
  · exact ⟨.refl s, ht⟩
  rename_i hc
  simp only [not_or, Bool.not_eq_false] at hc
  -- The volume stays as it is until every copy is written.
  refine Eff.wp_mono (Eff.wp_forEach (E := fun _ s' => Calm 1 s s')
    (fun rest s' => (∀ x ∈ rest, x < s.vol.info.numFats) ∧ s'.vol = s.vol ∧ Calm 0 s s')
    (fun copy rest s' hw => ?_) ?_) (fun _ s' hw => ?_) fun _ _ => id
  · obtain ⟨hrest, hvol, hcalm⟩ := hw
    rw [List.forall_mem_cons] at hrest
    have hlba := hl.fatLba_lt hrest.1 (ht slot hc.1)
    rw [hl.fatLba_eq hrest.1 (ht slot hc.1), Eff.wp_bind, Eff.wp_ofExcept]
    refine Eff.wp_mono (wp_diskWrite_below (by rwa [hvol]) _) (fun _ t h => ?_) fun _ t h => ?_
    · exact ⟨hrest.2, h.1.trans hvol, hcalm.after h.2⟩
    · exact hcalm.after h.2
  · exact ⟨fun x hx => List.mem_range.mp hx, rfl, .refl s⟩
  · obtain ⟨-, hvol, hcalm⟩ := hw
    refine ⟨hcalm.setSlot _ _, fun i => ?_⟩
    rw [setSlot_cache]
    have hti := ht i
    rw [← hvol] at hti
    split
    · subst i
      exact hti
    · exact hti

theorem calm_fatLoad (hl : Layout s.vol.info) (ht : InTable s) (hk : k < s.vol.info.fatsz)
    (slot : Fin fatCacheLen) :
    (fatLoad slot k).wp (fun _ s' => Calm 0 s s' ∧ InTable s') (fun _ s' => Calm 1 s s') s := by
  have hload : ∀ t, Calm 0 s t → InTable t →
      (do
        let lba ← Eff.ofExcept (t.vol.info.fatLba 0 k)
        let p ← diskRead lba (t.vol.cache slot).data
        Eff.modify fun s => s.setSlot slot { s.vol.cache slot with data := p.2 }
        Eff.ofExcept p.1
        Eff.modify fun s =>
          s.setSlot slot { s.vol.cache slot with used := true, dirty := false, idx := k }
        pure slot : V (Fin fatCacheLen)).wp (fun _ s' => Calm 0 s s' ∧ InTable s')
          (fun _ s' => Calm 1 s s') t := by
    intro t hst htt
    rw [hst.info, hl.fatLba_eq hl.copies hk]
    simp only [Eff.wp_bind, Eff.wp_ofExcept, Eff.wp_modify, Eff.wp_pure]
    refine Eff.wp_mono (diskRead_cases _ _) (fun p t' h => ?_) fun _ _ => False.elim
    obtain ⟨hvol, ⟨hp, -, hcalm⟩ | ⟨⟨e, hp⟩, hcalm⟩⟩ := h
    · rw [hp]
      refine ⟨((hst.after hcalm).setSlot _ _).setSlot _ _, fun i => ?_⟩
      have hinfo : t'.vol.info = s.vol.info := (hst.after hcalm).info
      rw [setSlot_setSlot, setSlot_cache]
      split
      · intro _
        change k < t'.vol.info.fatsz
        rwa [hinfo]
      · have := htt i
        rw [← hvol] at this
        exact this
    · rw [hp]
      exact (hst.after hcalm).setSlot _ _
  unfold fatLoad
  simp only [Eff.wp_bind, Eff.wp_get, Eff.wp_ite, Eff.wp_pure] at hload ⊢
  split
  · refine Eff.wp_mono (calm_flushOneFat hl ht slot) (fun _ t h => ?_) fun _ _ => id
    exact hload t h.1 h.2
  · exact hload s (.refl s) ht

theorem calm_fatCache (hl : Layout s.vol.info) (ht : InTable s) (hk : k < s.vol.info.fatsz) :
    (fatCache k).wp (fun _ s' => Calm 0 s s' ∧ InTable s') (fun _ s' => Calm 1 s s') s := by
  unfold fatCache
  simp only [Eff.wp_bind, Eff.wp_get, Eff.wp_require]
  rw [if_pos hk]
  split
  · exact ⟨.refl s, ht⟩
  split
  · exact calm_fatLoad hl ht hk _
  split
  · exact calm_fatLoad hl ht hk _
  · rw [Eff.wp_bind]
    refine Eff.wp_mono (calm_flushOneFat hl ht 0) (fun _ t h => ?_) fun _ _ => id
    obtain ⟨hcalm, htt⟩ := h
    refine Eff.wp_mono (calm_fatLoad (hcalm.info ▸ hl) htt (hcalm.info ▸ hk) 0) (fun _ t' h => ?_)
      fun _ t' h => hcalm.after h
    exact ⟨hcalm.after h.1, h.2⟩

theorem Layout.entry {g : FatInfo} (h : Layout g) {c : Nat} (hc : c < g.nclus + 2) :
    g.pastEnd c = false ∧ fatLoc c = .ok (c * 4 / sec, c * 4 % sec) ∧ c * 4 / sec < g.fatsz := by
  have hfits := h.fits
  have hn := h.nclus
  refine ⟨?_, ?_, ?_⟩
  · rw [FatInfo.pastEnd, Bool.and_eq_false_iff]
    simp only [decide_eq_false_iff_not]
    omega
  · rw [fatLoc, if_neg]
    simp only [maxNclus, u32] at *
    omega
  · simp only [sec]
    omega

theorem calm_fatEnt (hl : Layout s.vol.info) (ht : InTable s) {c : Nat}
    (hc : c < s.vol.info.nclus + 2) :
    (fatEnt c).wp (fun _ s' => Calm 0 s s' ∧ InTable s') (fun _ s' => Calm 1 s s') s := by
  obtain ⟨hin, hloc, hk⟩ := hl.entry hc
  unfold fatEnt
  simp only [Eff.wp_bind, Eff.wp_get, Eff.wp_require, hin, hloc, Eff.wp_ofExcept, Eff.wp_pure,
    if_true]
  exact calm_fatCache hl ht hk

theorem calm_fatGet (hl : Layout s.vol.info) (ht : InTable s) {c : Nat}
    (hc : c < s.vol.info.nclus + 2) :
    (fatGet c).wp (fun _ s' => Calm 0 s s') (fun _ s' => Calm 1 s s') s := by
  unfold fatGet
  simp only [Eff.wp_bind, Eff.wp_get, Eff.wp_pure]
  exact Eff.wp_mono (calm_fatEnt hl ht hc) (fun _ _ h => h.1) fun _ _ => id

end VibeOS.Fat
