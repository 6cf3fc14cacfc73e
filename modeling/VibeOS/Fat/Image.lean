import VibeOS.Fat.Faults

/-!
What a mounted volume holds: the entries of its table, the sectors of its data area and its two
counts. The rules below say what each primitive operation does to that image and how many disk
operations have failed by then; neither the cache nor the copies of the table appear in them.
-/
namespace VibeOS.Fat
open Lib

structure Image where
  ent : Nat → Nat
  data : Nat → Sector
  free : Nat
  hint : Nat

/-- No failed read changes its buffer. -/
def Fates.Spares (φ : Fates) : Prop :=
  ∀ n, (φ.reads n).spares = true

/-- No failed operation changes its destination. -/
structure Fates.Gentle (φ : Fates) : Prop where
  reads : φ.Spares
  writes : ∀ n, (φ.writes n).spares = true

/-- The volume of geometry `g` holds the image, and `n` operations of its disk have failed. -/
structure At (g : FatInfo) (φ : Fates) (v : Image) (n : Nat) (s : State) : Prop where
  info : s.vol.info = g
  fates : s.disk.fates = φ
  table : ∃ F, Shows g.rsvd F s ∧ ∀ c < g.nclus + 2, entryOf F c = v.ent c
  data : ∀ lba, g.dataLba ≤ lba → s.disk.data lba = v.data lba
  free : s.vol.free = v.free
  hint : s.vol.hint = v.hint
  faults : s.faults = n

variable {g : FatInfo} {φ : Fates} {v : Image} {n c : Nat} {s s' : State}

theorem Fates.Spares.spares (h : φ.Spares) (hs : s.disk.fates = φ) : Fat.Spares s := by
  intro _
  have := h s.disk.nread
  rw [← hs] at this
  exact this

theorem At.calm {v' : Image} {t : State} {m : Nat} (h : At g φ v n s) (hc : Calm m t s')
    (ht : t.vol.info = s.vol.info ∧ t.disk = s.disk ∧ t.vol.free = v'.free ∧ t.vol.hint = v'.hint)
    (hd : v'.data = v.data) {F : Nat → Sector} (hF : Shows g.rsvd F s')
    (hent : ∀ c < g.nclus + 2, entryOf F c = v'.ent c) : At g φ v' (n + m) s' where
  info := hc.info.trans (ht.1.trans h.info)
  fates := hc.fates.trans (ht.2.1 ▸ h.fates)
  table := ⟨F, hF, hent⟩
  data lba hlba := by
    rw [hc.data lba (by rwa [ht.1, h.info]), ht.2.1, hd]
    exact h.data lba hlba
  free := hc.free.trans ht.2.2.1
  hint := hc.hint.trans ht.2.2.2
  faults := by
    rw [hc.faults, ← h.faults]
    congr 1
    rw [State.faults, State.faults, ht.2.1]

theorem At.same {m : Nat} (h : At g φ v n s) (hc : Calm m s s') {F : Nat → Sector}
    (hF : Shows g.rsvd F s') (hent : ∀ c < g.nclus + 2, entryOf F c = v.ent c) :
    At g φ v (n + m) s' :=
  h.calm hc ⟨rfl, rfl, h.free, h.hint⟩ rfl hF hent

section Rules
variable (hl : Layout g) (hφ : φ.Spares)
include hl hφ

theorem At.fatGet (h : At g φ v n s) (hc : c < g.nclus + 2) :
    (Fat.fatGet c).wp (fun x s' => x = v.ent c ∧ At g φ v n s') (fun _ => At g φ v (n + 1)) s := by
  obtain ⟨F, hF, hent⟩ := h.table
  have hg := h.info
  subst hg
  refine Eff.wp_mono (Eff.wp_and (wp_fatGet hF c) (calm_fatGet hl hF.inTable hc))
    (fun x t ht => ?_) fun _ t ht => ?_
  · obtain ⟨⟨hshow, rfl⟩, hcalm⟩ := ht
    exact ⟨hent c hc, h.same hcalm hshow hent⟩
  · exact h.same ht.2 (ht.1 (hφ.spares h.fates)) hent

end Rules

/-- The entries that are zero among the `n` from `c` on. -/
def zeros (ent : Nat → Nat) (c : Nat) : Nat → Nat
  | 0 => 0
  | n + 1 => (if ent c = 0 then 1 else 0) + zeros ent (c + 1) n

theorem At.countFree (hl : Layout g) (hφ : φ.Spares) (m acc : Nat) (h : At g φ v n s)
    (hc : c + m ≤ g.nclus + 2) :
    (Fat.countFree c acc m).wp (fun x s' => x = acc + zeros v.ent c m ∧ At g φ v n s')
      (fun _ => At g φ v (n + 1)) s := by
  induction m generalizing c acc s with
  | zero => exact ⟨rfl, h⟩
  | succ m ih =>
    rw [Fat.countFree, Eff.wp_bind]
    refine Eff.wp_mono (h.fatGet hl hφ (by omega)) (fun x t ht => ?_) fun _ _ => id
    obtain ⟨rfl, ht⟩ := ht
    refine Eff.wp_mono (ih _ ht (by omega)) (fun y t' ht' => ?_) fun _ _ => id
    refine ⟨?_, ht'.2⟩
    rw [ht'.1, zeros]
    split <;> omega

theorem At.setFree (h : At g φ v n s) (free : Nat) :
    At g φ { v with free } n { s with vol := { s.vol with free } } := by
  obtain ⟨F, hF, hent⟩ := h.table
  exact ⟨h.info, h.fates, ⟨F, hF.congr rfl rfl fun _ _ => rfl, hent⟩, h.data, rfl, h.hint, h.faults⟩

def Fates.fine : Fates :=
  ⟨fun _ => .ok, fun _ => .ok, fun _ => .ok⟩

theorem Fates.gentle_fine : fine.Gentle :=
  ⟨fun _ => rfl, fun _ => rfl⟩

theorem failures_ok (n : Nat) : failures (fun _ => .ok) n = 0 := by
  induction n with
  | zero => rfl
  | succ n ih => rw [failures, ih]; rfl

theorem faults_fine (h : s.disk.fates = .fine) : s.faults = 0 := by
  have hr : s.disk.reads = fun _ => .ok := congrArg Fates.reads h
  have hw : s.disk.writes = fun _ => .ok := congrArg Fates.writes h
  have hf : s.disk.flushes = fun _ => .ok := congrArg Fates.flushes h
  rw [State.faults, hr, hw, hf, failures_ok, failures_ok, failures_ok]

theorem At.not_fine (h : At g .fine v (n + 1) s) : False := by
  have := faults_fine h.fates
  rw [h.faults] at this
  cases this

end VibeOS.Fat
