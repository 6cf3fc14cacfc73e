import VibeOS.Fat.Volume

/-!
The layout of a volume that is being made. The size of the table and the number of clusters
depend on each other; the search for them ends after two rounds at most, so the layout is a
formula in the number of sectors, and the smallest image with room for a load is found by
trying one count after the other.
-/
namespace VibeOS.Fat.Mkfs
open Lib

abbrev rsvd : Nat := 32
abbrev numFats : Nat := 2
abbrev spc : Nat := 1
abbrev minSectors : Nat := 36

structure Geometry where
  fatsz : Nat
  dataLba : Nat
  nclus : Nat
  deriving DecidableEq

/-- The first data sector for a table of `fatsz` sectors. -/
def dataStart (fatsz : Nat) : Nat :=
  numFats * fatsz + rsvd

/-- The clusters left by a table of `fatsz` sectors. -/
def clusters (totsec fatsz : Nat) : Nat :=
  (totsec - dataStart fatsz) / spc

/-- The sectors that the entries of `nclus` clusters take. -/
def fatSectors (nclus : Nat) : Nat :=
  ((nclus + 2) * 4 + (sec - 1)) / sec

def geometryFrom (totsec fatsz : Nat) : Except FatError Geometry :=
  if u32 ≤ dataStart fatsz then .error .inval
  else if clusters totsec fatsz < 2 then .error .inval
  else if u32 ≤ (clusters totsec fatsz + 2) * 4 then .error .inval
  else if fatSectors (clusters totsec fatsz) ≤ fatsz then
    .ok ⟨fatsz, dataStart fatsz, clusters totsec fatsz⟩
  else if u32 ≤ dataStart (fatSectors (clusters totsec fatsz)) ∨
      totsec ≤ dataStart (fatSectors (clusters totsec fatsz)) then .error .inval
  else geometryFrom totsec (fatSectors (clusters totsec fatsz))
termination_by totsec - fatsz
decreasing_by
  simp only [dataStart, numFats, rsvd] at *
  omega

def geometry (totsec : Nat) : Except FatError Geometry :=
  geometryFrom totsec 1

/-- Whether an image of `totsec` sectors has `need` clusters. -/
def hasClusters (need totsec : Nat) : Bool :=
  match geometry totsec with
  | .ok g => need ≤ g.nclus
  | .error _ => false

def searchSectors (need totsec : Nat) : Except FatError Nat :=
  if hasClusters need totsec then .ok totsec
  else if u32 ≤ totsec + 1 then .error .inval
  else searchSectors need (totsec + 1)
termination_by u32 - totsec

def imageSectors (dataClusters freeBytes : Nat) : Except FatError Nat :=
  let free := (freeBytes + (sec - 1)) / sec
  let need := dataClusters + free
  if u32 ≤ free then .error .inval
  else if u32 ≤ need then .error .inval
  else if u32 ≤ need + rsvd + numFats then .error .inval
  else searchSectors need (max (need + rsvd + numFats) minSectors)

/-- The size of the table the search ends at. -/
def fatSize (totsec : Nat) : Nat :=
  max 1 ((totsec + 95) / 128)

theorem fatSectors_eq (n : Nat) : fatSectors n = (n + 129) / 128 := by
  simp only [fatSectors, sec]
  omega

theorem clusters_eq (totsec fatsz : Nat) : clusters totsec fatsz = totsec - (2 * fatsz + 32) := by
  simp only [clusters, dataStart, numFats, rsvd, spc]
  omega

theorem geometry_eq (totsec : Nat) :
    geometry totsec = if 36 ≤ totsec ∧ totsec < 2 ^ 30 + 32 then
      .ok ⟨fatSize totsec, dataStart (fatSize totsec), clusters totsec (fatSize totsec)⟩
    else .error .inval := by
  have hstart : ∀ f, dataStart f = 2 * f + 32 := fun _ => rfl
  unfold geometry
  rw [geometryFrom]
  simp only [clusters_eq, fatSectors_eq, hstart, fatSize, u32]
  by_cases hlow : totsec < 36
  · rw [if_neg (by decide), if_pos (by omega), if_neg (by omega)]
  by_cases hhigh : 2 ^ 30 + 32 ≤ totsec
  · rw [if_neg (by decide), if_neg (by omega), if_pos (by omega), if_neg (by omega)]
  have hin : 36 ≤ totsec ∧ totsec < 2 ^ 30 + 32 := by omega
  rw [if_neg (by decide), if_neg (by omega), if_neg (by omega), if_pos hin]
  by_cases hone : totsec ≤ 160
  · rw [if_pos (by omega), show max 1 ((totsec + 95) / 128) = 1 by omega]
  · have hround : totsec - (2 * 1 + 32) + 129 = totsec + 95 := by omega
    rw [hround, if_neg (by omega), if_neg (by omega), geometryFrom]
    simp only [clusters_eq, fatSectors_eq, hstart, u32]
    rw [if_neg (by omega), if_neg (by omega), if_neg (by omega), if_pos (by omega),
      show max 1 ((totsec + 95) / 128) = (totsec + 95) / 128 by omega]

theorem geometry_ok {totsec : Nat} {g : Geometry} (h : geometry totsec = .ok g) :
    (36 ≤ totsec ∧ totsec < 2 ^ 30 + 32) ∧ g.fatsz = fatSize totsec ∧
      g.dataLba = 2 * fatSize totsec + 32 ∧ g.nclus = totsec - (2 * fatSize totsec + 32) := by
  rw [geometry_eq] at h
  split at h
  · rename_i hr
    cases h
    exact ⟨hr, rfl, rfl, clusters_eq _ _⟩
  · cases h

/-- A table of `f` sectors holds the entries of the clusters it leaves. -/
def Holds (totsec f : Nat) : Prop :=
  clusters totsec f + 2 ≤ f * (sec / 4)

/-- The sectors of the largest image with no more clusters than a volume may have. -/
def maxSectors : Nat := 272696359

theorem nclus_le_iff {totsec : Nat} {g : Geometry} (h : geometry totsec = .ok g) :
    g.nclus ≤ maxNclus ↔ totsec ≤ maxSectors := by
  obtain ⟨hr, -, -, hn⟩ := geometry_ok h
  rw [hn, fatSize, maxSectors, maxNclus]
  omega

theorem minimal_iff {totsec : Nat} {g : Geometry} (h : geometry totsec = .ok g) :
    (∀ f < g.fatsz, ¬ Holds totsec f) ↔ 130 * ((totsec + 95) / 128 - 1) + 30 < totsec := by
  obtain ⟨hr, hf, -, -⟩ := geometry_ok h
  rw [hf, fatSize]
  simp only [Holds, clusters_eq, sec]
  constructor
  · intro hmin
    by_contra hover
    have hless := hmin (max 1 ((totsec + 95) / 128) - 1) (by omega)
    omega
  · intro hunder f hf
    omega

section Search
variable {need totsec : Nat}

theorem hasClusters_iff : hasClusters need totsec = true ↔
    ∃ g, geometry totsec = .ok g ∧ need ≤ g.nclus := by
  unfold hasClusters
  split
  · rename_i g hg
    simp [hg]
  · rename_i e he
    simp [he]

theorem searchSectors_spec (need totsec : Nat) (hlt : totsec < u32) :
    (∀ t, searchSectors need totsec = .ok t →
      totsec ≤ t ∧ t < u32 ∧ hasClusters need t = true ∧
        ∀ t', totsec ≤ t' → t' < t → hasClusters need t' = false) ∧
    (∀ e, searchSectors need totsec = .error e →
      ∀ t', totsec ≤ t' → t' < u32 → hasClusters need t' = false) := by
  rw [searchSectors]
  split
  · rename_i hhas
    refine ⟨fun t ht => ?_, fun e he => by cases he⟩
    cases ht
    exact ⟨Nat.le_refl _, hlt, hhas, fun t' hle hlt' => absurd hlt' (by omega)⟩
  rename_i hnot
  have hskip : ∀ t', totsec ≤ t' → (totsec + 1 ≤ t' → hasClusters need t' = false) →
      hasClusters need t' = false := by
    intro t' hle hrest
    rcases Nat.eq_or_lt_of_le hle with rfl | hlt'
    · simpa using hnot
    · exact hrest hlt'
  split
  · refine ⟨fun t ht => by (cases ht), fun e _ t' hle hlt' => hskip t' hle fun _ => ?_⟩
    omega
  · obtain ⟨hok, herr⟩ := searchSectors_spec need (totsec + 1) (by omega)
    refine ⟨fun t ht => ?_, fun e he t' hle hlt' => ?_⟩
    · obtain ⟨hle, ht, hhas, hleast⟩ := hok t ht
      refine ⟨by omega, ht, hhas, fun t' hle' hlt' => ?_⟩
      exact hskip t' hle' fun h => hleast t' h hlt'
    · exact hskip t' hle fun h => herr e he t' h hlt'
termination_by u32 - totsec

end Search

/-- The clusters a load takes, its free bytes in whole clusters. -/
def asked (dataClusters freeBytes : Nat) : Nat :=
  dataClusters + (freeBytes + (sec - 1)) / sec

/-- An image of `totsec` sectors has the asked clusters and room for the asked bytes. -/
def Roomy (dataClusters freeBytes totsec : Nat) : Prop :=
  ∃ g, geometry totsec = .ok g ∧ dataClusters * sec + freeBytes ≤ g.nclus * sec

theorem roomy_iff {dataClusters freeBytes totsec : Nat} : Roomy dataClusters freeBytes totsec ↔
    hasClusters (asked dataClusters freeBytes) totsec = true := by
  rw [hasClusters_iff, Roomy]
  refine exists_congr fun g => and_congr_right fun _ => ?_
  simp only [asked, sec]
  omega

theorem Roomy.le {dataClusters freeBytes totsec : Nat} (h : Roomy dataClusters freeBytes totsec) :
    asked dataClusters freeBytes + rsvd + numFats ≤ totsec ∧
      minSectors ≤ totsec := by
  obtain ⟨g, hg, hroom⟩ := h
  obtain ⟨hr, -, -, hn⟩ := geometry_ok hg
  rw [fatSize] at hn
  simp only [sec] at hroom
  simp only [asked, sec, rsvd, numFats, minSectors]
  omega

theorem imageSectors_eq (dataClusters freeBytes : Nat) :
    imageSectors dataClusters freeBytes =
      if u32 ≤ asked dataClusters freeBytes + rsvd + numFats then .error .inval
      else searchSectors (asked dataClusters freeBytes)
        (max (asked dataClusters freeBytes + rsvd + numFats) minSectors) := by
  unfold imageSectors asked
  dsimp only
  split_ifs with hfree hneed hsum
  all_goals first | rfl | omega

theorem imageSectors_spec (dataClusters freeBytes : Nat) :
    (∀ t, imageSectors dataClusters freeBytes = .ok t →
      t < u32 ∧ Roomy dataClusters freeBytes t ∧ ∀ t' < t, ¬ Roomy dataClusters freeBytes t') ∧
    (∀ e, imageSectors dataClusters freeBytes = .error e →
      ∀ t < u32, ¬ Roomy dataClusters freeBytes t) := by
  rw [imageSectors_eq]
  split
  · rename_i hbig
    refine ⟨fun t ht => by (cases ht), fun e _ t ht hroom => ?_⟩
    have := hroom.le
    omega
  · rename_i hsmall
    have hfirst : max (asked dataClusters freeBytes + rsvd + numFats) minSectors
        < u32 := Nat.max_lt.mpr ⟨by omega, by decide⟩
    obtain ⟨hok, hfail⟩ := searchSectors_spec (asked dataClusters freeBytes) _ hfirst
    -- A roomy count is one the search tries.
    have htried : ∀ t, Roomy dataClusters freeBytes t →
        max (asked dataClusters freeBytes + rsvd + numFats) minSectors ≤ t :=
      fun t hroom => Nat.max_le.mpr hroom.le
    refine ⟨fun t ht => ?_, fun e he t ht hroom => ?_⟩
    · obtain ⟨-, hlt, hhas, hleast⟩ := hok t ht
      refine ⟨hlt, roomy_iff.mpr hhas, fun t' ht' hroom => ?_⟩
      exact Bool.false_ne_true ((hleast t' (htried t' hroom) ht').symm.trans (roomy_iff.mp hroom))
    · exact Bool.false_ne_true ((hfail e he t (htried t hroom) ht).symm.trans (roomy_iff.mp hroom))

end VibeOS.Fat.Mkfs
