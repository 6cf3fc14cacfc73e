import VibeOS.Fat.Geometry
import VibeOS.Fat.Image
import VibeOS.Fat.TableRuns

/-!
The image that formatting writes, and the volume that mounting it gives. The boot sector is
read back field by field; every entry of the new table but the first three is free.
-/
namespace VibeOS.Fat.Mkfs
open Lib

abbrev backupBoot : Nat := 6
abbrev backupFsinfo : Nat := backupBoot + 1
abbrev attrVol : UInt8 := 0x08
abbrev root : Nat := 2

/-- A label cut or filled with blanks to eleven bytes. -/
def label11 (label : List UInt8) : List UInt8 :=
  (List.range 11).map fun i => (label[i]?).getD 0x20

def oemName : List UInt8 :=
  [0x56, 0x49, 0x42, 0x45, 0x4F, 0x53, 0x20, 0x20]

def fsType : List UInt8 :=
  [0x46, 0x41, 0x54, 0x33, 0x32, 0x20, 0x20, 0x20]

def bootSector (totsec fatsz : Nat) (lab : List UInt8) : Sector :=
  let boot : Sector := Buf.zero
  let boot := boot.put 0 [0xEB, 0x58, 0x90]
  let boot := boot.put 3 oemName
  let boot := boot.putLE 2 11 sec
  let boot := boot.putLE 1 13 spc
  let boot := boot.putLE 2 14 rsvd
  let boot := boot.putLE 1 16 numFats
  let boot := boot.putLE 1 21 0xF8
  let boot := boot.putLE 2 24 32
  let boot := boot.putLE 2 26 2
  let boot := boot.putLE 4 32 totsec
  let boot := boot.putLE 4 36 fatsz
  let boot := boot.putLE 4 44 root
  let boot := boot.putLE 2 48 1
  let boot := boot.putLE 2 50 backupBoot
  let boot := boot.put 64 [0x80]
  let boot := boot.put 66 [0x29]
  let boot := boot.putLE 4 67 0x56424F53
  let boot := boot.put 71 lab
  let boot := boot.put 82 fsType
  let boot := boot.put 510 [0x55]
  boot.put 511 [0xAA]

def fsinfoSector (nclus : Nat) : Sector :=
  ((((Buf.zero.putLE 4 0 0x41615252).putLE 4 484 0x61417272).putLE 4 488 (nclus - 1)).putLE 4 492
    3).putLE 4 508 0xAA550000

/-- The first sector of the table: the media entry, the reserved one and the root's. -/
def fat0 : Sector :=
  ((Buf.zero.putLE 4 0 0x0FFFFFF8).putLE 4 4 0x0FFFFFFF).putLE 4 8 0x0FFFFFFF

/-- The root's first sector, which holds the volume's label. -/
def volEnt (lab : List UInt8) : Sector :=
  (Buf.zero.put 0 lab).put 11 [attrVol]

/-- Store sectors of an image of `totsec` sectors, one after the other. -/
def putAll (totsec : Nat) (img : Nat → Sector) :
    List (Nat × Sector) → Except FatError (Nat → Sector)
  | [] => .ok img
  | (lba, b) :: rest =>
    if lba < totsec then putAll totsec (Function.update img lba b) rest else .error .corrupt

def infoOf (totsec : Nat) (geo : Geometry) : FatInfo where
  bps := sec
  spc := spc
  rsvd := rsvd
  numFats := numFats
  fatsz := geo.fatsz
  totsec := totsec
  rootClus := root
  fsinfo := 1
  backup := backupBoot
  dataLba := geo.dataLba
  nclus := geo.nclus
  media := 0xF8

/-- Format a buffer of `len` bytes. The backups are always inside the reserved sectors. -/
def mkfs (len : Nat) (label : List UInt8) : Except FatError (FatInfo × (Nat → Sector)) :=
  if len % sec ≠ 0 then .error .inval
  else if u32 ≤ len / sec then .error .inval
  else
    match geometry (len / sec) with
    | .error e => .error e
    | .ok geo =>
      let lab := label11 label
      let boot := bootSector (len / sec) geo.fatsz lab
      let fs := fsinfoSector geo.nclus
      if u32 ≤ rsvd + geo.fatsz then .error .inval
      else do
        let img ← putAll (len / sec) (fun _ => Buf.zero)
          [(0, boot), (backupBoot, boot), (1, fs), (backupFsinfo, fs), (rsvd, fat0),
            (rsvd + geo.fatsz, fat0)]
        .ok (infoOf (len / sec) geo,
          if geo.dataLba < len / sec then Function.update img geo.dataLba (volEnt lab) else img)

/-- The image once every sector is stored. -/
def imageOf (totsec : Nat) (geo : Geometry) (lab : List UInt8) : Nat → Sector := fun lba =>
  if lba = geo.dataLba then volEnt lab
  else if lba = rsvd + geo.fatsz then fat0
  else if lba = rsvd then fat0
  else if lba = backupFsinfo then fsinfoSector geo.nclus
  else if lba = 1 then fsinfoSector geo.nclus
  else if lba = backupBoot then bootSector totsec geo.fatsz lab
  else if lba = 0 then bootSector totsec geo.fatsz lab
  else Buf.zero

variable {totsec : Nat} {geo : Geometry} {label : List UInt8}

@[simp] theorem length_label11 (label : List UInt8) : (label11 label).length = 11 := by
  simp [label11]

theorem bootSector_fields {t f : Nat} (ht : t < u32) (hf : f < u32) {lab : List UInt8}
    (hlab : lab.length = 11) :
    let b := bootSector t f lab
    (b.get 510 = 0x55 ∧ b.get 511 = 0xAA) ∧
    (b.getLE 2 11 = sec ∧ b.getLE 1 13 = spc ∧ b.getLE 2 14 = rsvd ∧ b.getLE 1 16 = numFats) ∧
    (b.getLE 2 17 = 0 ∧ b.getLE 2 19 = 0 ∧ b.getLE 2 22 = 0 ∧ b.getLE 4 32 = t) ∧
    b.getLE 4 36 = f ∧ b.getLE 4 44 = root ∧ b.getLE 2 48 = 1 ∧ b.getLE 2 50 = backupBoot ∧
    b.getLE 1 21 = 0xF8 := by
  dsimp only [bootSector]
  refine ⟨⟨?_, ?_⟩, ⟨?_, ?_, ?_, ?_⟩, ⟨?_, ?_, ?_, ?_⟩, ?_, ?_, ?_, ?_, ?_⟩
  · rw [Buf.get_put_ne (by decide), Buf.get_put (by decide) (by decide) (by decide)]
    rfl
  · rw [Buf.get_put (by decide) (by decide) (by decide)]
    rfl
  all_goals
    simp (disch := simp [hlab, oemName, fsType]) only [Buf.getLE_put_ne, Buf.getLE_putLE_ne,
      Buf.getLE_zero]
  all_goals exact Buf.getLE_putLE (by decide) (by first | decide | assumption)

theorem entryOf_fat0 {c : Nat} (hc : c < 3) :
    fat0.getLE 4 (c * 4) &&& entMask = if c = 0 then 0x0FFFFFF8 else 0x0FFFFFFF := by
  rcases (by omega : c = 0 ∨ c = 1 ∨ c = 2) with rfl | rfl | rfl
  all_goals decide +kernel

def fresh (totsec : Nat) (geo : Geometry) (lab : List UInt8) : Image where
  ent c := if c = 0 then 0x0FFFFFF8 else if c < 3 then 0x0FFFFFFF else 0
  data := imageOf totsec geo lab
  free := geo.nclus - 1
  hint := 3

theorem zeros_eq {ent : Nat → Nat} (c n : Nat) (h : ∀ i, c ≤ i → i < c + n → ent i = 0) :
    zeros ent c n = n := by
  induction n generalizing c with
  | zero => rfl
  | succ n ih =>
    rw [zeros, if_pos (h c (by omega) (by omega)), ih (c + 1) fun i hi hn =>
      h i (by omega) (by omega)]
    omega

theorem fsinfoSector_valid (nclus : Nat) :
    fsinfoValid (fsinfoSector nclus) = true ∧ (fsinfoSector nclus).getLE 4 492 = 3 := by
  have hfield : ∀ {b : Sector} {o v : Nat}, o + 4 ≤ 512 → v < 256 ^ 4 →
    (b.putLE 4 o v).getLE 4 o = v :=
    fun ho hv => Buf.getLE_putLE ho hv
  unfold fsinfoValid fsinfoSector
  simp (disch := simp) only [Buf.getLE_putLE_ne, hfield]
  exact ⟨rfl, trivial⟩

section
variable (h : geometry totsec = .ok geo)
include h

theorem geometry_inside :
    0 < geo.fatsz ∧ geo.dataLba = 2 * geo.fatsz + 32 ∧ geo.dataLba + geo.nclus = totsec ∧
      2 ≤ geo.nclus ∧ geo.nclus + 2 ≤ geo.fatsz * 128 ∧ totsec < 2 ^ 30 + 32 := by
  obtain ⟨hr, hf, hd, hn⟩ := geometry_ok h
  rw [hd, hn, hf, fatSize]
  omega

theorem mkfs_eq (label : List UInt8) :
    mkfs (totsec * sec) label = .ok (infoOf totsec geo, imageOf totsec geo (label11 label)) := by
  obtain ⟨hf, hd, hsum, hn, -, hlt⟩ := geometry_inside h
  have hdiv : totsec * sec / sec = totsec := Nat.mul_div_cancel _ (by decide)
  have hsmall : ¬ u32 ≤ rsvd + geo.fatsz := by
    simp only [u32, rsvd]
    omega
  unfold mkfs
  rw [hdiv, h, if_neg (by simp), if_neg (by simp only [u32]; omega)]
  dsimp only
  rw [if_neg hsmall]
  simp only [putAll, backupBoot, backupFsinfo, rsvd]
  rw [if_pos (by omega), if_pos (by omega), if_pos (by omega), if_pos (by omega), if_pos (by omega),
    if_pos (by omega)]
  simp only [bind, Except.bind]
  rw [if_pos (by omega)]
  congr 2
  funext lba
  simp only [Function.update_apply, imageOf, backupBoot, backupFsinfo, rsvd]

theorem parseBpb_bootSector (label : List UInt8) :
    parseBpb (bootSector totsec geo.fatsz (label11 label)) totsec =
      if geo.nclus ≤ maxNclus then .ok (infoOf totsec geo) else .error .corrupt := by
  obtain ⟨hf, hd, hsum, htwo, -, hlt⟩ := geometry_inside h
  obtain ⟨⟨h510, h511⟩, ⟨hbps, hspc, hrsvd, hnum⟩, ⟨h17, h19, h22, htot⟩, hfatsz, hroot, hfs, hback,
    hmedia⟩ := bootSector_fields (t := totsec) (f := geo.fatsz) (by simp only [u32]; omega)
      (by simp only [u32]; omega) (length_label11 label)
  have hdata : numFats * geo.fatsz + rsvd = geo.dataLba := hd.symm
  have hclus : (totsec - geo.dataLba) / spc = geo.nclus := by
    rw [Nat.div_one]
    omega
  dsimp only [parseBpb]
  rw [h510, h511, hbps, hspc, hrsvd, hnum, h17, h19, h22, htot, hfatsz, hroot, hfs, hback, hmedia,
    if_neg (by decide : ¬ (0 : Nat) ≠ 0), hdata, hclus]
  rw [if_neg (by decide), if_neg (by decide), if_neg (by decide), if_neg (by decide),
    if_neg (by decide), if_neg (by omega), if_neg (by omega), if_neg (by decide), if_neg]
  · by_cases hn : geo.nclus ≤ maxNclus
    · rw [if_neg (by omega), if_pos hn]
      rfl
    · rw [if_pos (by omega), if_neg hn]
  · simp only [u32, numFats]
    omega

theorem imageOf_table (lab : List UInt8) {k : Nat} (hk : k < geo.fatsz) :
    imageOf totsec geo lab (rsvd + k) = if k = 0 then fat0 else Buf.zero := by
  obtain ⟨-, hd, -⟩ := geometry_inside h
  simp only [imageOf, rsvd, backupBoot, backupFsinfo]
  rw [if_neg (by omega), if_neg (by omega)]
  by_cases hk : k = 0
  · rw [if_pos (by omega), if_pos hk]
  · rw [if_neg (by omega), if_neg (by omega), if_neg (by omega), if_neg (by omega),
      if_neg (by omega), if_neg hk]

theorem entryOf_image (lab : List UInt8) {c : Nat} (hc : c < geo.nclus + 2) :
    entryOf (fun k => imageOf totsec geo lab (rsvd + k)) c =
      if c = 0 then 0x0FFFFFF8 else if c < 3 then 0x0FFFFFFF else 0 := by
  obtain ⟨-, -, -, -, hfits, -⟩ := geometry_inside h
  unfold entryOf
  dsimp only
  rw [imageOf_table h lab (by simp only [sec]; omega)]
  by_cases h3 : c < 3
  · have hzero : c * 4 / sec = 0 := Nat.div_eq_of_lt (by simp only [sec]; omega)
    have hoff : c * 4 % sec = c * 4 := Nat.mod_eq_of_lt (by simp only [sec]; omega)
    rw [hzero, if_pos rfl, hoff, if_pos h3]
    exact entryOf_fat0 h3
  · have hfree : (if c * 4 / sec = 0 then fat0 else Buf.zero).getLE 4 (c * 4 % sec) = 0 := by
      split
      · rename_i hzero
        have hoff : 12 ≤ c * 4 % sec := by
          simp only [sec] at hzero ⊢
          omega
        rw [fat0, Buf.getLE_putLE_ne (by omega), Buf.getLE_putLE_ne (by omega),
          Buf.getLE_putLE_ne (by omega), Buf.getLE_zero]
      · exact Buf.getLE_zero _ _
    rw [hfree, if_neg (by omega), if_neg h3]
    rfl

theorem zeros_fresh (lab : List UInt8) :
    zeros (fresh totsec geo lab).ent 2 geo.nclus = geo.nclus - 1 := by
  obtain ⟨-, -, -, hn, -⟩ := geometry_inside h
  obtain ⟨m, hm⟩ : ∃ m, geo.nclus = m + 1 := ⟨geo.nclus - 1, by omega⟩
  have hroot : (fresh totsec geo lab).ent 2 ≠ 0 := by simp [fresh]
  rw [hm, zeros, if_neg hroot, zeros_eq]
  · omega
  · intro i hi _
    simp only [fresh]
    rw [if_neg (by omega), if_neg (by omega)]

theorem layout_infoOf (hn : geo.nclus ≤ maxNclus) : Layout (infoOf totsec geo) := by
  obtain ⟨-, hd, hsum, -, hfits, hlt⟩ := geometry_inside h
  refine ⟨by simp [infoOf], hd, ?_, hfits, hn, rfl, by simp [infoOf], ?_, ?_⟩
  · change geo.dataLba < 2 ^ 32
    omega
  · change 1 * 512 ≤ 4096
    omega
  · change geo.dataLba + geo.nclus * 1 < 2 ^ 32
    omega

theorem imageOf_reserved (lab : List UInt8) :
    imageOf totsec geo lab 0 = bootSector totsec geo.fatsz lab ∧
    imageOf totsec geo lab 1 = fsinfoSector geo.nclus ∧
    imageOf totsec geo lab (backupBoot + 1) = fsinfoSector geo.nclus := by
  obtain ⟨-, hd, -⟩ := geometry_inside h
  simp only [imageOf, rsvd, backupBoot, backupFsinfo]
  refine ⟨?_, ?_, ?_⟩
  · rw [if_neg (by omega), if_neg (by omega)]
    rfl
  · rw [if_neg (by omega), if_neg (by omega)]
    rfl
  · rw [if_neg (by omega), if_neg (by omega)]
    rfl

end

section Mount
variable {s : State}

theorem wp_readSector_fine (hs : s.disk.fates = .fine) {Q : Sector → State → Prop}
    {E : FatError → State → Prop} (lba : Nat)
    (h : Q (s.disk.data lba) { s with disk := { s.disk with nread := s.disk.nread + 1 } }) :
    (readSector lba).wp Q E s := by
  have hr : s.disk.reads s.disk.nread = .ok := congrFun (congrArg Fates.reads hs) _
  unfold readSector diskRead
  simp only [Eff.wp_bind, Eff.wp_get, Eff.wp_modify, Eff.wp_pure, hr, Eff.wp_ofExcept]
  exact h

/-- The volume while it is being mounted from a new image, before its clusters are counted. -/
structure Ready (totsec : Nat) (geo : Geometry) (lab : List UInt8) (hint : Nat) (s : State) :
    Prop where
  info : s.vol.info = infoOf totsec geo
  cache : s.vol.cache = fun _ => .empty
  data : s.disk.data = imageOf totsec geo lab
  fates : s.disk.fates = .fine
  hint : s.vol.hint = hint

variable {lab : List UInt8} {hint : Nat} (h : geometry totsec = .ok geo)
include h

theorem Ready.takeFsinfo (hr : Ready totsec geo lab hint s) :
    (Fat.takeFsinfo (infoOf totsec geo)).wp (fun _ => Ready totsec geo lab 3)
    (fun _ _ => False) s := by
  obtain ⟨-, hfs, -⟩ := imageOf_reserved h lab
  obtain ⟨hvalid, hhint⟩ := fsinfoSector_valid geo.nclus
  obtain ⟨-, -, -, htwo, -⟩ := geometry_inside h
  have hpast : (infoOf totsec geo).pastEnd 3 = false := by
    change (true && decide (geo.nclus ≤ 1)) = false
    rw [Bool.true_and, decide_eq_false_iff_not]
    omega
  unfold Fat.takeFsinfo
  rw [Eff.wp_bind, if_pos (by simp [infoOf, rsvd])]
  refine wp_readSector_fine hr.fates _ ?_
  have hsec : s.disk.data (infoOf totsec geo).fsinfo = fsinfoSector geo.nclus := by
    rw [hr.data]
    exact hfs
  have hhas : hasFsinfo (infoOf totsec geo) (infoOf totsec geo).fsinfo (fsinfoSector geo.nclus)
      = true := by
    simp [hasFsinfo, infoOf, rsvd, hvalid]
  rw [hsec, hhint, if_pos hhas, Eff.wp_modify]
  dsimp only
  rw [if_pos ⟨by decide, hpast⟩]
  exact ⟨hr.info, hr.cache, hr.data, hr.fates, rfl⟩

theorem Ready.takeBackup (hr : Ready totsec geo lab hint s) :
    (Fat.takeBackup (infoOf totsec geo)).wp (fun _ => Ready totsec geo lab hint) (fun _ _ => False)
      s := by
  obtain ⟨-, -, hback⟩ := imageOf_reserved h lab
  obtain ⟨hvalid, -⟩ := fsinfoSector_valid geo.nclus
  unfold Fat.takeBackup
  simp only [Eff.wp_bind, Eff.wp_get]
  rw [hr.info, if_neg (by simp [infoOf, rsvd, backupBoot]), Eff.wp_bind]
  refine wp_readSector_fine hr.fates _ ?_
  have hsec : s.disk.data ((infoOf totsec geo).backup + 1) = fsinfoSector geo.nclus := by
    rw [hr.data]
    exact hback
  rw [hsec, if_pos hvalid]
  exact ⟨hr.info, hr.cache, hr.data, hr.fates, hr.hint⟩

theorem Ready.holds (hr : Ready totsec geo lab 3 s) :
    At (infoOf totsec geo) .fine { fresh totsec geo lab with free := s.vol.free } 0 s where
  info := hr.info
  fates := hr.fates
  table := by
    have hb : Blank (infoOf totsec geo) (imageOf totsec geo lab) s := by
      refine ⟨hr.cache, hr.data, by rw [hr.info], by rw [hr.info], .inr ?_⟩
      rw [hr.info]
      change 1 < 32
      omega
    refine ⟨_, hb.shows (by simp [infoOf]) (by simp [infoOf]), fun c hc => ?_⟩
    exact entryOf_image h lab hc
  data lba _ := by rw [hr.data]; rfl
  free := rfl
  hint := hr.hint
  faults := faults_fine hr.fates

theorem wp_mountIn_image (hn : geo.nclus ≤ maxNclus) (label : List UInt8)
    (hdata : s.disk.data = imageOf totsec geo (label11 label)) (hsec : s.disk.sectorSize = sec)
    (hnum : s.disk.nsectors = totsec) (hs : s.disk.fates = .fine) :
    mountIn.wp (fun _ => At (infoOf totsec geo) .fine (fresh totsec geo (label11 label)) 0)
      (fun _ _ => False) s := by
  obtain ⟨hboot, -, -⟩ := imageOf_reserved h (label11 label)
  have hl := layout_infoOf h hn
  have hcb : (infoOf totsec geo).clusBytes ≠ 0 ∧ (infoOf totsec geo).clusBytes ≤ maxClusBytes := by
    simp [FatInfo.clusBytes, infoOf, sec, maxClusBytes]
  unfold mountIn
  simp only [Eff.wp_bind, Eff.wp_get, Eff.wp_modify, Eff.wp_require]
  rw [if_pos hsec]
  refine wp_readSector_fine (s := { s with vol := .new }) hs 0 ?_
  change Eff.wp (Eff.ofExcept (parseBpb (s.disk.data 0) s.disk.nsectors)) _ _ _
  rw [hdata, hboot, hnum, parseBpb_bootSector h label, if_pos hn, Eff.wp_ofExcept]
  dsimp only
  rw [if_pos hcb]
  have hready : Ready totsec geo (label11 label) 2
      { vol := { FatVol.new with info := infoOf totsec geo },
        disk := { s.disk with nread := s.disk.nread + 1 } } :=
    ⟨rfl, rfl, hdata, hs, rfl⟩
  refine Eff.wp_mono (hready.takeFsinfo h) (fun _ t ht => ?_) fun _ _ => id
  refine Eff.wp_mono (ht.takeBackup h) (fun _ t ht => ?_) fun _ _ => id
  refine Eff.wp_mono
    ((ht.holds h).countFree hl Fates.gentle_fine.reads geo.nclus 0 (by simp [infoOf]; omega))
    (fun x t' ht' => ?_) fun _ _ ht' => ht'.not_fine
  have hfree := ht'.2.setFree x
  rw [ht'.1] at hfree ⊢
  have hcount : 0 + zeros (fresh totsec geo (label11 label)).ent 2 geo.nclus = geo.nclus - 1 := by
    rw [zeros_fresh h, Nat.zero_add]
  have himage : ({ fresh totsec geo (label11 label) with
      free := 0 + zeros (fresh totsec geo (label11 label)).ent 2 geo.nclus } : Image) =
        fresh totsec geo (label11 label) := by
    rw [hcount]
    rfl
  rw [← himage]
  exact hfree

theorem wp_mountIn_corrupt (hn : maxNclus < geo.nclus) (label : List UInt8)
    (hdata : s.disk.data = imageOf totsec geo (label11 label)) (hsec : s.disk.sectorSize = sec)
    (hnum : s.disk.nsectors = totsec) (hs : s.disk.fates = .fine) :
    mountIn.wp (fun _ _ => False) (fun e _ => e = .corrupt) s := by
  obtain ⟨hboot, -, -⟩ := imageOf_reserved h (label11 label)
  unfold mountIn
  simp only [Eff.wp_bind, Eff.wp_get, Eff.wp_modify, Eff.wp_require]
  rw [if_pos hsec]
  refine wp_readSector_fine (s := { s with vol := .new }) hs 0 ?_
  change Eff.wp (Eff.ofExcept (parseBpb (s.disk.data 0) s.disk.nsectors)) _ _ _
  rw [hdata, hboot, hnum, parseBpb_bootSector h label, if_neg (by omega), Eff.wp_ofExcept]

end Mount

/-- A disk that holds an image and never fails. -/
def memDisk (totsec : Nat) (img : Nat → Sector) : Disk where
  sectorSize := sec
  nsectors := totsec
  data := img
  reads _ := .ok
  writes _ := .ok
  flushes _ := .ok
  nread := 0
  nwrite := 0
  nflush := 0

def remount (totsec : Nat) (label : List UInt8) : Except FatError FatVol :=
  match mkfs (totsec * sec) label with
  | .error e => .error e
  | .ok (_, img) =>
    match mountIn ⟨.new, memDisk totsec img⟩ with
    | (.error e, _) => .error e
    | (.ok _, s) => .ok s.vol

theorem remount_ok (h : geometry totsec = .ok geo) (hn : geo.nclus ≤ maxNclus)
    (label : List UInt8) : ∃ vol, remount totsec label = .ok vol ∧ vol.info = infoOf totsec geo ∧
      vol.free = geo.nclus - 1 := by
  have hwp :=
    wp_mountIn_image (s := ⟨.new, memDisk totsec (imageOf totsec geo (label11 label))⟩) h hn
    label rfl rfl rfl rfl
  rw [remount, mkfs_eq h]
  dsimp only
  unfold Eff.wp at hwp
  split at hwp
  · rename_i s' hrun
    rw [hrun]
    exact ⟨s'.vol, rfl, hwp.info, hwp.free⟩
  · exact hwp.elim

theorem remount_corrupt (h : geometry totsec = .ok geo) (hn : maxNclus < geo.nclus)
    (label : List UInt8) : remount totsec label = .error .corrupt := by
  have hwp :=
    wp_mountIn_corrupt (s := ⟨.new, memDisk totsec (imageOf totsec geo (label11 label))⟩) h
    hn label rfl rfl rfl rfl
  rw [remount, mkfs_eq h]
  dsimp only
  unfold Eff.wp at hwp
  split at hwp
  · exact hwp.elim
  · rename_i e s' hrun
    rw [hrun, hwp]

/-- What formatting lays out: the table holds an entry for each cluster, and no smaller one would
exactly for the totals given; the clusters are no more than a volume may have, and mounting finds
all of them but the root's free, exactly up to `maxSectors`; the search for an image finds the
smallest one with room. -/
theorem geometry_layout (h : geometry totsec = .ok geo) :
    geo.nclus + 2 ≤ geo.fatsz * (sec / 4) ∧ geo.dataLba = 32 + 2 * geo.fatsz ∧
    geo.nclus = totsec - geo.dataLba ∧
    ((∀ f < geo.fatsz, ¬ Holds totsec f) ↔ 130 * ((totsec + 95) / 128 - 1) + 30 < totsec) ∧
    (geo.nclus ≤ maxNclus ↔ totsec ≤ maxSectors) ∧
    (∀ label, (∃ vol, remount totsec label = .ok vol ∧ vol.info = infoOf totsec geo ∧
      vol.free = geo.nclus - 1) ↔ totsec ≤ maxSectors) ∧
    ∀ dataClusters freeBytes,
      (∀ t, imageSectors dataClusters freeBytes = .ok t →
        t < u32 ∧ Roomy dataClusters freeBytes t ∧ ∀ t' < t, ¬ Roomy dataClusters freeBytes t') ∧
      (∀ e, imageSectors dataClusters freeBytes = .error e →
        ∀ t < u32, ¬ Roomy dataClusters freeBytes t) := by
  obtain ⟨-, hd, hsum, -, hfits, -⟩ := geometry_inside h
  refine ⟨hfits, by omega, by omega, minimal_iff h, nclus_le_iff h, fun label => ?_,
    imageSectors_spec⟩
  rw [← nclus_le_iff h]
  refine ⟨?_, fun hn => remount_ok h hn label⟩
  rintro ⟨vol, hvol, -⟩
  by_contra hover
  have hcorrupt := remount_corrupt h (Nat.not_le.mp hover) label
  rw [hvol] at hcorrupt
  cases hcorrupt

theorem geometry_hundred : geometry 100 = .ok ⟨1, 34, 66⟩ := by
  rw [geometry_eq]
  decide

theorem geometry_layout_hundred :
    (∀ f < 1, ¬ Holds 100 f) ∧ ∃ vol, remount 100 [] = .ok vol ∧ vol.free = 65 := by
  obtain ⟨-, -, -, hmin, -, hmount, -⟩ := geometry_layout geometry_hundred
  obtain ⟨vol, hvol, -, hfree⟩ := (hmount []).mpr (by decide)
  exact ⟨hmin.mpr (by decide), vol, hvol, hfree⟩

/-- Over the even share the table found is larger than it has to be, and a large image is laid
out with more clusters than a volume may have and is then not mounted. -/
theorem geometry_over :
    (geometry 289 = .ok ⟨3, 38, 251⟩ ∧ Holds 289 2) ∧
    (geometry (2 ^ 30) = .ok ⟨8388608, 16777248, 1056964576⟩ ∧ maxNclus < 1056964576 ∧
      remount (2 ^ 30) [] = .error .corrupt) := by
  have hbig : geometry (2 ^ 30) = .ok ⟨8388608, 16777248, 1056964576⟩ := by
    rw [geometry_eq, if_pos (by decide)]
    rfl
  refine ⟨⟨?_, ?_⟩, hbig, by decide, remount_corrupt hbig (by decide) []⟩
  · rw [geometry_eq]
    decide
  · simp only [Holds, clusters_eq, sec]
    decide

end VibeOS.Fat.Mkfs
