import VibeOS.Fat.TableSpec

/-!
Runs over a mounted volume. A read of the table gives what the latest successful write of that
entry stored, or what the first copy held at the mount, along every run in which no failed read
spoils a slot in use; a run in which one does reads the spoiled bytes back.
-/
namespace VibeOS.Fat
open Lib

inductive Op where
  | get (clu : Nat)
  | set (clu val : Nat)
  | commit
  | sync

def Op.exec : Op → V (Option Nat)
  | .get clu => do
    let x ← fatGet clu
    pure (some x)
  | .set clu val => do
    fatSet clu val
    pure none
  | .commit => do
    commitFat
    pure none
  | .sync => do
    Fat.sync
    pure none

abbrev Event := Op × Except FatError (Option Nat)

/-- The operations in turn, each with its outcome. -/
def runOps : List Op → State → List Event × State
  | [], s => ([], s)
  | op :: ops, s =>
      ((op, (op.exec s).1) :: (runOps ops (op.exec s).2).1, (runOps ops (op.exec s).2).2)

/-- What an event stored for a cluster. -/
def Event.stored (clu : Nat) : Event → Option Nat
  | (.set c val, .ok _) => if clu = c then some (val &&& entMask) else none
  | _ => none

/-- What the latest successful write of a cluster's entry stored. -/
def latest (clu : Nat) : List Event → Option Nat
  | [] => none
  | e :: es => (latest clu es).or (e.stored clu)

/-- At every operation of the run, the next read spares the slots in use. -/
def SparesRun : State → List Op → Prop
  | _, [] => True
  | s, op :: ops => Spares s ∧ SparesRun (op.exec s).2 ops

instance : ∀ (s : State) (ops : List Op), Decidable (SparesRun s ops)
  | _, [] => .isTrue trivial
  | s, op :: ops =>
    have := instDecidableSparesRun (op.exec s).2 ops
    inferInstanceAs (Decidable (Spares s ∧ SparesRun (op.exec s).2 ops))

variable {r : Nat} {F : Nat → Sector} {s s' : State}

def Event.table (F : Nat → Sector) : Event → Nat → Sector
  | (.set clu val, .ok _) => setEntry F clu val
  | _ => F

theorem Event.entryOf_table (F : Nat → Sector) (e : Event) (clu : Nat) :
    entryOf (e.table F) clu = (e.stored clu).getD (entryOf F clu) := by
  unfold Event.table Event.stored
  split
  · rw [entryOf_setEntry]
    split <;> rfl
  · rfl

theorem Shows.exec (h : Shows r F s) (hs : Spares s) (op : Op) :
    Shows r (Event.table F (op, (op.exec s).1)) (op.exec s).2 := by
  have hwp : op.exec.wp (fun x s' => Shows r (Event.table F (op, .ok x)) s')
      (fun e s' => Shows r (Event.table F (op, .error e)) s') s := by
    cases op with
    | get clu =>
      rw [Op.exec, Eff.wp_bind]
      exact Eff.wp_mono (wp_fatGet h clu) (fun _ _ hs' => hs'.1) fun _ _ hs' => hs' hs
    | set clu val =>
      rw [Op.exec, Eff.wp_bind]
      exact Eff.wp_mono (wp_fatSet h clu val) (fun _ _ => id) fun _ _ hs' => hs' hs
    | commit =>
      rw [Op.exec, Eff.wp_bind]
      exact wp_commitFat h
    | sync =>
      rw [Op.exec, Eff.wp_bind]
      exact wp_sync h
  unfold Eff.wp at hwp
  split at hwp <;> rename_i heq <;> rw [heq] <;> exact hwp

theorem Shows.runOps (ops : List Op) (h : Shows r F s) (hs : SparesRun s ops) :
    ∃ F', Shows r F' (runOps ops s).2 ∧
      ∀ clu, entryOf F' clu = (latest clu (runOps ops s).1).getD (entryOf F clu) := by
  induction ops generalizing F s with
  | nil => exact ⟨F, h, fun _ => rfl⟩
  | cons op ops ih =>
    obtain ⟨F', hF', hent⟩ := ih (h.exec hs.1 op) hs.2
    refine ⟨F', hF', fun clu => ?_⟩
    rw [hent, Event.entryOf_table, Fat.runOps, latest]
    cases latest clu (Fat.runOps ops (op.exec s).2).1 <;> rfl

theorem wp_countFree (h : Shows r F s) (c acc n : Nat) :
    (countFree c acc n).wp (fun _ s' => Shows r F s') (fun _ _ => True) s := by
  induction n generalizing c acc s with
  | zero => exact h
  | succ n ih =>
    rw [countFree, Eff.wp_bind]
    exact Eff.wp_mono (wp_fatGet h c) (fun _ _ hs => ih hs.1 _ _) fun _ _ _ => trivial

theorem parseBpb_ok {boot : Sector} {n : Nat} {info : FatInfo} (h : parseBpb boot n = .ok info) :
    0 < info.numFats ∧ 0 < info.rsvd := by
  dsimp only [parseBpb] at h
  generalize (if boot.getLE 2 19 ≠ 0 then boot.getLE 2 19 else boot.getLE 4 32) = totsec at h
  split_ifs at h with _ _ _ hn
  cases h
  dsimp only
  omega

/-- An empty cache over the disk `d` of a volume whose FSInfo is in the reserved area. -/
structure Blank (info : FatInfo) (d : Nat → Sector) (s : State) : Prop where
  cache : s.vol.cache = fun _ => .empty
  data : s.disk.data = d
  numFats : s.vol.info.numFats = info.numFats
  rsvd : s.vol.info.rsvd = info.rsvd
  fsinfo : s.vol.info.fsinfo = 0 ∨ s.vol.info.fsinfo < info.rsvd

theorem Blank.shows {info : FatInfo} {d : Nat → Sector} (h : Blank info d s) (hn : 0 < info.numFats)
    (hr : 0 < info.rsvd) : Shows info.rsvd (fun k => d (info.rsvd + k)) s := by
  have hused : ∀ i, (s.vol.cache i).used = false := fun i => by rw [h.cache]; rfl
  have hdirty : ∀ i, (s.vol.cache i).dirty = false := fun i => by rw [h.cache]; rfl
  refine ⟨h.rsvd, h.numFats ▸ hn, ?_, fun i hi => ?_, fun i hi => ?_, fun i j hi => ?_,
    fun i hi => ?_, fun k _ _ => congrFun h.data _⟩
  · rcases h.fsinfo with h0 | hlt
    · rw [h0]
      exact hr
    · exact hlt
  · simp [hused] at hi
  · simp [hused] at hi
  · simp [hused] at hi
  · simp [hdirty] at hi

theorem wp_readSector {Q : Sector → State → Prop} (lba : Nat)
    (h : ∀ b, Q b { s with disk := { s.disk with nread := s.disk.nread + 1 } }) :
    (readSector lba).wp Q (fun _ _ => True) s := by
  unfold readSector diskRead
  simp only [Eff.wp_bind, Eff.wp_get, Eff.wp_modify, Eff.wp_pure]
  exact Eff.wp_ofExcept_of (fun _ _ => h _) fun _ _ => trivial

theorem wp_takeFsinfo {info : FatInfo} (hc : s.vol.cache = fun _ => .empty)
    (hi : s.vol.info = info) :
    (takeFsinfo info).wp (fun _ => Blank info s.disk.data) (fun _ _ => True) s := by
  unfold takeFsinfo hasFsinfo
  simp only [Eff.wp_bind, Eff.wp_ite, Eff.wp_modify, Eff.wp_pure]
  split
  · rename_i hin
    refine wp_readSector _ fun fs => ?_
    split
    · split
      · exact ⟨hc, rfl, hi ▸ rfl, hi ▸ rfl, .inr (hi ▸ hin.2)⟩
      · exact ⟨hc, rfl, hi ▸ rfl, hi ▸ rfl, .inr (hi ▸ hin.2)⟩
    · exact ⟨hc, rfl, hi ▸ rfl, hi ▸ rfl, .inl rfl⟩
  · rename_i hin
    split
    · rename_i hv
      simp only [Bool.and_eq_true, decide_eq_true_eq] at hv
      exact absurd hv.1 hin
    · exact ⟨hc, rfl, hi ▸ rfl, hi ▸ rfl, .inl rfl⟩

theorem wp_takeBackup {info : FatInfo} {d : Nat → Sector} (h : Blank info d s) :
    (takeBackup info).wp (fun _ => Blank info d) (fun _ _ => True) s := by
  unfold takeBackup
  simp only [Eff.wp_bind, Eff.wp_get, Eff.wp_ite, Eff.wp_modify, Eff.wp_pure]
  split
  · exact ⟨h.cache, h.data, h.numFats, h.rsvd, h.fsinfo⟩
  · refine wp_readSector _ fun fs => ?_
    split
    · exact ⟨h.cache, h.data, h.numFats, h.rsvd, h.fsinfo⟩
    · exact ⟨h.cache, h.data, h.numFats, h.rsvd, h.fsinfo⟩

theorem wp_mountIn (s : State) :
    mountIn.wp (fun _ s' => Shows s'.vol.info.rsvd (fun k => s.disk.data (s'.vol.info.rsvd + k)) s')
      (fun _ _ => True) s := by
  unfold mountIn
  simp only [Eff.wp_bind, Eff.wp_get, Eff.wp_modify]
  refine Eff.wp_require_of (fun _ => ?_) fun _ => trivial
  refine wp_readSector _ fun boot => ?_
  refine Eff.wp_ofExcept_of (fun info hinfo => ?_) fun _ _ => trivial
  obtain ⟨hn, hr⟩ := parseBpb_ok hinfo
  refine Eff.wp_require_of (fun _ => ?_) fun _ => trivial
  refine Eff.wp_mono (wp_takeFsinfo rfl rfl) (fun _ s₁ hs₁ => ?_) fun _ _ => id
  refine Eff.wp_mono (wp_takeBackup hs₁) (fun _ s' hs' => ?_) fun _ _ => id
  refine Eff.wp_mono (wp_countFree (hs'.shows hn hr) _ _ _) (fun _ s'' hs'' => ?_) fun _ _ => id
  rw [hs''.rsvd]
  exact hs''.congr rfl rfl fun _ _ => rfl

/-- The value of a cluster's entry in the first copy of the table on a disk. -/
def onDisk (info : FatInfo) (d : Disk) (clu : Nat) : Nat :=
  entryOf (fun k => d.data (info.rsvd + k)) clu

/-- Every read of the table gives what the latest successful write stored there, or what the
first copy on the disk held when the volume was mounted. -/
theorem fatGet_latest {s₀ s : State} (hm : mountIn s₀ = (.ok (), s)) (ops : List Op)
    (hs : SparesRun s ops) {clu x : Nat} (h : (fatGet clu (runOps ops s).2).1 = .ok x) :
    x = (latest clu (runOps ops s).1).getD (onDisk s.vol.info s₀.disk clu) := by
  have hmount := (Eff.wp_iff_run.mp (wp_mountIn s₀)).1 _ _ hm
  obtain ⟨F, hF, hent⟩ := hmount.runOps ops hs
  have hget := (Eff.wp_iff_run.mp (wp_fatGet hF clu)).1 x (fatGet clu (runOps ops s).2).2
    (Prod.ext h rfl)
  rw [hget.2, hent, onDisk]

/-- A boot sector: one reserved sector, one copy of a table of nine sectors, 1023 clusters of
one sector. -/
def bootNine : Sector := fun i =>
  match i.val with
  | 12 => 2
  | 13 => 1
  | 14 => 1
  | 16 => 1
  | 19 => 9
  | 20 => 4
  | 36 => 9
  | 44 => 2
  | 510 => 0x55
  | 511 => 0xAA
  | _ => 0

/-- An empty volume on a disk whose eleventh read, the first after the mount, fails and leaves
`left` in its buffer. -/
def nineSectors (left : Option Sector) : State where
  vol := .new
  disk :=
    { sectorSize := sec, nsectors := 1033, data := fun n => if n = 0 then bootNine else Buf.zero,
      reads := fun n => if n = 10 then .fail .io left else .ok, writes := fun _ => .ok,
      flushes := fun _ => .ok, nread := 0, nwrite := 0, nflush := 0 }

theorem mountIn_of_ok (h : (mountIn s).1 = .ok ()) : mountIn s = (.ok (), (mountIn s).2) :=
  Prod.ext h rfl

/-- Cluster 5 is in sector 0, and reading it after the mount loads over sector 8, the last one
the mount read. -/
theorem fatGet_latest_nineSectors :
    ∃ s, mountIn (nineSectors none) = (.ok (), s) ∧ SparesRun s [.set 1024 7, .get 5, .commit] ∧
      (fatGet 1024 (runOps [.set 1024 7, .get 5, .commit] s).2).1 = .ok 7 ∧
      7 = (latest 1024 (runOps [.set 1024 7, .get 5, .commit] s).1).getD
        (onDisk s.vol.info (nineSectors none).disk 1024) := by
  have hm : (mountIn (nineSectors none)).1 = .ok () := by decide +kernel
  have hs : SparesRun (mountIn (nineSectors none)).2 [.set 1024 7, .get 5, .commit] := by
    decide +kernel
  have hget : (fatGet 1024
      (runOps [.set 1024 7, .get 5, .commit] (mountIn (nineSectors none)).2).2).1 = .ok 7 := by
    decide +kernel
  exact ⟨_, mountIn_of_ok hm, hs, hget, fatGet_latest (mountIn_of_ok hm) _ hs hget⟩

/-- A load that fails over sector 8 leaves its slot marked as sector 8 with the failed read's
bytes, which a later read of cluster 1024 returns. -/
theorem fatGet_spoiled :
    ∃ s, mountIn (nineSectors (some fun _ => 1)) = (.ok (), s) ∧
      (fatGet 1024 (runOps [.get 5] s).2).1 = .ok 0x01010101 ∧
      latest 1024 (runOps [.get 5] s).1 = none ∧
      onDisk s.vol.info (nineSectors (some fun _ => 1)).disk 1024 = 0 := by
  have hm : (mountIn (nineSectors (some fun _ => 1))).1 = .ok () := by decide +kernel
  exact ⟨_, mountIn_of_ok hm, by decide +kernel, by decide +kernel, by decide +kernel⟩

end VibeOS.Fat
