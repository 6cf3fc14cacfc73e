import VibeOS.Block.Part

/-!
Handles to block devices. A disk's requests go to its cache, where it has one, or to its driver; a
partition is a window on its parent and hands its requests up, each range checked in the
partition's own sectors and moved by its start. Every operation first enters the gate of each
device it goes through, and any of those entries may find the gate closed.
-/
namespace VibeOS.Block
open Lib

def diskNameLen : Nat := 32

def nameByteOk (b : UInt8) : Bool :=
  (48 ≤ b && b ≤ 57) || (65 ≤ b && b ≤ 90) || (97 ≤ b && b ≤ 122) || b == 46 || b == 95 || b == 45

/-- 1 to 32 bytes of `[A-Za-z0-9._-]`, not starting with `.`. -/
def nameOk (n : List UInt8) : Bool :=
  n ≠ [] && n.length ≤ diskNameLen && n.head? ≠ some 46 && n.all nameByteOk

structure BlockName where
  bytes : List UInt8
  ok : nameOk bytes = true
  deriving DecidableEq

/-- A partition's window on its disk, in the disk's logical blocks. -/
structure PartInfo where
  start : Nat
  nsect : Nat
  kind : PartKind
  deriving DecidableEq

/-- What a disk's driver reports, and whether a cache stands in front of it. -/
structure DiskInfo where
  blockSize : Nat
  capacity : Nat
  readOnly : Bool
  cached : Bool
  deriving DecidableEq

inductive BlockRef where
  | disk (id : Nat) (name : BlockName) (info : DiskInfo)
  | part (id : Nat) (name : BlockName) (parent : BlockRef) (info : PartInfo)
  deriving DecidableEq

/-- Map a child's range onto the parent. -/
def mapChildLba (start nsect lba count : Nat) : Except BlockError Nat :=
  match checkedAdd lba count with
  | none => .error .inval
  | some stop =>
    if count = 0 ∨ stop > nsect then .error .inval
    else (checkedAdd start lba).elim (.error .inval) .ok

theorem mapChildLba_eq_ok {start nsect lba count plba : Nat}
    (h : mapChildLba start nsect lba count = .ok plba) :
    plba = start + lba ∧ 0 < count ∧ lba + count ≤ nsect := by
  unfold mapChildLba at h
  cases hstop : checkedAdd lba count with
  | none =>
    rw [hstop] at h
    cases h
  | some stop =>
    obtain ⟨rfl, -⟩ := checkedAdd_eq_some.mp hstop
    rw [hstop] at h
    dsimp only at h
    split at h
    · cases h
    · rename_i hin
      cases hadd : checkedAdd start lba with
      | none =>
        rw [hadd] at h
        cases h
      | some l =>
        obtain ⟨rfl, -⟩ := checkedAdd_eq_some.mp hadd
        rw [hadd] at h
        obtain rfl := Except.ok.inj h
        exact ⟨rfl, by omega, by omega⟩

inductive Via where
  | cache | driver
  deriving DecidableEq, Repr

/-- A request as the root disk gets it: `len` counts bytes, or sectors of a discard. -/
structure RootReq where
  op : Op
  via : Via
  lba : Nat
  len : Nat
  deriving DecidableEq, Repr

/-- The gates entered so far, and the requests passed to the root disk. -/
structure IoState where
  entered : Nat
  passed : List RootReq

namespace BlockRef

section
-- whether the `k`th entry of a gate finds it open, and what the root disk answers
variable (gateOpen : Nat → Bool) (answer : RootReq → Except BlockError Unit)

def enter : Eff IoState BlockError Unit :=
  fun s =>
    (if gateOpen s.entered then .ok () else .error .gone, { s with entered := s.entered + 1 })

def pass (r : RootReq) : Eff IoState BlockError Unit :=
  fun s => (answer r, { s with passed := s.passed ++ [r] })

def logicalBlockSize : BlockRef → Eff IoState BlockError Nat
  | .disk _ _ info => do
    enter gateOpen
    return info.blockSize
  | .part _ _ parent _ => do
    enter gateOpen
    parent.logicalBlockSize

/-- The parent LBA of a partition range of `bytes` bytes at `lba`. -/
def map (parent : BlockRef) (info : PartInfo) (lba bytes : Nat) : Eff IoState BlockError Nat := do
  let bs ← parent.logicalBlockSize gateOpen
  Eff.require (bs ≠ 0 ∧ bytes % bs = 0) .inval
  Eff.ofExcept (mapChildLba info.start info.nsect lba (bytes / bs))

def read : BlockRef → (lba bytes : Nat) → Eff IoState BlockError Unit
  | .part _ _ parent info, lba, bytes => do
    enter gateOpen
    let plba ← map gateOpen parent info lba bytes
    parent.read plba bytes
  | .disk _ _ info, lba, bytes => do
    enter gateOpen
    pass answer ⟨.read, if info.cached then .cache else .driver, lba, bytes⟩

def write : BlockRef → (lba bytes : Nat) → Eff IoState BlockError Unit
  | .part _ _ parent info, lba, bytes => do
    enter gateOpen
    let plba ← map gateOpen parent info lba bytes
    parent.write plba bytes
  | .disk _ _ info, lba, bytes => do
    enter gateOpen
    Eff.require (¬ (info.cached ∧ info.readOnly)) .readOnly
    pass answer ⟨.write, if info.cached then .cache else .driver, lba, bytes⟩

def discard : BlockRef → (lba n : Nat) → Eff IoState BlockError Unit
  | .part _ _ parent info, lba, n => do
    enter gateOpen
    let plba ← Eff.ofExcept (mapChildLba info.start info.nsect lba n)
    parent.discard plba n
  | .disk _ _ _, lba, n => do
    enter gateOpen
    pass answer ⟨.discard, .driver, lba, n⟩

end

/-- The disk below a chain of partitions. -/
def rootInfo : BlockRef → DiskInfo
  | .disk _ _ info => info
  | .part _ _ parent _ => parent.rootInfo

/-- The sum of the starts of a chain of partitions. -/
def absStart : BlockRef → Nat
  | .disk _ _ _ => 0
  | .part _ _ parent info => parent.absStart + info.start

/-- The absolute windows of a chain's partitions: first sector and number of sectors. -/
def windows : BlockRef → List (Nat × Nat)
  | .disk _ _ _ => []
  | .part _ _ parent info => (parent.absStart + info.start, info.nsect) :: parent.windows

/-- The range of `len` from sector `lba` on lies inside every window of the chain; a sector has the
length `unit`. -/
def Confined (dev : BlockRef) (unit lba len : Nat) : Prop :=
  ∀ win ∈ dev.windows, win.1 ≤ lba ∧ lba * unit + len ≤ (win.1 + win.2) * unit

/-- One range was passed to the root disk: as long as the request, at the sum of the starts plus the
requested sector, and inside every window of the chain. -/
def Passed (dev : BlockRef) (op : Op) (unit lba len : Nat) (s s' : IoState) : Prop :=
  ∃ r, s'.passed = s.passed ++ [r] ∧ r.op = op ∧ r.lba = dev.absStart + lba ∧ r.len = len ∧
    dev.Confined unit r.lba r.len

/-- The request fails with nothing passed to the root disk, or one range was passed to it. -/
def Fate (dev : BlockRef) (op : Op) (unit lba len : Nat) (m : Eff IoState BlockError Unit)
    (s : IoState) : Prop :=
  (∃ e, (m s).1 = .error e) ∧ (m s).2.passed = s.passed ∨ dev.Passed op unit lba len s (m s).2

section
variable {gateOpen : Nat → Bool} {answer : RootReq → Except BlockError Unit} {s : IoState}
  {parent : BlockRef} {info : PartInfo} {unit lba len : Nat}

theorem wp_enter {Q : Unit → IoState → Prop} {E : BlockError → IoState → Prop}
    (hQ : Q () { s with entered := s.entered + 1 })
    (hE : E .gone { s with entered := s.entered + 1 }) : (enter gateOpen).wp Q E s := by
  unfold Eff.wp enter
  split
  · rename_i h
    obtain ⟨-, rfl⟩ := Prod.mk.inj h
    exact hQ
  · rename_i h
    obtain ⟨h₁, rfl⟩ := Prod.mk.inj h
    split at h₁
    · cases h₁
    · cases h₁
      exact hE

theorem wp_logicalBlockSize (dev : BlockRef) (s : IoState) :
    (dev.logicalBlockSize gateOpen).wp
      (fun bs s' => bs = dev.rootInfo.blockSize ∧ s'.passed = s.passed)
      (fun _ s' => s'.passed = s.passed) s := by
  induction dev generalizing s with
  | disk id name info =>
    rw [logicalBlockSize, Eff.wp_bind]
    exact wp_enter ⟨rfl, rfl⟩ rfl
  | part id name parent info ih =>
    rw [logicalBlockSize, Eff.wp_bind]
    exact wp_enter (ih _) rfl

theorem Confined.part (id : Nat) (name : BlockName) (h : lba * unit + len ≤ info.nsect * unit)
    (hp : parent.Confined unit (parent.absStart + (info.start + lba)) len) :
    (BlockRef.part id name parent info).Confined unit
      ((BlockRef.part id name parent info).absStart + lba) len := by
  have hsum : (BlockRef.part id name parent info).absStart + lba =
      parent.absStart + (info.start + lba) := Nat.add_assoc ..
  rw [hsum]
  refine List.forall_mem_cons.mpr ⟨⟨?_, ?_⟩, hp⟩
  · exact Nat.add_le_add_left (Nat.le_add_right _ _) _
  · change (parent.absStart + (info.start + lba)) * unit + len ≤
      (parent.absStart + info.start + info.nsect) * unit
    simp only [Nat.add_mul]
    omega

theorem fate_iff_wp {dev : BlockRef} {op : Op} {m : Eff IoState BlockError Unit} :
    dev.Fate op unit lba len m s ↔
      m.wp (fun _ s' => dev.Passed op unit lba len s s')
        (fun _ s' => s'.passed = s.passed ∨ dev.Passed op unit lba len s s') s := by
  unfold Fate Eff.wp
  split
  · rename_i s' h
    simp [h]
  · rename_i e s' h
    simp [h]

/-- Requests that every partition of a chain checks and hands up. `unit` is the length of a sector,
on a disk of a given block size. -/
theorem fate_of_handed (op : Op) (len : Nat) (unit : DiskInfo → Nat)
    {f : BlockRef → Nat → Eff IoState BlockError Unit}
    {mapped : BlockRef → PartInfo → Nat → Eff IoState BlockError Nat}
    (hpart : ∀ id name parent info lba, f (.part id name parent info) lba =
      enter gateOpen >>= fun _ => mapped parent info lba >>= fun plba => f parent plba)
    (hmapped : ∀ parent info lba s, (mapped parent info lba).wp
      (fun plba s' => s'.passed = s.passed ∧ plba = info.start + lba ∧
        lba * unit parent.rootInfo + len ≤ info.nsect * unit parent.rootInfo)
      (fun _ s' => s'.passed = s.passed) s)
    (hdisk : ∀ id name info lba s,
      (BlockRef.disk id name info).Fate op (unit info) lba len (f (.disk id name info) lba) s)
    (dev : BlockRef) (lba : Nat) (s : IoState) :
    dev.Fate op (unit dev.rootInfo) lba len (f dev lba) s := by
  induction dev generalizing lba s with
  | disk id name info => exact hdisk id name info lba s
  | part id name parent info ih =>
    rw [fate_iff_wp, hpart, Eff.wp_bind]
    refine wp_enter ?_ (.inl rfl)
    rw [Eff.wp_bind]
    refine Eff.wp_mono (hmapped parent info lba _) (fun plba s₁ h => ?_) fun _ _ h => .inl h
    obtain ⟨heq, rfl, hin⟩ := h
    have hup : ∀ s', parent.Passed op (unit parent.rootInfo) (info.start + lba) len s₁ s' →
        (BlockRef.part id name parent info).Passed op (unit parent.rootInfo) lba len s s' := by
      rintro s' ⟨r, hpassed, hop, hlba, rfl, hconf⟩
      refine ⟨r, by rw [hpassed, heq], hop, ?_, rfl, ?_⟩
      · rw [hlba, absStart, Nat.add_assoc]
      · have hpart := Confined.part id name hin (hlba ▸ hconf)
        rwa [hlba, ← Nat.add_assoc]
    refine Eff.wp_mono (fate_iff_wp.mp (ih (info.start + lba) s₁)) (fun _ s' h => hup s' h)
      fun _ s' h => h.imp (fun h => h.trans heq) (hup s')

theorem wp_map (parent : BlockRef) (info : PartInfo) (lba bytes : Nat) (s : IoState) :
    (map gateOpen parent info lba bytes).wp
      (fun plba s' => s'.passed = s.passed ∧ plba = info.start + lba ∧
        lba * parent.rootInfo.blockSize + bytes ≤ info.nsect * parent.rootInfo.blockSize)
      (fun _ s' => s'.passed = s.passed) s := by
  unfold map
  rw [Eff.wp_bind]
  refine Eff.wp_mono (wp_logicalBlockSize parent s) (fun bs s' h => ?_) fun _ _ => id
  obtain ⟨rfl, heq⟩ := h
  rw [Eff.wp_bind]
  refine Eff.wp_require_of (fun hwhole => ?_) fun _ => heq
  refine Eff.wp_ofExcept_of (fun plba h => ?_) fun _ _ => heq
  obtain ⟨rfl, -, hin⟩ := mapChildLba_eq_ok h
  refine ⟨heq, rfl, ?_⟩
  have hle := Nat.mul_le_mul_right parent.rootInfo.blockSize hin
  rwa [Nat.add_mul, Nat.div_mul_cancel (Nat.dvd_of_mod_eq_zero hwhole.2)] at hle

theorem wp_pass (id : Nat) (name : BlockName) (info : DiskInfo) (op : Op) (via : Via)
    (unit lba len : Nat) {s₀ : IoState} (heq : s₀.passed = s.passed) :
    (pass answer ⟨op, via, lba, len⟩).wp
      (fun _ s' => (BlockRef.disk id name info).Passed op unit lba len s s')
      (fun _ s' => s'.passed = s.passed ∨
        (BlockRef.disk id name info).Passed op unit lba len s s') s₀ := by
  have hpassed : (BlockRef.disk id name info).Passed op unit lba len s
      { s₀ with passed := s₀.passed ++ [⟨op, via, lba, len⟩] } :=
    ⟨⟨op, via, lba, len⟩, by rw [heq], rfl, (Nat.zero_add lba).symm, rfl, nofun⟩
  unfold Eff.wp pass
  split
  · rename_i h
    obtain ⟨-, rfl⟩ := Prod.mk.inj h
    exact hpassed
  · rename_i h
    obtain ⟨-, rfl⟩ := Prod.mk.inj h
    exact .inr hpassed

end

/-- Every read, write and discard through a partition, nested to any depth, fails with nothing
passed to the root disk, or is passed to it as one range of the same length at the sum of the
starts plus the requested sector, inside the window of every partition of the chain: byte for byte
for a read or write, sector for sector for a discard. -/
theorem partition_confined (gateOpen : Nat → Bool) (answer : RootReq → Except BlockError Unit)
    (dev : BlockRef) (lba : Nat) (s : IoState) :
    (∀ bytes, dev.Fate .read dev.rootInfo.blockSize lba bytes
      (dev.read gateOpen answer lba bytes) s) ∧
    (∀ bytes,
      dev.Fate .write dev.rootInfo.blockSize lba bytes (dev.write gateOpen answer lba bytes) s) ∧
    ∀ n, dev.Fate .discard 1 lba n (dev.discard gateOpen answer lba n) s := by
  refine ⟨fun bytes => ?_, fun bytes => ?_, fun n => ?_⟩
  · refine fate_of_handed .read bytes DiskInfo.blockSize
      (f := fun dev lba => dev.read gateOpen answer lba bytes) (fun _ _ _ _ _ => rfl)
      (fun parent info lba s => wp_map parent info lba bytes s)
        (fun id name info lba s => ?_) dev lba s
    rw [fate_iff_wp, read, Eff.wp_bind]
    exact wp_enter (wp_pass id name info .read _ _ lba bytes rfl) (.inl rfl)
  · refine fate_of_handed .write bytes DiskInfo.blockSize
      (f := fun dev lba => dev.write gateOpen answer lba bytes) (fun _ _ _ _ _ => rfl)
      (fun parent info lba s => wp_map parent info lba bytes s)
        (fun id name info lba s => ?_) dev lba s
    rw [fate_iff_wp, write, Eff.wp_bind]
    refine wp_enter ?_ (.inl rfl)
    rw [Eff.wp_bind]
    exact Eff.wp_require_of (fun _ => wp_pass id name info .write _ _ lba bytes rfl) fun _ =>
      .inl rfl
  · refine fate_of_handed .discard n (fun _ => 1)
      (f := fun dev lba => dev.discard gateOpen answer lba n) (fun _ _ _ _ _ => rfl)
      (fun parent info lba s => ?_) (fun id name info lba s => ?_) dev lba s
    · refine Eff.wp_ofExcept_of (fun plba h => ?_) fun _ _ => rfl
      obtain ⟨rfl, -, hin⟩ := mapChildLba_eq_ok h
      exact ⟨rfl, rfl, by omega⟩
    · rw [fate_iff_wp, discard, Eff.wp_bind]
      exact wp_enter (wp_pass id name info .discard _ _ lba n rfl) (.inl rfl)

end BlockRef
end VibeOS.Block
