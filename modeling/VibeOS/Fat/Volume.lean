import Mathlib.Logic.Function.Basic
import VibeOS.Block.Request
import VibeOS.Lib.Bytes
import VibeOS.Lib.Effect

/-!
A FAT32 volume's table and the disk below it. Eight sectors of the table are cached and
written back, each slot reused in place. The disk may fail any operation; a failed read may
leave any bytes in the buffer it was given, and a failed write any bytes in the sector.
-/
namespace VibeOS.Fat
open Lib

abbrev FatError := Fs.FsError

abbrev sec : Nat := 512
abbrev fatCacheLen : Nat := 8
abbrev maxClusBytes : Nat := 4096
abbrev maxNclus : Nat := 0x0FFFFFF5
abbrev u32 : Nat := 2 ^ 32

abbrev Sector := Buf sec

/-- What becomes of a disk operation, and the bytes a failed one leaves at its destination
when it changes them. -/
inductive Fate where
  | ok
  | fail (e : FatError) (left : Option Sector)

structure Disk where
  sectorSize : Nat
  nsectors : Nat
  data : Nat → Sector
  /-- The fates of the reads, the writes and the flushes to come. -/
  reads : Nat → Fate
  writes : Nat → Fate
  flushes : Nat → Fate
  nread : Nat
  nwrite : Nat
  nflush : Nat

structure FatInfo where
  bps : Nat
  spc : Nat
  rsvd : Nat
  numFats : Nat
  fatsz : Nat
  totsec : Nat
  rootClus : Nat
  fsinfo : Nat
  backup : Nat
  dataLba : Nat
  nclus : Nat
  media : Nat
  deriving DecidableEq

namespace FatInfo

def none : FatInfo :=
  ⟨0, 0, 0, 0, 0, 0, 0, 0, 0, 0, 0, 0⟩

def clusBytes (i : FatInfo) : Nat :=
  i.spc * i.bps

/-- Entries 0 and 1 of the table are in range. -/
def pastEnd (i : FatInfo) (clu : Nat) : Bool :=
  2 ≤ clu && i.nclus ≤ clu - 2

def fatLba (i : FatInfo) (copy fatSec : Nat) : Except FatError Nat :=
  if i.numFats ≤ copy ∨ i.fatsz ≤ fatSec then .error .inval
  else if u32 ≤ copy * i.fatsz + i.rsvd + fatSec then .error .corrupt
  else .ok (copy * i.fatsz + i.rsvd + fatSec)

end FatInfo

structure FatSec where
  used : Bool
  dirty : Bool
  idx : Nat
  data : Sector

def FatSec.empty : FatSec :=
  ⟨false, false, 0, Buf.zero⟩

structure FatVol where
  info : FatInfo
  cache : Fin fatCacheLen → FatSec
  hint : Nat
  free : Nat
  fsinfoDirty : Bool

def FatVol.new : FatVol where
  info := .none
  cache _ := .empty
  hint := 2
  free := 0xFFFFFFFF
  fsinfoDirty := false

structure State where
  vol : FatVol
  disk : Disk

abbrev V := Eff State FatError

namespace State

def setSlot (s : State) (i : Fin fatCacheLen) (c : FatSec) : State :=
  { s with vol := { s.vol with cache := Function.update s.vol.cache i c } }

def setSector (s : State) (lba : Nat) (b : Sector) : State :=
  { s with disk := { s.disk with data := Function.update s.disk.data lba b } }

end State

/-- Read a sector into a buffer that holds `buf`: the outcome, and what the buffer holds
then. -/
def diskRead (lba : Nat) (buf : Sector) : V (Except FatError Unit × Sector) := do
  let s ← Eff.get
  Eff.modify fun s => { s with disk := { s.disk with nread := s.disk.nread + 1 } }
  pure (match s.disk.reads s.disk.nread with
    | .ok => (.ok (), s.disk.data lba)
    | .fail e left => (.error e, left.getD buf))

def diskWrite (lba : Nat) (b : Sector) : V Unit := do
  let s ← Eff.get
  Eff.modify fun s => { s with disk := { s.disk with nwrite := s.disk.nwrite + 1 } }
  match s.disk.writes s.disk.nwrite with
  | .ok => Eff.modify fun s => s.setSector lba b
  | .fail e left => do
    Eff.modify fun s => s.setSector lba (left.getD (s.disk.data lba))
    Eff.fail e

def diskFlush : V Unit := do
  let s ← Eff.get
  Eff.modify fun s => { s with disk := { s.disk with nflush := s.disk.nflush + 1 } }
  match s.disk.flushes s.disk.nflush with
  | .ok => pure ()
  | .fail e _ => Eff.fail e

/-- A read into a buffer on the stack, which a failure throws away. -/
def readSector (lba : Nat) : V Sector := do
  let (r, b) ← diskRead lba Buf.zero
  Eff.ofExcept r
  pure b

/-- The FAT sector that holds a cluster's entry, and the entry's offset in it. -/
def fatLoc (clu : Nat) : Except FatError (Nat × Nat) :=
  if u32 ≤ clu * 4 then .error .corrupt else .ok (clu * 4 / sec, clu * 4 % sec)

def flushOneFat (slot : Fin fatCacheLen) : V Unit := do
  let s ← Eff.get
  let c := s.vol.cache slot
  if c.used = false ∨ c.dirty = false then pure ()
  else do
    Eff.forEach (List.range s.vol.info.numFats) fun copy => do
      let lba ← Eff.ofExcept (s.vol.info.fatLba copy c.idx)
      diskWrite lba c.data
    Eff.modify fun s => s.setSlot slot { s.vol.cache slot with dirty := false }

/-- Load a sector of the table into a slot, writing back what the slot holds first. -/
def fatLoad (slot : Fin fatCacheLen) (idx : Nat) : V (Fin fatCacheLen) := do
  let s ← Eff.get
  (if (s.vol.cache slot).dirty then flushOneFat slot else pure () : V Unit)
  let s ← Eff.get
  let lba ← Eff.ofExcept (s.vol.info.fatLba 0 idx)
  let (r, b) ← diskRead lba (s.vol.cache slot).data
  -- The buffer is the slot's own, so a failed read's bytes are in the slot.
  Eff.modify fun s => s.setSlot slot { s.vol.cache slot with data := b }
  Eff.ofExcept r
  Eff.modify fun s => s.setSlot slot { s.vol.cache slot with used := true, dirty := false, idx }
  pure slot

def position (p : FatSec → Bool) (cache : Fin fatCacheLen → FatSec) : Option (Fin fatCacheLen) :=
  (List.finRange fatCacheLen).find? fun i => p (cache i)

/-- The slot of a FAT sector, which is loaded when no slot holds it: into an unused slot, else
over a clean one, else over slot 0 once that is written back. -/
def fatCache (idx : Nat) : V (Fin fatCacheLen) := do
  let s ← Eff.get
  Eff.require (idx < s.vol.info.fatsz) .corrupt
  match position (fun c => c.used && c.idx == idx) s.vol.cache with
  | some i => pure i
  | none =>
    match position (fun c => !c.used) s.vol.cache with
    | some i => fatLoad i idx
    | none =>
      match position (fun c => !c.dirty) s.vol.cache with
      | some i => fatLoad i idx
      | none => do
        flushOneFat 0
        fatLoad 0 idx

/-- The 28 bits of an entry that are its value. -/
abbrev entMask : Nat := 0x0FFFFFFF

/-- The slot and the offset of a cluster's entry. -/
def fatEnt (clu : Nat) : V (Fin fatCacheLen × Nat) := do
  let s ← Eff.get
  Eff.require (s.vol.info.pastEnd clu = false) .corrupt
  let (idx, off) ← Eff.ofExcept (fatLoc clu)
  let i ← fatCache idx
  pure (i, off)

def fatGet (clu : Nat) : V Nat := do
  let (i, off) ← fatEnt clu
  let s ← Eff.get
  pure ((s.vol.cache i).data.getLE 4 off &&& entMask)

/-- The free count and the FSInfo mark after an entry that held `old` takes `val`. -/
def FatVol.recount (v : FatVol) (old val : Nat) : FatVol :=
  if val = 0 ∧ old &&& entMask ≠ 0 then
    { v with free := min (v.free + 1) (u32 - 1), fsinfoDirty := true }
  else if val ≠ 0 ∧ old &&& entMask = 0 then { v with free := v.free - 1, fsinfoDirty := true }
  else v

def fatSet (clu val : Nat) : V Unit := do
  let (i, off) ← fatEnt clu
  let s ← Eff.get
  let c := s.vol.cache i
  let old := c.data.getLE 4 off
  let packed := (old &&& 0xF0000000) ||| (val &&& entMask)
  Eff.modify fun s => s.setSlot i { c with data := c.data.putLE 4 off packed, dirty := true }
  Eff.modify fun s => { s with vol := s.vol.recount old val }

def FatVol.fsinfoSector (v : FatVol) : Sector :=
  ((((Buf.zero.putLE 4 0 0x41615252).putLE 4 484 0x61417272).putLE 4 488 v.free).putLE 4 492
    v.hint).putLE 4 508 0xAA550000

/-- Write FSInfo, and its copy beside the backup boot sector when that is in the reserved
area. -/
def writeFsinfo : V Unit := do
  let s ← Eff.get
  let i := s.vol.info
  if i.fsinfo = 0 then pure ()
  else do
    diskWrite i.fsinfo s.vol.fsinfoSector
    let b := i.backup + 1
    if i.backup ≠ 0 ∧ b ≠ i.fsinfo ∧ b < i.rsvd then diskWrite b s.vol.fsinfoSector else pure ()

def commitFat : V Unit := do
  Eff.forEach (List.finRange fatCacheLen) flushOneFat
  let s ← Eff.get
  if s.vol.fsinfoDirty then do
    writeFsinfo
    Eff.modify fun s => { s with vol := { s.vol with fsinfoDirty := false } }
  else pure ()

def sync : V Unit := do
  commitFat
  diskFlush

def fsinfoValid (fs : Sector) : Bool :=
  fs.getLE 4 0 == 0x41615252 && fs.getLE 4 484 == 0x61417272 && fs.getLE 4 508 == 0xAA550000

def parseBpb (boot : Sector) (nsectors : Nat) : Except FatError FatInfo := do
  let bps := boot.getLE 2 11
  let spc := boot.getLE 1 13
  let rsvd := boot.getLE 2 14
  let numFats := boot.getLE 1 16
  let tot16 := boot.getLE 2 19
  let totsec := if tot16 ≠ 0 then tot16 else boot.getLE 4 32
  let fatsz := boot.getLE 4 36
  let rootClus := boot.getLE 4 44
  let dataLba := numFats * fatsz + rsvd
  let nclus := (totsec - dataLba) / spc
  if boot.get 510 ≠ 0x55 ∨ boot.get 511 ≠ 0xAA then .error .corrupt
  else if bps ≠ sec then .error .inval
  else if spc = 0 ∨ spc &&& (spc - 1) ≠ 0 then .error .inval
  else if rsvd = 0 ∨ numFats = 0 ∨ numFats > 2 then .error .inval
  else if boot.getLE 2 17 ≠ 0 ∨ boot.getLE 2 22 ≠ 0 then .error .inval
  else if totsec = 0 ∨ totsec > nsectors then .error .corrupt
  else if fatsz = 0 then .error .inval
  else if rootClus < 2 then .error .corrupt
  else if u32 ≤ numFats * fatsz ∨ u32 ≤ dataLba ∨ totsec ≤ dataLba then .error .corrupt
  else if nclus < 2 ∨ nclus > maxNclus then .error .corrupt
  else
    .ok { bps, spc, rsvd, numFats, fatsz, totsec, rootClus, fsinfo := boot.getLE 2 48,
          backup := boot.getLE 2 50, dataLba, nclus, media := boot.getLE 1 21 }

/-- The free clusters among the next `n`, from cluster `c` on, added to `acc`. The cap on the
cluster count keeps both counts inside 32 bits. -/
def countFree (c acc : Nat) : Nat → V Nat
  | 0 => pure acc
  | n + 1 => do
    let x ← fatGet c
    countFree (c + 1) (if x = 0 then acc + 1 else acc) n

/-- Whether a sector inside the reserved area holds a valid FSInfo. -/
def hasFsinfo (info : FatInfo) (lba : Nat) (fs : Sector) : Bool :=
  lba ≠ 0 && lba < info.rsvd && fsinfoValid fs

/-- Take the next-free hint from FSInfo. Its sector number is the image's and could name any
sector, so it is dropped unless a valid FSInfo is there now. -/
def takeFsinfo (info : FatInfo) : V Unit := do
  let fs ← (if info.fsinfo ≠ 0 ∧ info.fsinfo < info.rsvd then readSector info.fsinfo
    else pure Buf.zero : V Sector)
  let hint := fs.getLE 4 492
  if hasFsinfo info info.fsinfo fs then
    Eff.modify fun s =>
      if 2 ≤ hint ∧ info.pastEnd hint = false then { s with vol := { s.vol with hint } } else s
  else
    Eff.modify fun s => { s with vol := { s.vol with info := { s.vol.info with fsinfo := 0 } } }

/-- The sector of FSInfo's copy is dropped in the same way. -/
def takeBackup (info : FatInfo) : V Unit := do
  let s ← Eff.get
  let b := info.backup + 1
  if s.vol.info.fsinfo = 0 ∨ info.backup = 0 ∨ b = info.fsinfo ∨ info.rsvd ≤ b then
    Eff.modify fun s => { s with vol := { s.vol with info := { s.vol.info with backup := 0 } } }
  else do
    let fs ← readSector b
    if fsinfoValid fs then pure ()
    else Eff.modify fun s =>
      { s with vol := { s.vol with info := { s.vol.info with backup := 0 } } }

def mountIn : V Unit := do
  Eff.modify fun s => { s with vol := .new }
  let s ← Eff.get
  Eff.require (s.disk.sectorSize = sec) .inval
  let boot ← readSector 0
  let info ← Eff.ofExcept (parseBpb boot s.disk.nsectors)
  Eff.require (info.clusBytes ≠ 0 ∧ info.clusBytes ≤ maxClusBytes) .inval
  Eff.modify fun s => { s with vol := { s.vol with info } }
  takeFsinfo info
  takeBackup info
  let free ← countFree 2 0 info.nclus
  Eff.modify fun s => { s with vol := { s.vol with free } }

end VibeOS.Fat
