import Mathlib.Algebra.Order.Ring.Nat
import Mathlib.Tactic.Common

/-!
PCI configuration space as the kernel reads it: the base address registers, whose sizes are probed
by writing ones and putting the old value back, the capability list, and the scan of a bus with
the buses behind its bridges. The registers themselves are behind `CfgIo`.
-/
namespace VibeOS.Pci

structure Bdf where
  segment : Nat
  bus : BitVec 8
  device : Nat
  function : Nat
  deriving DecidableEq, Repr

def Bdf.new (bus : BitVec 8) (device function : Nat) : Bdf :=
  ⟨0, bus, device, function⟩

/-- Reads and writes of configuration dwords, over the state of whatever answers them. -/
structure CfgIo (σ : Type) where
  read32 : Bdf → Nat → StateM σ (BitVec 32)
  write32 : Bdf → Nat → BitVec 32 → StateM σ Unit

def cfgVendor : Nat := 0x00
def cfgHeaderType : Nat := 0x0E
def cfgBar0 : Nat := 0x10
def cfgSecBus : Nat := 0x19

def headerMulti : BitVec 8 := 1#8 <<< 7
def headerTypeMask : BitVec 8 := 0x7F
def headerDevice : BitVec 8 := 0x00
def headerBridge : BitVec 8 := 0x01
def headerCardbus : BitVec 8 := 0x02

def capPm : BitVec 8 := 0x01
def capMsi : BitVec 8 := 0x05
def capVendor : BitVec 8 := 0x09
def capPcie : BitVec 8 := 0x10
def capMsix : BitVec 8 := 0x11

def invalidVendor : BitVec 16 := 0xFFFF

/-- Bit shift of byte `offset &&& 3` in its dword. -/
def byteShift (offset : Nat) : Nat :=
  (offset &&& 3) * 8

inductive BarKind
  | none
  | io
  | mem32
  | mem64
  deriving DecidableEq, Repr

structure Bar where
  kind : BarKind
  prefetchable : Bool
  addr : BitVec 64
  size : BitVec 64
  deriving DecidableEq, Repr

def Bar.NONE : Bar := ⟨.none, false, 0, 0⟩

def sizeFromMask (mask flagBits : BitVec 64) (wide : Bool) : BitVec 64 :=
  let m := mask &&& ~~~flagBits
  if m = 0 then 0
  else if wide then ~~~m + 1
  else (~~~(m.setWidth 32) + 1).setWidth 64

/-- The register from its programmed value and its readback after all ones, and whether it takes
the next register too. -/
def decodeBar (raw0 raw1 mask0 mask1 : BitVec 32) : Bar × Bool :=
  if raw0 = 0 ∧ mask0 = 0 ∧ raw1 = 0 ∧ mask1 = 0 then (.NONE, false)
  else if raw0 &&& 1 ≠ 0 then
    let addr := (raw0 &&& 0xFFFFFFFC).setWidth 64
    let size := sizeFromMask (mask0.setWidth 64) 0x3 false
    (if size = 0 then .NONE else ⟨.io, false, addr, size⟩, false)
  else
    let typ := (raw0 >>> 1) &&& 0x3
    let prefetchable : Bool := raw0 &&& (1#32 <<< 3) ≠ 0
    if typ = 0x2 then
      let addr := (raw1.setWidth 64 <<< 32) ||| (raw0.setWidth 64 &&& ~~~0xF)
      let mask := (mask1.setWidth 64 <<< 32) ||| mask0.setWidth 64
      let size := sizeFromMask mask 0xF true
      (if size = 0 ∧ addr = 0 then .NONE else ⟨.mem64, prefetchable, addr, size⟩, true)
    else
      let addr := (raw0 &&& ~~~0xF).setWidth 64
      let size := sizeFromMask (mask0.setWidth 64) 0xF false
      (if size = 0 ∧ addr = 0 then .NONE else ⟨.mem32, prefetchable, addr, size⟩, false)

structure CapSet where
  pm : Option (BitVec 8)
  msi : Option (BitVec 8)
  msix : Option (BitVec 8)
  pcie : Option (BitVec 8)
  vendor : Option (BitVec 8)
  deriving DecidableEq, Repr

def CapSet.empty : CapSet := ⟨.none, .none, .none, .none, .none⟩

def CapSet.record (out : CapSet) (id ptr : BitVec 8) : CapSet :=
  if id = capPm then { out with pm := some ptr }
  else if id = capMsi then { out with msi := some ptr }
  else if id = capMsix then { out with msix := some ptr }
  else if id = capPcie then { out with pcie := some ptr }
  else if id = capVendor ∧ out.vendor.isNone then { out with vendor := some ptr }
  else out

structure FuncInfo where
  bdf : Bdf
  vendor : BitVec 16
  device : BitVec 16
  revision : BitVec 8
  progIf : BitVec 8
  subclass : BitVec 8
  class_ : BitVec 8
  header : BitVec 8
  irqLine : BitVec 8
  irqPin : BitVec 8
  secondaryBus : BitVec 8
  bars : List Bar
  caps : CapSet
  deriving DecidableEq, Repr

def isBridge (header : BitVec 8) : Bool :=
  header &&& headerTypeMask = headerBridge

def barSlots (header : BitVec 8) : Nat :=
  if header &&& headerTypeMask = headerDevice then 6
  else if header &&& headerTypeMask = headerBridge then 2
  else if header &&& headerTypeMask = headerCardbus then 1
  else 0

section
variable {σ : Type} (cfg : CfgIo σ) (bdf : Bdf)

def read16 (offset : Nat) : StateM σ (BitVec 16) := do
  let v ← cfg.read32 bdf (offset &&& 0xFFFC)
  return ((v >>> byteShift offset) &&& 0xFFFF).setWidth 16

def vendorId : StateM σ (BitVec 16) :=
  read16 cfg bdf cfgVendor

def present : StateM σ Bool := do
  let v ← vendorId cfg bdf
  return v ≠ invalidVendor ∧ v ≠ 0

end

/-- A bit for each bus that has been scanned. -/
abbrev Seen : Type := Fin 4 → BitVec 64

/-- A scan under way: the registers, the functions stored in the table, in order, and the buses. -/
structure Scan (σ : Type) where
  cfg : σ
  out : List FuncInfo
  seen : Seen

section
variable {σ : Type} (cfg : CfgIo σ) (cap : Nat) (scan : BitVec 8 → Scan σ → Option (Scan σ))
  (bus : BitVec 8)

end

section
variable {σ : Type} (cfg : CfgIo σ) (cap : Nat)

end

end VibeOS.Pci
