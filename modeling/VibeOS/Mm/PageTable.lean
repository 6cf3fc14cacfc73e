import Mathlib.Data.Nat.Bitwise
import Mathlib.Logic.Function.Basic

/-!
The page-table mapper over the x86_64 format: four levels of tables of 512 entries, leaves of
4 KiB at level 1 and of 2 MiB at level 2. The memory is the tables' entries by frame address and
index; the answers of the frame allocator are a sequence, one for each call.
-/
namespace VibeOS.Mm

def pageSize4K : Nat := 1 <<< 12

def pageSize2M : Nat := 1 <<< 21

inductive PageSize where
  | size4K | size2M
  deriving DecidableEq, Repr

def PageSize.bytes : PageSize → Nat
  | .size4K => pageSize4K
  | .size2M => pageSize2M

namespace PageFlags

def present : Nat := 1 <<< 0

def writable : Nat := 1 <<< 1

def user : Nat := 1 <<< 2

def huge : Nat := 1 <<< 7

def contains (flags bits : Nat) : Bool := flags &&& bits = bits

end PageFlags

/-- Bits 12 to 51, the frame address of an entry. -/
def pteAddrMask : Nat := 0x000FFFFFFFFFF000

/-- The other bits of the 64. -/
def pteFlagsMask : Nat := 0xFFF0000000000FFF

def levels : Nat := 4

def ptesPerTable : Nat := 512

def index (va level : Nat) : Nat := (va >>> (12 + 9 * (level - 1))) &&& 0x1FF

def makeEntry (phys flags : Nat) : Nat := (phys &&& pteAddrMask) ||| (flags &&& pteFlagsMask)

def entryPhys (entry : Nat) : Nat := entry &&& pteAddrMask

def entryFlags (entry : Nat) : Nat := entry &&& pteFlagsMask

def isPresent (entry : Nat) : Bool := PageFlags.contains (entryFlags entry) PageFlags.present

def isHuge (entry : Nat) : Bool := PageFlags.contains (entryFlags entry) PageFlags.huge

inductive MapError where
  | misaligned | alreadyMapped | notMapped | outOfFrames | pageSizeMismatch | nonCanonical
  deriving DecidableEq, Repr

inductive MapMode where
  | fresh | remap
  deriving DecidableEq, Repr

def isCanonical (va : Nat) : Bool :=
  let hi := va >>> 47
  hi = 0 || hi = 0x1FFFF

def isAligned (x align : Nat) : Bool := x &&& (align - 1) = 0

/-- The answers of a frame allocator, one for each call: frames at page addresses that an entry
can hold, each handed out once and none of them the root, or nothing. -/
structure FrameAlloc (root : Nat) where
  answer : Nat → Option Nat
  frame : ∀ {i f}, answer i = some f → f % pageSize4K = 0 ∧ f < 2 ^ 52 ∧ f ≠ root
  once : ∀ {i j f}, answer i = some f → answer j = some f → i = j

structure Mapper where
  root : Nat
  mem : Nat → Nat → Nat
  /-- Calls of the frame allocator so far. -/
  calls : Nat

namespace Mapper

def write (m : Mapper) (table idx entry : Nat) : Mapper :=
  { m with mem := Function.update m.mem table (Function.update (m.mem table) idx entry) }

def zeroFrame (m : Mapper) (phys : Nat) : Mapper :=
  { m with
    mem := Function.update m.mem phys fun i => if i < ptesPerTable then 0 else m.mem phys i }

/-- Flags of an entry that leads to a table. -/
def interior : Nat := PageFlags.present ||| PageFlags.writable ||| PageFlags.user

/-- The loop of `map_page`: from a table `n` levels above `leafLevel` down to it, with a new
table where there is none. -/
def descend {root : Nat} (alloc : FrameAlloc root) (va leafLevel : Nat) :
    Nat → Nat → Mapper → Except MapError Nat × Mapper
  | 0, table, m => (.ok table, m)
  | n + 1, table, m =>
    let idx := index va (leafLevel + (n + 1))
    let entry := m.mem table idx
    if !isPresent entry then
      match alloc.answer m.calls with
      | none => (.error .outOfFrames, { m with calls := m.calls + 1 })
      | some new =>
        let m := { m with calls := m.calls + 1 }
        let m := m.zeroFrame new
        let m := m.write table idx (makeEntry new interior)
        descend alloc va leafLevel n new m
    else if isHuge entry then (.error .pageSizeMismatch, m)
    else descend alloc va leafLevel n (entryPhys entry) m

def leafLevel : PageSize → Nat
  | .size4K => 1
  | .size2M => 2

/-- What `map_page` stores in the leaf's place. -/
def leafEntry (pa flags : Nat) (size : PageSize) : Nat :=
  let leafFlags := flags ||| PageFlags.present
  makeEntry pa (match size with
    | .size4K => leafFlags
    | .size2M => leafFlags ||| PageFlags.huge)

def mapPage {root : Nat} (alloc : FrameAlloc root) (m : Mapper) (va pa flags : Nat)
    (size : PageSize) (mode : MapMode) : Except MapError Unit × Mapper :=
  if !isCanonical va then (.error .nonCanonical, m)
  else
    let step := size.bytes
    if !isAligned va step || !isAligned pa step then (.error .misaligned, m)
    else
      let leafLevel := leafLevel size
      match descend alloc va leafLevel (levels - leafLevel) m.root m with
      | (.error e, m) => (.error e, m)
      | (.ok table, m) =>
        let idx := index va leafLevel
        let existing := m.mem table idx
        if isPresent existing && mode = .fresh then (.error .alreadyMapped, m)
        else if isPresent existing && isHuge existing != decide (size = .size2M) then
          (.error .pageSizeMismatch, m)
        else (.ok (), m.write table idx (leafEntry pa flags size))

/-- How a call of `map_range` ends; an addition that overflows stops it. -/
inductive RangeResult where
  | ok
  | err (e : MapError)
  | overflow
  deriving DecidableEq, Repr

/-- The page `map_range` maps at its offset: the largest that fits the alignment of both
addresses and what is left. -/
def rangeSize (va pa len off : Nat) : PageSize :=
  if isAligned (va + off) pageSize2M && isAligned (pa + off) pageSize2M && len - off ≥ pageSize2M
  then .size2M else .size4K

theorem rangeSize_pos (va pa len off : Nat) : 0 < (rangeSize va pa len off).bytes := by
  cases rangeSize va pa len off <;> decide

/-- A checked 64-bit addition fails. -/
def addOverflows (x y : Nat) : Bool := 2 ^ 64 ≤ x + y

/-- The loop of `map_range` from an offset on, around the call that maps one page. -/
def rangeFrom (mapAt : Nat → PageSize → Mapper → Except MapError Unit × Mapper) (va pa len : Nat)
    (off : Nat) (m : Mapper) : RangeResult × Mapper :=
  if _h : off < len then
    if addOverflows va off || addOverflows pa off then (.overflow, m)
    else
      let size := rangeSize va pa len off
      match mapAt off size m with
      | (.error e, m) => (.err e, m)
      | (.ok (), m) =>
        if addOverflows off size.bytes then (.overflow, m)
        else rangeFrom mapAt va pa len (off + size.bytes) m
  else (.ok, m)
termination_by len - off
decreasing_by
  have := rangeSize_pos va pa len off
  omega

def mapRange {root : Nat} (alloc : FrameAlloc root) (m : Mapper) (va pa len flags : Nat)
    (mode : MapMode) : RangeResult × Mapper :=
  if len = 0 then (.ok, m)
  else if !isAligned va pageSize4K || !isAligned pa pageSize4K then (.err .misaligned, m)
  else
    rangeFrom (fun off size m => m.mapPage alloc (va + off) (pa + off) flags size mode) va pa
      len 0 m

/-- The size a present leaf of the level maps. -/
def sizeAt (level : Nat) : PageSize := if level = 1 then .size4K else .size2M

/-- The loop of `unmap_page` from a table of the level on. -/
def unmapFrom (va : Nat) : Nat → Nat → Mapper → Option (Nat × PageSize) × Mapper
  | 0, _, m => (none, m)
  | level + 1, table, m =>
    let idx := index va (level + 1)
    let entry := m.mem table idx
    if !isPresent entry then (none, m)
    else if level + 1 = 1 || isHuge entry then
      (some (entryPhys entry, sizeAt (level + 1)), m.write table idx 0)
    else unmapFrom va level (entryPhys entry) m

def unmapPage (m : Mapper) (va : Nat) : Option (Nat × PageSize) × Mapper :=
  unmapFrom va levels m.root m

/-- The loop of `translate` from a table of the level on. -/
def translateFrom (m : Mapper) (va : Nat) : Nat → Nat → Option (Nat × PageSize × Nat)
  | 0, _ => none
  | level + 1, table =>
    let entry := m.mem table (index va (level + 1))
    if !isPresent entry then none
    else if level + 1 = 1 || isHuge entry then
      let size := sizeAt (level + 1)
      let pageBase := entryPhys entry
      let offset := va &&& (size.bytes - 1)
      some (pageBase + offset, size, entryFlags entry)
    else m.translateFrom va level (entryPhys entry)

def translate (m : Mapper) (va : Nat) : Option (Nat × PageSize × Nat) :=
  m.translateFrom va levels m.root

end Mapper

end VibeOS.Mm
