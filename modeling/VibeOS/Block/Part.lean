import VibeOS.Block.Crc32
import VibeOS.Block.Request
import VibeOS.Lib.Bits
import VibeOS.Lib.Bytes
import VibeOS.Lib.Effect

/-!
The reader and the writers of MBR and GPT partition tables. The reader has one sector buffer, which
every read of the disk overwrites, and a scratch buffer for the entries of a GPT. The caller's
`read` may answer each call as it likes: fail, with any bytes left in the buffer, or fill the buffer
with any bytes. The calls made so far are recorded, each with its sector and the bytes it left. A
writer fills the front of the caller's buffer, where that is long enough, and leaves the rest alone.
-/
namespace VibeOS.Block
open Lib

def maxParts : Nat := 16
def maxEbrDepth : Nat := 128
def mbrSigOff : Nat := 510
def mbrPartOff : Nat := 446
def mbrEntryLen : Nat := 16
def gptHeaderSize : Nat := 92
def gptEntrySize : Nat := 128
def gptRevision : Nat := 0x00010000

def gptSig : List UInt8 := [0x45, 0x46, 0x49, 0x20, 0x50, 0x41, 0x52, 0x54]

def guidUnused : List UInt8 := List.replicate 16 0

def mbrExtended : UInt8 := 0x05
def mbrExtendedLba : UInt8 := 0x0F
def mbrLinuxExtended : UInt8 := 0x85
def mbrProtective : UInt8 := 0xEE

inductive PartError where
  | truncated | badCrc | invalid | empty | noMemory
  deriving DecidableEq, Repr

inductive TableOrigin where
  | mbr
  | gpt (usedBackup : Bool)
  deriving DecidableEq, Repr

inductive PartKind where
  | mbr (sys : UInt8)
  | gpt (typeGuid : List UInt8)
  deriving DecidableEq, Repr

structure Part where
  index : Nat
  startLba : Nat
  nsectors : Nat
  kind : PartKind
  deriving DecidableEq, Repr

/-- The first `n` of the table's parts. -/
structure Table where
  origin : TableOrigin
  parts : List Part
  deriving DecidableEq, Repr

section
variable {n : Nat}

/-- `b[o..o + len]`, or `none` past the end. -/
def field (b : Buf n) (o len : Nat) : Option (List UInt8) :=
  if o + len ≤ n then some (b.slice o len) else none

def r32 (b : Buf n) (o : Nat) : Option Nat :=
  (field b o 4).map ofLE

def r64 (b : Buf n) (o : Nat) : Option Nat :=
  (field b o 8).map ofLE

def r8 (b : Buf n) (o : Nat) : Option UInt8 :=
  if o < n then some (b.get o) else none

def first (k : Nat) (b : Buf n) : Buf k :=
  fun i => b.get i

end

def isExtended (sys : UInt8) : Bool :=
  sys == mbrExtended || sys == mbrExtendedLba || sys == mbrLinuxExtended

def pushPart (t : Table) (p : Part) : Option Table :=
  if t.parts.length < maxParts then some { t with parts := t.parts ++ [p] } else none

/-- The number of the `k`th logical partition: 5 on, after the four primary slots. -/
def logicalIndex (k : Nat) : Option Nat :=
  if k + 5 ≤ 255 then some (k + 5) else none

/-- `(sys, start, count)` of MBR entry `i`. -/
def mbrEntry {n : Nat} (sector : Buf n) (i : Nat) : Option (UInt8 × Nat × Nat) := do
  let o := i * mbrEntryLen + mbrPartOff
  let sys ← r8 sector (o + 4)
  let start ← r32 sector (o + 8)
  let count ← r32 sector (o + 12)
  return (sys, start, count)

def hasMbrSig {n : Nat} (sector : Buf n) : Bool :=
  field sector mbrSigOff 2 == some [0x55, 0xAA]

/-- `none` when a field lies past `sec`. -/
def headerFieldsOk {n : Nat} (sec : Buf n) (nsectors : Nat) : Option Bool := do
  if (← field sec 0 8) ≠ gptSig then
    return false
  let size ← r32 sec 12
  if size < gptHeaderSize then
    return false
  let stored ← r32 sec 16
  -- the checksummed bytes are copied into an array of 512
  if 512 < size ∨ n < size then
    none
  let dst : Buf size := first size sec
  if crc32Ieee (List.ofFn (dst.putLE 4 16 0)) ≠ stored then
    return false
  if (← r64 sec 24) ≥ nsectors then
    return false
  let psz ← r32 sec 84
  let nent ← r32 sec 80
  return psz = gptEntrySize ∧ nent > 0 ∧ nent ≤ 128

def headerOk {n : Nat} (sec : Buf n) (nsectors : Nat) : Bool :=
  (headerFieldsOk sec nsectors).getD false

/-- The outcome of the `k`th call for sector `lba`, and the bytes it leaves in the buffer. -/
abbrev Reader (n : Nat) : Type :=
  (k lba : Nat) → Buf n → Bool × Buf n

/-- The buffers, and the calls of `read` so far with what each left in the sector buffer. -/
structure Work (n m : Nat) where
  log : List (Nat × Buf n)
  buf : Buf n
  scratch : Buf m

section
variable {n m : Nat}

def readSector (read : Reader n) (lba : Nat) : Eff (Work n m) PartError Unit :=
  fun w =>
    let r := read w.log.length lba w.buf
    (if r.1 then .ok () else .error .truncated,
      { w with log := w.log ++ [(lba, r.2)], buf := r.2 })

/-- The chunks of the entry array from byte `off` on, one sector for each. -/
def loadChunks (read : Reader n) (want bs : Nat) : Nat → Nat → Nat → Eff (Work n m) PartError Unit
  | 0, _, _ => pure ()
  | k + 1, off, lba => do
    readSector read lba
    let len := min bs (want - off)
    Eff.require (len ≤ n) .truncated
    Eff.modify fun w => { w with scratch := w.scratch.put off (w.buf.slice 0 len) }
    loadChunks read want bs k (off + bs) (saturatingAdd lba 1)

def loadEntries (read : Reader n) (partLba nent nsectors sectorSize : Nat) :
    Eff (Work n m) PartError Nat := do
  let want := nent * gptEntrySize
  Eff.require (want ≤ m) .truncated
  let bs := sectorSize
  Eff.require (bs ≠ 0) .invalid
  let nsec := (want + (bs - 1)) / bs
  Eff.require (partLba + nsec ≤ u64Max ∧ partLba + nsec ≤ nsectors) .truncated
  loadChunks read want bs nsec 0 partLba
  return nent

def entryAt (entries : Buf m) (i : Nat) : Buf 128 :=
  fun j => entries.get (gptEntrySize * i + j)

def entryPart (index nsectors : Nat) (guid : List UInt8) (first last : Nat) : Option Part :=
  if guid = guidUnused ∨ last < first then none
  else
    let count := saturatingAdd (last - first) 1
    let stop := saturatingAdd first count
    if count = 0 ∨ stop > nsectors then none
    else some ⟨index, first, count, .gpt guid⟩

/-- The entries from place `i` on. -/
def parseGptEntries (nsectors : Nat) : List (Buf 128) → Nat → Table → Table
  | [], _, t => t
  | e :: es, i, t =>
    if i + 1 ≤ 255 then
      match field e 0 16, r64 e 32, r64 e 40 with
      | some guid, some first, some last =>
        match entryPart (i + 1) nsectors guid first last with
        | none => parseGptEntries nsectors es (i + 1) t
        | some p =>
          match pushPart t p with
          | none => t
          | some t => parseGptEntries nsectors es (i + 1) t
      | _, _, _ => t
    else t

def tryGpt (nsectors sectorSize : Nat) (read : Reader n) (headerLba : Nat) (usedBackup : Bool) :
    Eff (Work n m) PartError Table := do
  Eff.require (headerLba < nsectors) .truncated
  readSector read headerLba
  let sec := (← Eff.get).buf
  Eff.require (headerOk sec nsectors) .badCrc
  let partLba ← Eff.ofExcept ((r64 sec 72).elim (.error .truncated) .ok)
  let nent ← Eff.ofExcept ((r32 sec 80).elim (.error .truncated) .ok)
  let storedEcrc ← Eff.ofExcept ((r32 sec 88).elim (.error .truncated) .ok)
  let got ← loadEntries read partLba nent nsectors sectorSize
  let want := got * gptEntrySize
  let scratch := (← Eff.get).scratch
  let entries ← Eff.ofExcept ((field scratch 0 want).elim (.error .truncated) .ok)
  Eff.require (crc32Ieee entries = storedEcrc) .badCrc
  return parseGptEntries nsectors ((List.range got).map (entryAt scratch)) 0 ⟨.gpt usedBackup, []⟩

/-- The logical partition that entry 0 of the EBR at `ebr` names is pushed. The walk goes on where
the last component says so. -/
def takeLogical (nsectors extStart extEnd ebr : Nat) (e : UInt8 × Nat × Nat) (t : Table)
    (logical : Nat) : Table × Nat × Bool :=
  let (sys, rel, count) := e
  if sys ≠ 0 ∧ count ≠ 0 ∧ isExtended sys = false ∧ sys ≠ mbrProtective then
    match checkedAdd ebr rel with
    | none => (t, logical, false)
    | some start =>
      match checkedAdd start count with
      | none => (t, logical, false)
      | some stop =>
        if start ≥ nsectors ∨ stop > nsectors ∨ start < extStart ∨ stop > extEnd then
          (t, logical, false)
        else
          match logicalIndex logical with
          | none => (t, logical, false)
          | some index =>
            match pushPart t ⟨index, start, count, .mbr sys⟩ with
            | none => (t, logical + 1, false)
            | some t => (t, logical + 1, true)
  else (t, logical, true)

/-- The EBR that entry 1 of the one at `ebr` names. -/
def nextEbr (nsectors extStart extEnd ebr : Nat) (sector : Buf n) : Option Nat := do
  let (nsys, nrel, _) ← mbrEntry sector 1
  if nrel = 0 ∨ isExtended nsys = false then
    none
  let next ← checkedAdd extStart nrel
  if next ≥ nsectors ∨ next = ebr ∨ next < extStart ∨ next ≥ extEnd then
    none
  return next

/-- At most `depth` EBRs of the chain, from `ebr` on. -/
def walkEbrs (read : Reader n) (nsectors extStart extEnd : Nat) :
    Nat → Nat → Table → Nat → Eff (Work n m) PartError (Table × Nat)
  | 0, _, t, logical => pure (t, logical)
  | depth + 1, ebr, t, logical =>
    if ebr ≥ nsectors ∨ ebr ≥ extEnd then pure (t, logical)
    else do
      match ← Eff.attempt (readSector read ebr) with
      | .error _ => pure (t, logical)
      | .ok () =>
        let sector := (← Eff.get).buf
        if hasMbrSig sector then
          match mbrEntry sector 0 with
          | none => pure (t, logical)
          | some e =>
            match takeLogical nsectors extStart extEnd ebr e t logical with
            | (t, logical, false) => pure (t, logical)
            | (t, logical, true) =>
              match nextEbr nsectors extStart extEnd ebr sector with
              | none => pure (t, logical)
              | some next => walkEbrs read nsectors extStart extEnd depth next t logical
        else pure (t, logical)

def parseLogical (t : Table) (nsectors : Nat) (read : Reader n) (extStart extCount logical : Nat) :
    Eff (Work n m) PartError (Table × Nat) :=
  walkEbrs read nsectors extStart (saturatingAdd extStart extCount) maxEbrDepth extStart t logical

/-- The primary slots from number `slot` on. -/
def parseSlots (nsectors : Nat) (read : Reader n) :
    List (UInt8 × Nat × Nat) → Nat → Table → Nat → Eff (Work n m) PartError Table
  | [], _, t, _ => pure t
  | (sys, start, count) :: rest, slot, t, logical =>
    if sys = 0 ∨ count = 0 ∨ sys = mbrProtective then
      parseSlots nsectors read rest (slot + 1) t logical
    else if isExtended sys then do
      let r ← parseLogical t nsectors read start count logical
      parseSlots nsectors read rest (slot + 1) r.1 r.2
    else
      match checkedAdd start count with
      | none => parseSlots nsectors read rest (slot + 1) t logical
      | some stop =>
        if start ≥ nsectors ∨ stop > nsectors then
          parseSlots nsectors read rest (slot + 1) t logical
        else
          match pushPart t ⟨slot, start, count, .mbr sys⟩ with
          | none => pure t
          | some t => parseSlots nsectors read rest (slot + 1) t logical

def primaries (sector : Buf n) : Option (List (UInt8 × Nat × Nat)) :=
  (List.range 4).mapM (mbrEntry sector)

def parseMbr (nsectors : Nat) (read : Reader n) : Eff (Work n m) PartError Table := do
  let sector := (← Eff.get).buf
  -- an EBR overwrites the buffer, so the four entries are taken out of it first
  let prim ← Eff.ofExcept ((primaries sector).elim (.error .truncated) .ok)
  parseSlots nsectors read prim 1 ⟨.mbr, []⟩ 0

def isProtective (sector : Buf n) : Bool :=
  hasMbrSig sector &&
    (List.range 4).any fun i => (mbrEntry sector i).any fun e => e.1 == mbrProtective

def parse (nsectors sectorSize : Nat) (read : Reader n) : Eff (Work n m) PartError Table := do
  Eff.require (sectorSize ≠ 0 ∧ sectorSize ≤ n) .invalid
  Eff.require (nsectors ≠ 0) .empty
  readSector read 0
  let sector := (← Eff.get).buf
  if isProtective sector then
    Eff.require (2 ≤ nsectors) .truncated
    match ← Eff.attempt (tryGpt nsectors sectorSize read 1 false) with
    | .ok t => return t
    | .error _ =>
      match ← Eff.attempt (tryGpt nsectors sectorSize read (nsectors - 1) true) with
      | .ok t => return t
      | .error _ => Eff.fail .badCrc
  else
    Eff.require (hasMbrSig sector) .empty
    parseMbr nsectors read

/-- What the caller starts `parse` with. -/
def Work.start (buf : Buf n) (scratch : Buf m) : Work n m :=
  ⟨[], buf, scratch⟩

end

section
variable {n k : Nat}

/-- Store `src` at `b[o..]`; a store past the end is skipped. -/
def putAt (b : Buf n) (o : Nat) (src : List UInt8) : Buf n :=
  if o + src.length ≤ n then b.put o src else b

def w32 (b : Buf n) (o v : Nat) : Buf n :=
  putAt b o (leBytes 4 v)

def w64 (b : Buf n) (o v : Nat) : Buf n :=
  putAt b o (leBytes 8 v)

/-- The first `k` bytes of the buffer become `s`. -/
def fillFront (buf : Buf n) (s : Buf k) : Buf n :=
  if k ≤ n then buf.put 0 (List.ofFn s) else buf

def writeMbrEntry (sector : Buf n) (i : Nat) (sys : UInt8) (start count : Nat) : Buf n :=
  let o := i * mbrEntryLen + mbrPartOff
  w32 (w32 (putAt (putAt sector o [0]) (o + 4) [sys]) (o + 8) start) (o + 12) count

def writeSlots (sector : Buf n) : Nat → List (UInt8 × Nat × Nat) → Buf n
  | _, [] => sector
  | i, (sys, start, count) :: slots =>
    writeSlots (if sys ≠ 0 ∧ count ≠ 0 then writeMbrEntry sector i sys start count else sector)
      (i + 1) slots

def packMbr (buf : Buf n) (slots : List (UInt8 × Nat × Nat)) : Buf n :=
  fillFront buf (putAt (writeSlots (.zero : Buf 512) 0 slots) mbrSigOff [0x55, 0xAA])

def packProtectiveMbr (buf : Buf n) (nsectors : Nat) : Buf n :=
  packMbr buf [(mbrProtective, 1, min (nsectors - 1) u32Max), (0, 0, 0), (0, 0, 0), (0, 0, 0)]

def packEbr (buf : Buf n) (sys : UInt8) (firstRel firstCount nextRel nextCount : Nat) : Buf n :=
  let nextSys := if nextRel = 0 then 0 else mbrExtended
  packMbr buf [(sys, firstRel, firstCount), (nextSys, nextRel, nextCount), (0, 0, 0), (0, 0, 0)]

end

structure GptHeaderInfo where
  myLba : Nat
  altLba : Nat
  firstUsable : Nat
  lastUsable : Nat
  diskGuid : Buf 16
  partLba : Nat
  partCount : Nat
  partSize : Nat
  entriesCrc : Nat

/-- The header before its own checksum is stored. -/
def GptHeaderInfo.sector (h : GptHeaderInfo) : Buf 512 :=
  let s := putAt (.zero : Buf 512) 0 gptSig
  let s := w32 s 8 gptRevision
  let s := w32 s 12 gptHeaderSize
  let s := w32 s 16 0
  let s := w64 s 24 h.myLba
  let s := w64 s 32 h.altLba
  let s := w64 s 40 h.firstUsable
  let s := w64 s 48 h.lastUsable
  let s := putAt s 56 (List.ofFn h.diskGuid)
  let s := w64 s 72 h.partLba
  let s := w32 s 80 h.partCount
  let s := w32 s 84 h.partSize
  w32 s 88 h.entriesCrc

def packGptHeader {n : Nat} (buf : Buf n) (h : GptHeaderInfo) : Buf n :=
  let s := h.sector
  fillFront buf (w32 s 16 (crc32Ieee (s.slice 0 gptHeaderSize)))

/-- The name's characters as UTF-16, at most `k` of them and none from the first on that needs a
pair. -/
def utf16leName : Nat → List Char → List UInt8
  | 0, _ => []
  | _, [] => []
  | k + 1, c :: cs =>
    if c.toNat < 2 ^ 16 then leBytes 2 c.toNat ++ utf16leName k cs else []

structure GptEntryInfo where
  typeGuid : Buf 16
  uniq : Buf 16
  first : Nat
  last : Nat
  name : List Char

def GptEntryInfo.bytes (i : GptEntryInfo) : Buf 128 :=
  let e := putAt (.zero : Buf 128) 0 (List.ofFn i.typeGuid)
  let e := putAt e 16 (List.ofFn i.uniq)
  let e := w64 e 32 i.first
  let e := w64 e 40 i.last
  putAt e 56 (utf16leName 36 i.name)

def packGptEntry {n : Nat} (buf : Buf n) (i : GptEntryInfo) : Buf n :=
  fillFront buf i.bytes

def entriesCrc (entries : List UInt8) : Nat :=
  crc32Ieee entries

theorem length_utf16leName (k : Nat) (cs : List Char) : (utf16leName k cs).length ≤ 2 * k := by
  induction k generalizing cs with
  | zero => simp [utf16leName]
  | succ k ih =>
    cases cs with
    | nil => simp [utf16leName]
    | cons c cs =>
      rw [utf16leName]
      split
      · have := ih cs
        rw [List.length_append, length_leBytes]
        omega
      · simp

end VibeOS.Block
