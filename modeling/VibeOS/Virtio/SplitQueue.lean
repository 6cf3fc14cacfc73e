import Mathlib.Data.Nat.Bitwise
import VibeOS.Lib.Bytes

/-!
A split virtqueue. The memory shared with the device has the descriptor table, the avail ring and
the used ring in one buffer of bytes, at the offsets of `SplitLayout`; distinct fields lie apart, so
it is read and written field by field. Free descriptors are chained through their `next` fields from
`freeHead`; a chain is written into descriptors popped from that list, its head goes into the avail
ring, and the used ring gives it back. Indexes are 16 bits wide and wrap.
-/
namespace VibeOS.Virtio

open Lib

def isPow2U16 (n : Nat) : Bool := n ≠ 0 && n &&& (n - 1) = 0

def ringIndex (idx size : Nat) : Nat := idx &&& (size - 1)

theorem isPow2U16_two_pow (k : Nat) : isPow2U16 (2 ^ k) = true := by
  simp [isPow2U16, Nat.and_two_pow_sub_one_eq_mod]

theorem ringIndex_two_pow (idx k : Nat) : ringIndex idx (2 ^ k) = idx % 2 ^ k :=
  Nat.and_two_pow_sub_one_eq_mod idx k

structure SplitLayout where
  size : Nat
  descOff : Nat
  availOff : Nat
  usedOff : Nat
  total : Nat
  deriving DecidableEq, Repr

namespace SplitLayout

/-- The layout of a queue of `n` descriptors. The used ring starts at the next multiple of 4. -/
def ofSize (n : Nat) : SplitLayout :=
  let desc := n * 16
  let avail := 4 + 2 * n + 2
  let usedOff := (desc + avail + 3) / 4 * 4
  let used := 4 + 8 * n + 2
  { size := n, descOff := 0, availOff := desc, usedOff, total := usedOff + used }

def new (size : Nat) : Option SplitLayout :=
  if isPow2U16 size then some (ofSize size) else none

variable (L : SplitLayout) (i : Nat)

def desc : Nat := L.descOff + ringIndex i L.size * 16

def availIdx : Nat := L.availOff + 2

def availRing : Nat := L.availOff + 4 + ringIndex i L.size * 2

def usedEvent : Nat := L.availOff + 4 + L.size * 2

def usedIdx : Nat := L.usedOff + 2

def usedElem : Nat := L.usedOff + 4 + ringIndex i L.size * 8

def availEvent : Nat := L.usedOff + 4 + L.size * 8

def usedFlags : Nat := L.usedOff

end SplitLayout

/-- A field of the shared memory. A descriptor's address is stored as two words. -/
inductive Field where
  | addrLo (i : Nat) | addrHi (i : Nat) | len (i : Nat) | flags (i : Nat) | next (i : Nat)
  | availFlags | availIdx | avail (i : Nat) | usedEvent
  | usedFlags | usedIdx | usedId (i : Nat) | usedLen (i : Nat) | availEvent
  deriving DecidableEq, Repr

namespace Field

/-- Where a field is in a queue of `n` descriptors. -/
def off (n : Nat) : Field → Nat
  | .addrLo i => i * 16
  | .addrHi i => i * 16 + 4
  | .len i => i * 16 + 8
  | .flags i => i * 16 + 12
  | .next i => i * 16 + 14
  | .availFlags => n * 16
  | .availIdx => n * 16 + 2
  | .avail i => n * 16 + 4 + i * 2
  | .usedEvent => n * 16 + 4 + n * 2
  | .usedFlags => (SplitLayout.ofSize n).usedOff
  | .usedIdx => (SplitLayout.ofSize n).usedOff + 2
  | .usedId i => (SplitLayout.ofSize n).usedOff + 4 + i * 8
  | .usedLen i => (SplitLayout.ofSize n).usedOff + 4 + i * 8 + 4
  | .availEvent => (SplitLayout.ofSize n).usedOff + 4 + n * 8

def width : Field → Nat
  | .addrLo _ | .addrHi _ | .len _ | .usedId _ | .usedLen _ => 4
  | _ => 2

/-- The field's index is one of the queue's. -/
def Valid (n : Nat) : Field → Prop
  | .addrLo i | .addrHi i | .len i | .flags i | .next i | .avail i | .usedId i | .usedLen i => i < n
  | _ => True

theorem used_le (n : Nat) : n * 16 + (4 + 2 * n + 2) ≤ (SplitLayout.ofSize n).usedOff := by
  simp only [SplitLayout.ofSize]
  omega

theorem end_le {n : Nat} {f : Field} (h : f.Valid n) :
    f.off n + f.width ≤ (SplitLayout.ofSize n).total := by
  have hused := used_le n
  have htotal : (SplitLayout.ofSize n).total = (SplitLayout.ofSize n).usedOff + (4 + 8 * n + 2) :=
    rfl
  cases f <;> simp only [off, width, Valid] at * <;> omega

theorem apart {n : Nat} {f g : Field} (hf : f.Valid n) (hg : g.Valid n) (hne : f ≠ g) :
    f.off n + f.width ≤ g.off n ∨ g.off n + g.width ≤ f.off n := by
  have hused := used_le n
  cases f <;> cases g <;>
    simp only [off, width, Valid, ne_eq, Field.addrLo.injEq, Field.addrHi.injEq, Field.len.injEq,
      Field.flags.injEq, Field.next.injEq, Field.avail.injEq, Field.usedId.injEq,
    Field.usedLen.injEq, not_true_eq_false] at * <;> omega

end Field

/-- The shared memory of a queue of `n` descriptors. -/
abbrev RingMem (n : Nat) := Buf (SplitLayout.ofSize n).total

namespace RingMem
variable {n : Nat}

def view (mem : RingMem n) (f : Field) : Nat := mem.getLE f.width (f.off n)

theorem view_putLE {mem : RingMem n} {f g : Field} {v : Nat} (hf : f.Valid n) (hg : g.Valid n)
    (hv : v < 256 ^ g.width) :
    view (mem.putLE g.width (g.off n) v) f = if f = g then v else view mem f := by
  unfold view
  split
  · rename_i heq
    subst heq
    exact Buf.getLE_putLE (Field.end_le hf) hv
  · rename_i hne
    have hapart := Field.apart hf hg hne
    refine Buf.getLE_put_ne ?_
    rw [length_leBytes]
    exact hapart

end RingMem

def maxChain : Nat := 8

def descFNext : Nat := 1

structure DescBuf where
  addr : Nat
  len : Nat
  flags : Nat
  deriving DecidableEq, Repr

structure UsedElem where
  id : Nat
  len : Nat
  deriving DecidableEq, Repr

inductive VirtioError where
  | noDesc
  deriving DecidableEq, Repr

structure SplitQueue (n : Nat) where
  mem : RingMem n
  lastUsed : Nat
  freeHead : Nat
  numFree : Nat
  eventIdx : Bool
  lastAvail : Nat

namespace SplitQueue
variable {n : Nat}

def layout (_ : SplitQueue n) : SplitLayout := .ofSize n

def rd (w : Nat) (q : SplitQueue n) (off : Nat) : Nat := q.mem.getLE w off

def wr (w : Nat) (q : SplitQueue n) (off v : Nat) : SplitQueue n :=
  { q with mem := q.mem.putLE w off v }

/-- Two words, the low one first. -/
def wr64 (q : SplitQueue n) (off v : Nat) : SplitQueue n :=
  (q.wr 4 off (v % 2 ^ 32)).wr 4 (off + 4) (v / 2 ^ 32)

def initDesc (q : SplitQueue n) (i : Nat) : SplitQueue n :=
  let off := q.layout.desc i
  (((q.wr64 off 0).wr 4 (off + 8) 0).wr 2 (off + 12) 0).wr 2 (off + 14)
    (if i + 1 < n then i + 1 else 0)

/-- Chain the free descriptors and zero the rings. -/
def init (q : SplitQueue n) : SplitQueue n :=
  let q := (List.range n).foldl initDesc q
  let q := q.wr 2 q.layout.availOff 0
  let q := q.wr 2 q.layout.availIdx 0
  let q := q.wr 2 q.layout.usedFlags 0
  let q := q.wr 2 q.layout.usedIdx 0
  let q := q.wr 2 q.layout.usedEvent 0
  let q := q.wr 2 q.layout.availEvent 0
  { q with freeHead := 0, numFree := n, lastUsed := 0, lastAvail := 0 }

def popFree (q : SplitQueue n) : Option Nat × SplitQueue n :=
  if q.numFree = 0 then (none, q)
  else
    let i := q.freeHead
    let next := q.rd 2 (q.layout.desc i + 14)
    (some i, { q with freeHead := next, numFree := q.numFree - 1 })

def pushFree (q : SplitQueue n) (i : Nat) : SplitQueue n :=
  let q := q.wr 2 (q.layout.desc i + 14) q.freeHead
  let q := q.wr 2 (q.layout.desc i + 12) 0
  { q with freeHead := i, numFree := min (q.numFree + 1) 65535 }

def writeDesc (q : SplitQueue n) (i addr len flags next : Nat) : SplitQueue n :=
  let off := q.layout.desc i
  (((q.wr64 off addr).wr 4 (off + 8) len).wr 2 (off + 12) flags).wr 2 (off + 14) next

/-- The first loop of `add_chain`. -/
def popMany : Nat → SplitQueue n → Option (List Nat) × SplitQueue n
  | 0, q => (some [], q)
  | m + 1, q =>
    match q.popFree with
    | (none, q) => (none, q)
    | (some i, q) =>
      match popMany m q with
      | (none, q) => (none, q)
      | (some ids, q) => (some (i :: ids), q)

/-- The second loop of `add_chain`: every descriptor but the last leads to the next one. -/
def writeChain : List Nat → List DescBuf → SplitQueue n → SplitQueue n
  | [i], [b], q => q.writeDesc i b.addr b.len b.flags 0
  | i :: j :: ids, b :: bufs, q =>
    writeChain (j :: ids) bufs (q.writeDesc i b.addr b.len (b.flags ||| descFNext) j)
  | _, _, q => q

def addChain (q : SplitQueue n) (bufs : List DescBuf) : Except VirtioError Nat × SplitQueue n :=
  let m := bufs.length
  if m = 0 ∨ m > maxChain then (.error .noDesc, q)
  else if q.numFree < m then (.error .noDesc, q)
  else
    match q.popMany m with
    | (none, q) => (.error .noDesc, q)
    | (some ids, q) =>
      let q := writeChain ids bufs q
      let head := ids.headD 0
      let aidx := q.rd 2 q.layout.availIdx
      (.ok head, q.wr 2 (q.layout.availRing aidx) head)

/-- The loop of `free_chain`, which stops after as many descriptors as there are. -/
def freeLoop : Nat → Nat → SplitQueue n → SplitQueue n
  | 0, _, q => q
  | fuel + 1, i, q =>
    let flags := q.rd 2 (q.layout.desc i + 12)
    let next := q.rd 2 (q.layout.desc i + 14)
    let q := q.pushFree i
    if flags &&& descFNext = 0 then q else freeLoop fuel next q

def freeChain (q : SplitQueue n) (i : Nat) : SplitQueue n := freeLoop n i q

def publish (q : SplitQueue n) : SplitQueue n :=
  let old := q.rd 2 q.layout.availIdx
  let new := (old + 1) % 2 ^ 16
  { q.wr 2 q.layout.availIdx new with lastAvail := new }

def pending (q : SplitQueue n) : Nat :=
  (q.rd 2 q.layout.usedIdx + 2 ^ 16 - q.lastUsed) % 2 ^ 16

def getUsed (q : SplitQueue n) : Option UsedElem × SplitQueue n :=
  if q.pending = 0 then (none, q)
  else
    let off := q.layout.usedElem q.lastUsed
    let id := q.rd 4 off % 2 ^ 16
    let len := q.rd 4 (off + 4)
    let q := { q with lastUsed := (q.lastUsed + 1) % 2 ^ 16 }
    let q := q.freeChain id
    let q := if q.eventIdx then q.wr 2 q.layout.usedEvent q.lastUsed else q
    (some { id, len }, q)

/-- The free list, as many descriptors of it as `numFree` says. -/
def walk (q : SplitQueue n) : Nat → Nat → List Nat
  | 0, _ => []
  | m + 1, i => i :: walk q m (q.rd 2 (q.layout.desc i + 14))

def freeIds (q : SplitQueue n) : List Nat := q.walk q.numFree q.freeHead

end SplitQueue

end VibeOS.Virtio
