import Mathlib.Algebra.Order.Ring.Nat
import Mathlib.Tactic.Common
import VibeOS.Lib.LinkedList

/-!
The buddy allocator. Free blocks of order `k` cover `2 ^ k` page frames and are linked through nodes
in their own first bytes; the whole top-order blocks of an inserted region are kept as runs instead.
Every assertion, array bound and checked subtraction from a count is an explicit fault, and so is a
list walk that does not end. The ends of a run move by plain arithmetic: no run is shorter than a
block of the top order.
-/
namespace VibeOS.Mm
open Lib

def pageBits : Nat := 12

def pageSize : Nat := 4096

def maxOrder : Nat := 10

/-- Runs of whole free top-order blocks kept unlinked. -/
def topRuns : Nat := 16

/-- No more nodes: frame 0 is never in the allocator. -/
def null : Nat := 0

/-- One more than there are pages besides frame 0. -/
def nodeLimit : Nat := 2 ^ 52

inductive Fault where
  | overflow | bounds | badOrder | misaligned | doubleFree | outsideSpan | popEmpty | runEnd | spins
  deriving DecidableEq, Repr

def blockSize (order : Nat) : Nat :=
  pageSize <<< order

theorem blockSize_pos (k : Nat) : 0 < blockSize k := by
  rw [blockSize, Nat.shiftLeft_eq]
  exact Nat.mul_pos (by decide) (Nat.two_pow_pos k)

/-- `x & !(align - 1)` on 64 bits. -/
def alignDown (x align : Nat) : Nat :=
  x &&& (2 ^ 64 - align)

def alignUp (x align : Nat) : Nat :=
  alignDown (x + align - 1) align

def trailingZeros (x : Nat) : Nat :=
  ((List.range 64).find? fun i => x.testBit i).getD 64

/-- Ownership of one block, packed as `base | order`. -/
structure Frames where
  raw : Nat
  deriving DecidableEq, Repr

namespace Frames

def new (base order : Nat) : Frames :=
  ⟨base ||| order⟩

def base (f : Frames) : Nat :=
  f.raw &&& (2 ^ 64 - pageSize)

def order (f : Frames) : Nat :=
  (f.raw &&& (pageSize - 1)) % 2 ^ 8

end Frames

/-- The allocator and the memory at `phys + hhdm_offset` its nodes live in. `runs` holds
the live runs only. -/
structure Buddy where
  heads : Nat → Nat
  counts : Nat → Nat
  totalFrames : Nat
  freeFrames : Nat
  spanLo : Nat
  spanHi : Nat
  runs : List (Nat × Nat)
  mem : Nat → Node Nat

namespace Buddy

def new (mem : Nat → Node Nat) : Buddy where
  heads _ := null
  counts _ := 0
  totalFrames := 0
  freeFrames := 0
  spanLo := 2 ^ 64 - 1
  spanHi := 0
  runs := []
  mem := mem

def pushFree (b : Buddy) (phys order : Nat) : Except Fault Buddy :=
  if maxOrder < order then .error .bounds
  else
    let head := b.heads order
    let nodes := Function.update b.mem phys ⟨head, null⟩
    .ok { b with
      mem := if head = null then nodes else setPrev nodes head phys
      heads := Function.update b.heads order phys
      counts := Function.update b.counts order (b.counts order + 1)
      freeFrames := b.freeFrames + 2 ^ order }

/-- A block of `order` leaves the counters. -/
def uncount (b : Buddy) (order : Nat) : Except Fault Buddy :=
  if b.counts order = 0 ∨ b.freeFrames < 2 ^ order then .error .overflow
  else
    .ok { b with
      counts := Function.update b.counts order (b.counts order - 1)
      freeFrames := b.freeFrames - 2 ^ order }

def popHead (b : Buddy) (order : Nat) : Except Fault (Nat × Buddy) :=
  if maxOrder < order then .error .bounds
  else
    let head := b.heads order
    if head = null then .error .popEmpty
    else
      let next := (b.mem head).next
      let b' := { b with
        heads := Function.update b.heads order next
        mem := if next = null then b.mem else setPrev b.mem next null }
      (b'.uncount order).map (head, ·)

def unlink (b : Buddy) (phys order : Nat) : Except Fault Buddy :=
  if maxOrder < order then .error .bounds
  else
    let node := b.mem phys
    let b' := { b with
      heads := if node.prev = null then Function.update b.heads order node.next else b.heads
      mem := splice b.mem null phys }
    b'.uncount order

/-- The first block of the list that `p` accepts. -/
def findFree (b : Buddy) (p : Nat → Bool) (order : Nat) : Except Fault (Option Nat) :=
  if maxOrder < order then .error .bounds
  else
    match walk b.mem null p nodeLimit (b.heads order) with
    | some found => .ok found
    | none => .error .spins

def inFreeList (b : Buddy) (phys order : Nat) : Except Fault Bool :=
  (b.findFree (· == phys) order).map Option.isSome

/-- Record whole top-order blocks as a run, by extending the last one or in a free slot;
false when there is none. -/
def addRun (b : Buddy) (start stop : Nat) : Bool × Buddy :=
  if stop ≤ start then (true, b)
  else
    match b.runs.getLast? with
    | some (first, last) =>
      if last = start then (true, { b with runs := b.runs.dropLast ++ [(first, stop)] })
      else if b.runs.length < topRuns then (true, { b with runs := b.runs ++ [(start, stop)] })
      else (false, b)
    | none => (true, { b with runs := [(start, stop)] })

/-- Take a top-order block out of one of the first runs, from the last of them back: the
first for which `pick` names a block. -/
def takeRunFrom (b : Buddy) (pick : Nat → Nat → Option Nat) :
    Nat → Except Fault (Option (Nat × Buddy))
  | 0 => .ok none
  | i + 1 =>
    match b.runs[i]? with
    | none => b.takeRunFrom pick i
    | some (start, stop) =>
      match pick start stop with
      | none => b.takeRunFrom pick i
      | some blk =>
        let top := blockSize maxOrder
        if blk ≠ start ∧ blk ≠ stop - top then .error .runEnd
        else
          let rest := if blk = start then (start + top, stop) else (start, stop - top)
          let b' := { b with
            runs := if rest.1 < rest.2 then b.runs.set i rest else b.runs.eraseIdx i }
          (b'.uncount maxOrder).map fun b => some (blk, b)

def takeRunBlock (b : Buddy) (pick : Nat → Nat → Option Nat) :
    Except Fault (Option (Nat × Buddy)) :=
  b.takeRunFrom pick b.runs.length

def inRun (b : Buddy) (phys : Nat) : Bool :=
  b.runs.any fun r => r.1 ≤ phys && phys < r.2

def coveredByLists (b : Buddy) (phys k : Nat) : Except Fault Bool :=
  if k ≤ maxOrder then
    match b.inFreeList (alignDown phys (blockSize k)) k with
    | .ok false => b.coveredByLists phys (k + 1)
    | res => res
  else .ok false
termination_by maxOrder + 1 - k

/-- Whether `phys` lies in a free block of the order or a larger one. -/
def coveredByFreeBlock (b : Buddy) (phys atLeastOrder : Nat) : Except Fault Bool :=
  if b.inRun phys then .ok true else b.coveredByLists phys atLeastOrder

/-- Join a block with its buddy as long as that is free. -/
def coalesce (b : Buddy) (phys order : Nat) : Except Fault (Buddy × Nat × Nat) :=
  if order < maxOrder then do
    let buddy := phys ^^^ blockSize order
    if ← b.inFreeList buddy order then
      let b ← b.unlink buddy order
      b.coalesce (min phys buddy) (order + 1)
    else return (b, phys, order)
  else .ok (b, phys, order)
termination_by maxOrder - order

def deallocate (b : Buddy) (phys order : Nat) : Except Fault Buddy :=
  if maxOrder < order then .error .badOrder
  else if phys &&& (blockSize order - 1) ≠ 0 then .error .misaligned
  else do
    if ← b.coveredByFreeBlock phys order then throw .doubleFree
    let (b, phys, order) ← b.coalesce phys order
    b.pushFree phys order

def free (b : Buddy) (f : Frames) : Except Fault Buddy :=
  let stop := f.base + blockSize f.order
  if b.spanLo ≤ f.base ∧ stop < 2 ^ 64 ∧ stop ≤ b.spanHi then b.deallocate f.base f.order
  else .error .outsideSpan

/-- The lowest order from `k` on with a linked block, or the top order. -/
def skipEmpty (b : Buddy) (k : Nat) : Nat :=
  if k < maxOrder ∧ b.heads k = null then b.skipEmpty (k + 1) else k
termination_by maxOrder - k

/-- Keep the low piece of a block of order `k`; push the high half at each order below. -/
def splitDown (b : Buddy) (addr target : Nat) : Nat → Except Fault Buddy
  | 0 => .ok b
  | k + 1 =>
    if target ≤ k then do
      let hi := addr + blockSize k
      if 2 ^ 64 ≤ hi then throw .overflow
      let b ← b.pushFree hi k
      b.splitDown addr target k
    else .ok b

def takeBlock (b : Buddy) (target : Nat) : Except Fault (Option (Nat × Buddy)) :=
  if maxOrder < target then .ok none
  else do
    let k := b.skipEmpty target
    let taken ←
      if b.heads k ≠ null then (b.popHead k).map some
      else b.takeRunBlock fun _ stop => some (stop - blockSize maxOrder)
    match taken with
    | none => return none
    | some (addr, b) => return some (addr, ← b.splitDown addr target k)

def alloc (b : Buddy) (order : Nat) : Except Fault (Option (Frames × Buddy)) :=
  (b.takeBlock order).map fun taken => taken.map fun (base, b) => (Frames.new base order, b)

/-- The first linked block from order `k` on that fits, with its order. -/
def findFit (b : Buddy) (fits : Nat → Bool) (k : Nat) : Except Fault (Option (Nat × Nat)) :=
  if k ≤ maxOrder then do
    match ← b.findFree fits k with
    | some found => return some (found, k)
    | none => b.findFit fits (k + 1)
  else .ok none
termination_by maxOrder + 1 - k

def allocConstrained (b : Buddy) (target maxPhys : Nat) :
    Except Fault (Option (Frames × Buddy)) :=
  if maxOrder < target then .ok none
  else do
    let fits base := base + blockSize target < 2 ^ 64 && base + blockSize target ≤ maxPhys
    match ← b.findFit fits target with
    | some (found, k) =>
      let b ← b.unlink found k
      return some (Frames.new found target, ← b.splitDown found target k)
    | none =>
      match ← b.takeRunBlock fun start _ => if fits start then some start else none with
      | none => return none
      | some (found, b) =>
        return some (Frames.new found target, ← b.splitDown found target maxOrder)

/-- The largest order whose block fits at `a`, by alignment and by the pages left. -/
def regionOrder (a stop : Nat) : Nat :=
  min (min (trailingZeros a - pageBits) ((stop - a) / pageSize).log2) maxOrder

theorem run_advances {a stop : Nat} (h : regionOrder a stop = maxOrder) :
    a < a + (stop - a) / blockSize maxOrder * blockSize maxOrder := by
  have hlog : maxOrder ≤ ((stop - a) / pageSize).log2 := by
    unfold regionOrder at h
    omega
  have hne : (stop - a) / pageSize ≠ 0 := by
    intro h0
    rw [h0] at hlog
    exact absurd hlog (by decide)
  have hpow : 2 ^ maxOrder ≤ (stop - a) / pageSize := (Nat.le_log2 hne).mp hlog
  have hdiv : 1 ≤ (stop - a) / blockSize maxOrder := by
    rw [Nat.le_div_iff_mul_le (by decide)]
    have := (Nat.le_div_iff_mul_le (by decide)).mp hpow
    exact this
  exact Nat.lt_add_of_pos_right (Nat.mul_pos hdiv (by decide))

/-- Record the whole top-order blocks up to `runEnd` as a run, when a top-order block is
next. -/
def asRun (b : Buddy) (k a runEnd : Nat) : Bool × Buddy :=
  if k = maxOrder then b.addRun a runEnd else (false, b)

theorem asRun_true {b b' : Buddy} {k a runEnd : Nat} (h : b.asRun k a runEnd = (true, b')) :
    k = maxOrder := by
  by_contra hk
  rw [asRun, if_neg hk] at h
  cases h

/-- Split `[a, stop)` into blocks, from `a` up. -/
def insertBlocks (b : Buddy) (a stop : Nat) : Except Fault Buddy :=
  if _h : a < stop then
    let k := regionOrder a stop
    let n := (stop - a) / blockSize maxOrder
    let runEnd := a + n * blockSize maxOrder
    match _hrun : b.asRun k a runEnd with
    | (true, b') =>
      { b' with
        totalFrames := b'.totalFrames + n * 2 ^ maxOrder
        counts := Function.update b'.counts maxOrder (b'.counts maxOrder + n)
        freeFrames := b'.freeFrames + n * 2 ^ maxOrder }.insertBlocks runEnd stop
    | (false, b') =>
      match { b' with totalFrames := b'.totalFrames + 2 ^ k }.pushFree a k with
      | .ok b' => b'.insertBlocks (a + blockSize k) stop
      | .error e => .error e
  else .ok b
termination_by stop - a
decreasing_by
  · have := run_advances (asRun_true _hrun)
    omega
  · have := blockSize_pos (regionOrder a stop)
    omega

def insertRegion (b : Buddy) (start stop : Nat) : Except Fault Buddy :=
  let start := max start pageSize
  if 2 ^ 64 ≤ start + pageSize - 1 then .error .overflow
  else
    let a := alignUp start pageSize
    let stop := alignDown stop pageSize
    let b' :=
      if a < stop then { b with spanLo := min b.spanLo a, spanHi := max b.spanHi stop } else b
    b'.insertBlocks a stop

end Buddy
end VibeOS.Mm
