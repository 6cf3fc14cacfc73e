import VibeOS.Lib.Bytes
import VibeOS.Lib.Chain
import VibeOS.Lib.Coalesce

/-!
The kernel heap: a free list ordered by address, first fit, whose nodes live in the first bytes of
the free blocks. A block handed out starts with its size, and the eight bytes in front of the
payload hold the distance back to its start. Every assertion and every checked addition and
subtraction of the code is an explicit fault, and so is a walk of the list that does not end. `Free`
ties the list in memory to a list of intervals, which tile the window with the blocks held by
others.
-/
namespace VibeOS.Mm
open Lib

namespace Heap

/-- A free node: its size and the address of the next one. -/
def header : Nat := 16

def backptr : Nat := 8

def minSplit : Nat := header + backptr + 16

def headerAlign : Nat := 16

inductive Fault where
  | overflow | misaligned | tooSmall | aboveCap | notLarger | carvePast | carveBack | smallFree
  | overlap | badBack | truncated | spins
  deriving DecidableEq, Repr

structure Layout where
  size : Nat
  align : Nat
  deriving DecidableEq, Repr

def addUsize (a b : Nat) : Except Fault Nat :=
  if a + b < 2 ^ 64 then .ok (a + b) else .error .overflow

def subUsize (a b : Nat) : Except Fault Nat :=
  if b ≤ a then .ok (a - b) else .error .overflow

def alignUp (x a : Nat) : Except Fault Nat := do
  let s ← addUsize x a
  let s ← subUsize s 1
  pure (s &&& (2 ^ 64 - a))

/-- Block bytes for a layout, whatever the block's address. -/
def blockBytes (layout : Layout) : Except Fault Nat :=
  if layout.size = 0 then .ok 0
  else do
    let n ← addUsize (header + backptr) layout.size
    let n ← addUsize n layout.align
    alignUp n headerAlign

/-- A pointer that is aligned and not null. -/
def dangling (align : Nat) : Nat := align

end Heap

structure Heap where
  base : Nat
  mapped : Nat
  cap : Nat
  freeHead : Option Nat
  freeBytes : Nat
  mem : Memory

namespace Heap

def sizeAt (h : Heap) (node : Nat) : Nat :=
  h.mem.readLE 8 node

/-- The link of a node, with no node at address 0. -/
def nextAt (h : Heap) (node : Nat) : Option Nat :=
  if h.mem.readLE 8 (node + 8) = 0 then none else some (h.mem.readLE 8 (node + 8))

def setSize (h : Heap) (node size : Nat) : Heap :=
  { h with mem := h.mem.writeLE 8 node size }

def setNext (h : Heap) (node : Nat) (next : Option Nat) : Heap :=
  { h with mem := h.mem.writeLE 8 (node + 8) (next.getD 0) }

/-- Point the node before, or the head, at `next`. -/
def unlink (h : Heap) (prev next : Option Nat) : Heap :=
  match prev with
  | some p => h.setNext p next
  | none => { h with freeHead := next }

/-- The free nodes around `[start, stop)`, which must not overlap the nodes passed. -/
def findSpot (h : Heap) (start stop : Nat) :
    Nat → Option Nat → Option Nat → Except Fault (Option Nat × Option Nat)
  | 0, _, _ => .error .spins
  | _ + 1, prev, none => .ok (prev, none)
  | fuel + 1, prev, some n => do
    let nend ← addUsize n (h.sizeAt n)
    if ¬ (stop ≤ n ∨ nend ≤ start) then .error .overlap
    else if start ≤ n then .ok (prev, some n)
    else findSpot h start stop fuel (some n) (h.nextAt n)

/-- The block grown by the node before it when they meet; the last component says so. -/
def mergePrev (h : Heap) (prev : Option Nat) (start size : Nat) :
    Except Fault (Heap × Nat × Nat × Bool) :=
  match prev with
  | none => .ok (h, start, size, false)
  | some p => do
    let pend ← addUsize p (h.sizeAt p)
    if pend = start then do
      let blockSize ← addUsize size (h.sizeAt p)
      let freeBytes ← subUsize h.freeBytes (h.sizeAt p)
      pure ({ h with freeBytes := freeBytes }, p, blockSize, true)
    else pure (h, start, size, false)

/-- The block grown by the node after it when they meet, and the node that is then after it. -/
def mergeNext (h : Heap) (prev cur : Option Nat) (start size : Nat) :
    Except Fault (Heap × Nat × Option Nat) :=
  match cur with
  | none => .ok (h, size, none)
  | some n => do
    let stop ← addUsize start size
    if stop = n then do
      let blockSize ← addUsize size (h.sizeAt n)
      let freeBytes ← subUsize h.freeBytes (h.sizeAt n)
      let nnext := h.nextAt n
      pure (unlink { h with freeBytes := freeBytes } prev nnext, blockSize, nnext)
    else pure (h, size, some n)

/-- Write the node, and link it unless it took the place of the one before. -/
def placeNode (h : Heap) (prev cur : Option Nat) (start size : Nat) (reusePrev : Bool) :
    Except Fault Heap := do
  let h := (h.setSize start size).setNext start cur
  let h := if reusePrev then h else unlink h prev (some start)
  let freeBytes ← addUsize h.freeBytes size
  pure { h with freeBytes := freeBytes }

def insertFree (h : Heap) (start size : Nat) : Except Fault Heap :=
  if size < header then .error .smallFree
  else do
    let stop ← addUsize start size
    let (prev, cur) ← findSpot h start stop (h.mapped + 1) none h.freeHead
    let (h, start, size, reusePrev) ← mergePrev h prev start size
    let (h, size, cur) ← mergeNext h prev cur start size
    placeNode h prev cur start size reusePrev

def init (mem : Memory) (base mapped cap : Nat) : Except Fault Heap :=
  if base % 8 ≠ 0 then .error .misaligned
  else if mapped < minSplit then .error .tooSmall
  else if cap < mapped then .error .aboveCap
  else insertFree ⟨base, mapped, cap, none, 0, mem⟩ base mapped

def extend (h : Heap) (newMapped : Nat) : Except Fault Heap :=
  if newMapped ≤ h.mapped then .error .notLarger
  else if h.cap < newMapped then .error .aboveCap
  else do
    let start ← addUsize h.base h.mapped
    insertFree { h with mapped := newMapped } start (newMapped - h.mapped)

/-- Place `layout` inside the block, splitting the tail. -/
def carve (h : Heap) (block size : Nat) (layout : Layout) : Except Fault (Nat × Heap) := do
  let first ← addUsize block (header + backptr)
  let user ← alignUp first layout.align
  let payloadEnd ← addUsize user layout.size
  let blockEnd ← addUsize block size
  if blockEnd < payloadEnd then .error .carvePast
  else do
    let back ← subUsize user backptr
    if back < block + header then .error .carveBack
    else do
      let h : Heap := { h with mem := h.mem.writeLE 8 back (user - block) }
      let used ← alignUp (payloadEnd - block) headerAlign
      let tail ← subUsize size used
      if minSplit ≤ tail then do
        let h ← insertFree (h.setSize block used) (block + used) tail
        pure (user, h)
      else pure (user, h.setSize block size)

def alloc (h : Heap) (layout : Layout) : Except Fault (Nat × Heap) :=
  if layout.size = 0 then .ok (dangling layout.align, h)
  else do
    let need ← blockBytes layout
    match searchChain h.nextAt (fun n => decide (need ≤ h.sizeAt n))
      (h.mapped + 1) none h.freeHead with
    | none => .error .spins
    | some none => pure (0, h)
    | some (some (prev, block)) => do
      let size := h.sizeAt block
      let h := unlink h prev (h.nextAt block)
      let freeBytes ← subUsize h.freeBytes size
      carve { h with freeBytes := freeBytes } block size layout

/-- The block of a live payload and its size. -/
def recover (h : Heap) (user : Nat) : Except Fault (Nat × Nat) := do
  let back ← subUsize user backptr
  let off := h.mem.readLE 8 back
  if off < header + backptr then .error .badBack
  else do
    let start ← subUsize user off
    let size := h.mem.readLE 8 start
    if size < off then .error .truncated else pure (start, size)

def dealloc (h : Heap) (ptr : Nat) (layout : Layout) : Except Fault Heap :=
  if layout.size = 0 ∨ ptr = 0 then .ok h
  else do
    let (start, size) ← recover h ptr
    insertFree h start size

def realloc (h : Heap) (ptr : Nat) (layout : Layout) (newSize : Nat) : Except Fault (Nat × Heap) :=
  if ptr = 0 then alloc h ⟨newSize, layout.align⟩
  else if newSize = 0 then do
    let h ← dealloc h ptr layout
    pure (dangling layout.align, h)
  else do
    let (start, oldBlock) ← recover h ptr
    let userOff ← subUsize ptr start
    let oldPayloadCap ← subUsize oldBlock userOff
    if newSize ≤ oldPayloadCap then do
      let used ← alignUp (userOff + newSize) headerAlign
      let tail ← subUsize oldBlock used
      if minSplit ≤ tail then do
        let h ← insertFree (h.setSize start used) (start + used) tail
        pure (ptr, h)
      else pure (ptr, h)
    else do
      let (newPtr, h) ← alloc h ⟨newSize, layout.align⟩
      if newPtr = 0 then pure (0, h)
      else do
        let h : Heap := { h with mem := h.mem.copy ptr newPtr (min layout.size newSize) }
        let h ← dealloc h ptr layout
        pure (newPtr, h)

variable {h h' : Heap} {a b : Nat} {B r s : Nat × Nat} {fs l₁ l₂ held : List (Nat × Nat)}

/-- A nonempty interval between multiples of 16. -/
structure IsBlock (r : Nat × Nat) : Prop where
  lt : r.1 < r.2
  start_dvd : 16 ∣ r.1
  stop_dvd : 16 ∣ r.2

def extent (r : Nat × Nat) : Nat := r.2 - r.1

theorem IsBlock.join (hr : IsBlock r) (hs : IsBlock s) (hmeet : r.2 = s.1) : IsBlock (r.1, s.2) :=
  ⟨Nat.lt_trans hr.lt (hmeet ▸ hs.lt), hr.start_dvd, hs.stop_dvd⟩

theorem IsBlock.end_eq (hr : IsBlock r) (hlt : r.2 < 2 ^ 64) :
    addUsize r.1 (extent r) = .ok r.2 := by
  have hsum : r.1 + extent r = r.2 := Nat.add_sub_cancel' (Nat.le_of_lt hr.lt)
  rw [addUsize, hsum, if_pos hlt]

theorem IsBlock.extent_join (hr : IsBlock r) (hs : IsBlock s) (hmeet : r.2 = s.1) :
    extent (r.1, s.2) = extent r + extent s := by
  have h₁ := hr.lt
  have h₂ := hs.lt
  simp only [extent]
  omega

theorem IsBlock.le (hr : IsBlock r) : r.1 + 16 ≤ r.2 := by
  obtain ⟨hlt, ⟨m, hm⟩, ⟨n, hn⟩⟩ := hr
  omega

theorem IsBlock.before_or_after (hr : IsBlock r) (hs : IsBlock s) (hap : Apart r s) :
    r.2 ≤ s.1 ∨ s.2 ≤ r.1 := by
  by_contra hcon
  rw [not_or, Nat.not_le, Nat.not_le] at hcon
  rcases Nat.le_total r.1 s.1 with hle | hle
  · exact hap s.1 ⟨hle, hcon.1⟩ ⟨Nat.le_refl _, hs.lt⟩
  · exact hap r.1 ⟨Nat.le_refl _, hr.lt⟩ ⟨hle, hcon.2⟩

section links
variable (h) (ha : 16 ∣ a) (hb : 16 ∣ b)
include ha hb

theorem apart_of_ne (hne : a ≠ b) : a + 16 ≤ b ∨ b + 16 ≤ a := by
  obtain ⟨m, rfl⟩ := ha
  obtain ⟨n, rfl⟩ := hb
  omega

theorem sizeAt_setSize {s : Nat} (hs : s < 2 ^ 64) :
    (h.setSize a s).sizeAt b = if b = a then s else h.sizeAt b := by
  split
  · rename_i he
    rw [he]
    exact Memory.readLE_writeLE hs
  · rename_i he
    have := apart_of_ne ha hb fun e => he e.symm
    exact Memory.readLE_writeLE_of_ne (by omega)

theorem nextAt_setSize (s : Nat) : (h.setSize a s).nextAt b = h.nextAt b := by
  have hread : (h.setSize a s).mem.readLE 8 (b + 8) = h.mem.readLE 8 (b + 8) := by
    refine Memory.readLE_writeLE_of_ne ?_
    by_cases he : a = b
    · omega
    · have := apart_of_ne ha hb he
      omega
  rw [nextAt, hread, nextAt]

theorem sizeAt_setNext (v : Option Nat) : (h.setNext a v).sizeAt b = h.sizeAt b := by
  refine Memory.readLE_writeLE_of_ne ?_
  by_cases he : a = b
  · omega
  · have := apart_of_ne ha hb he
    omega

theorem nextAt_setNext {v : Option Nat} (hv : ∀ n, v = some n → 0 < n ∧ n < 2 ^ 64) :
    (h.setNext a v).nextAt b = if b = a then v else h.nextAt b := by
  split
  · rename_i he
    have hlt : v.getD 0 < 256 ^ 8 := by
      cases v with
      | none => decide
      | some n => exact (hv n rfl).2
    have hread : (h.setNext a v).mem.readLE 8 (b + 8) = v.getD 0 := by
      rw [he]
      exact Memory.readLE_writeLE hlt
    rw [nextAt, hread]
    cases v with
    | none => rfl
    | some n => exact if_neg (Nat.ne_of_gt (hv n rfl).1)
  · rename_i he
    have hread : (h.setNext a v).mem.readLE 8 (b + 8) = h.mem.readLE 8 (b + 8) := by
      have := apart_of_ne ha hb fun e => he e.symm
      exact Memory.readLE_writeLE_of_ne (by omega)
    rw [nextAt, hread, nextAt]

end links

/-- The list in memory is `fs`, and with the blocks held by others it tiles the window. -/
structure Free (h : Heap) (fs held : List (Nat × Nat)) : Prop where
  chain : Chained h.nextAt h.freeHead (fs.map Prod.fst)
  size : ∀ f ∈ fs, h.sizeAt f.1 = extent f
  separated : Separated fs
  tiles : Tiles (fs ++ held) [(h.base, h.base + h.mapped)]
  block : ∀ r ∈ fs ++ held, IsBlock r
  bytes : h.freeBytes = total extent fs
  base_pos : 0 < h.base
  stop_lt : h.base + h.mapped < 2 ^ 64

theorem cover_window_le_one (h : Heap) (x : Nat) : cover [(h.base, h.base + h.mapped)] x ≤ 1 :=
  cover_le_one_of_apart (List.pairwise_singleton ..) x

namespace Free

theorem inside (hf : Free h fs held) (hr : r ∈ fs ++ held) :
    h.base ≤ r.1 ∧ r.2 ≤ h.base + h.mapped := by
  have hlt := (hf.block r hr).lt
  obtain ⟨w, hw, h₁⟩ := hf.tiles.within hr (x := r.1) ⟨Nat.le_refl _, hlt⟩
  obtain ⟨w', hw', h₂⟩ := hf.tiles.within hr (x := r.2 - 1) ⟨by omega, by omega⟩
  obtain rfl := List.mem_singleton.mp hw
  obtain rfl := List.mem_singleton.mp hw'
  have h₃ := h₁.1
  have h₄ := h₂.2
  simp only at h₃ h₄
  omega

theorem total_le (hf : Free h fs held) : total extent fs + total extent held = h.mapped := by
  have hsum := hf.tiles.sum_length (n := h.base + h.mapped) (fun r hr => (hf.inside hr).2)
    (List.forall_mem_singleton.mpr (Nat.le_refl _))
  rw [List.map_singleton, List.sum_singleton, Nat.add_sub_cancel_left] at hsum
  rw [← total_append]
  exact hsum

theorem length_le (hf : Free h fs held) : fs.length ≤ h.mapped := by
  have hlen : ∀ l : List (Nat × Nat), (∀ r ∈ l, IsBlock r) → l.length ≤ total extent l := by
    intro l
    induction l with
    | nil => exact fun _ => Nat.le_refl 0
    | cons r l ih =>
      intro hl
      obtain ⟨hr, hl'⟩ := List.forall_mem_cons.mp hl
      have h₁ := ih hl'
      have h₂ := hr.lt
      rw [List.length_cons, total_cons, extent]
      omega
  have h₁ := hlen fs fun r hr => hf.block r (List.mem_append_left _ hr)
  have h₂ := hf.total_le
  omega

theorem apart {f : Nat × Nat} (hf : Free h fs held) (hm : f ∈ fs) (hB : B ∈ held) :
    f.2 ≤ B.1 ∨ B.2 ≤ f.1 :=
  (hf.block f (List.mem_append_left _ hm)).before_or_after (hf.block B (List.mem_append_right _ hB))
    (hf.tiles.apart (cover_window_le_one h) hm hB)

theorem held_apart (hf : Free h fs (B :: held)) (hr : r ∈ held) : B.2 ≤ r.1 ∨ r.2 ≤ B.1 := by
  have htiles : Tiles ((fs ++ [B]) ++ held) [(h.base, h.base + h.mapped)] := by
    rw [List.append_assoc]
    exact hf.tiles
  exact (hf.block B (by simp)).before_or_after (hf.block r (by simp [hr]))
    (htiles.apart (cover_window_le_one h) (by simp) hr)

end Free

theorem findSpot_spec {start stop fuel : Nat} {p cur : Option Nat}
    (hchain : Chained h.nextAt cur (fs.map Prod.fst)) (hsize : ∀ f ∈ fs, h.sizeAt f.1 = extent f)
    (hsep : Separated fs) (hblock : ∀ f ∈ fs, IsBlock f ∧ f.2 < 2 ^ 64)
    (hapart : ∀ f ∈ fs, f.2 ≤ start ∨ stop ≤ f.1) (hlt : start < stop) (hfuel : fs.length < fuel) :
    ∃ l₁ l₂, fs = l₁ ++ l₂ ∧ (∀ f ∈ l₁, f.2 ≤ start) ∧ (∀ f ∈ l₂, stop ≤ f.1) ∧
      findSpot h start stop fuel p cur =
        .ok ((l₁.getLast?.map Prod.fst).or p, l₂.head?.map Prod.fst) := by
  induction fs generalizing p cur fuel with
  | nil =>
    obtain ⟨fuel, rfl⟩ := Nat.exists_eq_succ_of_ne_zero (Nat.ne_of_gt hfuel)
    obtain rfl : cur = none := hchain
    exact ⟨[], [], rfl, fun f hf => (List.not_mem_nil hf).elim,
      fun f hf => (List.not_mem_nil hf).elim, rfl⟩
  | cons f fs ih =>
    obtain ⟨fuel, rfl⟩ := Nat.exists_eq_succ_of_ne_zero (Nat.ne_of_gt (Nat.zero_lt_of_lt hfuel))
    obtain ⟨rfl, hrest⟩ := hchain
    obtain ⟨hb, hblock'⟩ := List.forall_mem_cons.mp hblock
    obtain ⟨hs, hsize'⟩ := List.forall_mem_cons.mp hsize
    obtain ⟨hap, hapart'⟩ := List.forall_mem_cons.mp hapart
    obtain ⟨hf, hsep'⟩ := List.pairwise_cons.mp hsep
    have hflt := hb.1.lt
    rw [findSpot]
    simp only [hs, hb.1.end_eq hb.2, bind, Except.bind]
    have hnot : ¬ ¬ (stop ≤ f.1 ∨ f.2 ≤ start) := not_not.mpr hap.symm
    rw [if_neg hnot]
    split
    · rename_i hle
      refine ⟨[], f :: fs, rfl, fun g hg => (List.not_mem_nil hg).elim,
        List.forall_mem_cons.mpr ⟨by omega, fun g hg => ?_⟩, rfl⟩
      have := hf g hg
      omega
    · rename_i hle
      obtain ⟨l₁, l₂, rfl, h₁, h₂, hrun⟩ := ih (p := some f.1) hrest hsize' hsep' hblock' hapart'
        (Nat.lt_of_succ_lt_succ hfuel)
      refine ⟨f :: l₁, l₂, rfl, List.forall_mem_cons.mpr ⟨by omega, h₁⟩, h₂, ?_⟩
      rw [hrun, List.getLast?_cons]
      cases l₁.getLast? <;> rfl

end Heap
end VibeOS.Mm
