import VibeOS.Mm.PageWalk
import VibeOS.Process.UserAccess

/-!
Writes into an address space that no thread runs. The range is walked in batches of pages that stay
in one leaf table; the frames of a batch are looked up with the page-table lock held, and their
bytes written through the physmap after it is dropped. Physical memory is one memory of bytes, and
the part of a page that the range covers is stored in its frame. The page tables are a memory of
their own, so that no store into a user frame changes them.
-/
namespace VibeOS.Process
open Mm (pageSize4K Mapper VirtAddr)
open Lib

def fillBatch : Nat := 64

/-- What one leaf table maps. -/
def leafSpan : Nat := 512 * pageSize4K

inductive FillError where
  | range | unmapped | noMem
  deriving DecidableEq, Repr

structure Batch where
  va : Nat
  pages : Nat
  deriving DecidableEq, Repr

/-- The iterator over the batches of a range. -/
structure Batches where
  cur : Nat
  stop : Nat
  fits : stop < 2 ^ 64

def batches (va : VirtAddr) (len : Nat) : Batches :=
  let start := va.val / pageSize4K * pageSize4K
  if h : len ≠ 0 ∧ va.val + len + (pageSize4K - 1) < 2 ^ 64 then
    ⟨start, (va.val + len + (pageSize4K - 1)) / pageSize4K * pageSize4K,
      (Nat.div_mul_le_self _ _).trans_lt h.2⟩
  else ⟨start, start, (Nat.div_mul_le_self _ _).trans_lt va.lt⟩

def Batches.next (b : Batches) : Option (Batch × Batches) :=
  if b.stop ≤ b.cur then none
  else
    let leafEnd := saturatingAdd (b.cur / leafSpan * leafSpan) leafSpan
    let cap := saturatingAdd b.cur (fillBatch * pageSize4K)
    let stop := min (min leafEnd cap) b.stop
    some (⟨b.cur, (stop - b.cur) / pageSize4K⟩, { b with cur := stop })

theorem Batches.next_lt {b rest : Batches} {batch : Batch} (h : b.next = some (batch, rest)) :
    rest.stop - rest.cur < b.stop - b.cur := by
  have hfits := b.fits
  have hspan : leafSpan = 2097152 := rfl
  have hcap : fillBatch * pageSize4K = 262144 := rfl
  unfold next saturatingAdd at h
  rw [hspan, hcap] at h
  split at h
  · cases h
  · obtain ⟨-, rfl⟩ := Prod.mk.inj (Option.some.inj h)
    dsimp only
    omega

/-- The frame of a page with a present user leaf. -/
def userFrame (space : Mapper) (page : Nat) : Option Nat :=
  match space.translate page with
  | some (pa, _, flags) => if Mm.PageFlags.contains flags Mm.PageFlags.user then some pa else none
  | none => none

/-- The frames under the pages of a batch. -/
def lookup (space : Mapper) (b : Batch) : Except FillError (List Nat) :=
  (List.range b.pages).mapM fun i =>
    match userFrame space (b.va + i * pageSize4K) with
    | some pa => .ok pa
    | none => .error .unmapped

/-- The part of page `i` of a batch that `[va, stop)` covers: its offset and its length. -/
def span (b : Batch) (i va stop : Nat) : Nat × Nat :=
  let page := b.va + i * pageSize4K
  let lo := max page va
  let hi := min (page + pageSize4K) stop
  (lo - page, hi - lo)

/-- What a driver returned, the memory it left, and the batches it held the lock for. -/
structure Filled where
  result : Except FillError Unit
  mem : Memory
  holds : List Batch

section Driver
variable {π : Type} (look : Batch → Except FillError (List π))
  (put : π → Nat → Nat → Nat → Memory → Except FillError Memory)

/-- The pages of a batch from page `i` on: `put` is given what was looked up for the page, the part
of it, and the bytes done before. -/
def fillPages (b : Batch) (va stop : Nat) :
    List π → Nat → Nat → Memory → Except FillError Nat × Memory
  | [], _, done, m => (.ok done, m)
  | p :: ps, i, done, m =>
    let (off, n) := span b i va stop
    match put p off n done m with
    | .error e => (.error e, m)
    | .ok m => fillPages b va stop ps (i + 1) (done + n) m

def fillFrom (va stop : Nat) (bs : Batches) (done : Nat) (m : Memory) : Filled :=
  match _h : bs.next with
  | none => ⟨.ok (), m, []⟩
  | some (b, rest) =>
    match look b with
    | .error e => ⟨.error e, m, [b]⟩
    | .ok pas =>
      match fillPages put b va stop pas 0 done m with
      | (.error e, m) => ⟨.error e, m, [b]⟩
      | (.ok done, m) =>
        let r := fillFrom va stop rest done m
        { r with holds := b :: r.holds }
termination_by bs.stop - bs.cur
decreasing_by exact Batches.next_lt _h

/-- A driver: the range check, then the batches. -/
def fill (va : VirtAddr) (len : Nat) (m : Memory) : Filled :=
  if userRangeOk va.val len then fillFrom look put va.val (va.val + len) (batches va len) 0 m
  else ⟨.error .range, m, []⟩

end Driver

def write (space : Mapper) (va : VirtAddr) (src : List UInt8) (m : Memory) : Filled :=
  fill (lookup space)
    (fun pa off n done m =>
      if done + n ≤ src.length then .ok (m.store (pa + off) ((src.drop done).take n))
      else .error .range)
    va src.length m

def zero (space : Mapper) (va : VirtAddr) (len : Nat) (m : Memory) : Filled :=
  fill (lookup space) (fun pa off n _ m => .ok (m.store (pa + off) (List.replicate n 0))) va len m

def copy (source target : Mapper) (va : VirtAddr) (len : Nat) (m : Memory) : Filled :=
  fill (fun b => do return (← lookup source b).zip (← lookup target b))
    (fun p off n _ m =>
      if p.1 = p.2 then .error .range
      else .ok (m.store (p.2 + off) (m.slice (p.1 + off) n)))
    va len m

end VibeOS.Process
