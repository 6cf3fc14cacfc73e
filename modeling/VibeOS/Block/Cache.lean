import VibeOS.Block.Request

/-!
The page cache. Slots are indexed by `Fin N`, so an index the code checks
against `N` is in range by its type; a page buffer is a `Page`, so the checks
for a buffer shorter than a page are left out. Flag bits are a record of
booleans. An operation returns its result beside the new cache.
-/
namespace VibeOS.Block

def pageSize : Nat := 4096

abbrev Page := Fin pageSize → UInt8

/-- The bytes `off..off + len` of a page; the callers check that they are in it. -/
def Page.slice (p : Page) (off len : Nat) : List UInt8 :=
  (List.range len).map fun j => if h : off + j < pageSize then p ⟨off + j, h⟩ else 0

/-- The page with `src` copied over its bytes from `off`. -/
def Page.write (p : Page) (off : Nat) (src : List UInt8) : Page := fun i =>
  if off ≤ i ∧ i < off + src.length then src.getD (i - off) (p i) else p i

structure CacheKey where
  dev : Nat
  offset : Nat
  deriving DecidableEq, Repr

structure Flags where
  valid : Bool := false
  dirty : Bool := false
  ref : Bool := false
  fill : Bool := false
  wb : Bool := false
  deriving DecidableEq, Repr

structure Meta where
  key : CacheKey
  flags : Flags
  wbStart : Nat
  wbErr : Option (Nat × BlockError)
  deriving DecidableEq, Repr

def Meta.empty : Meta := ⟨⟨u64Max, 0⟩, {}, 0, none⟩

inductive FillNeed where
  | none | read | writeback
  deriving DecidableEq, Repr

structure Fill (N : Nat) where
  slot : Fin N
  key : CacheKey
  need : FillNeed
  evictKey : CacheKey
  deriving DecidableEq, Repr

structure CacheStats where
  hits : Nat := 0
  misses : Nat := 0
  evicts : Nat := 0
  deriving DecidableEq, Repr

structure Cache (N : Nat) where
  metas : Fin N → Meta
  data : Fin N → Page
  hand : Fin N
  last : CacheKey
  run : Nat
  wbSeq : Nat
  stats : CacheStats

/-- What a plan leaves its caller: the work is done, or a fill to run first, with
the victim's page when the fill is a writeback. -/
inductive Plan (N : Nat) (α : Type) where
  | done (out : α)
  | fill (f : Fill N) (evict : Option Page)

namespace Cache
variable {N : Nat}

def new [NeZero N] : Cache N :=
  { metas := fun _ => .empty, data := fun _ _ => 0, hand := 0, last := ⟨u64Max, u64Max⟩, run := 0,
    wbSeq := 0, stats := {} }

def setMeta (c : Cache N) (i : Fin N) (m : Meta) : Cache N :=
  { c with metas := Function.update c.metas i m }

def setFlags (c : Cache N) (i : Fin N) (f : Flags) : Cache N :=
  c.setMeta i { c.metas i with flags := f }

def setData (c : Cache N) (i : Fin N) (p : Page) : Cache N :=
  { c with data := Function.update c.data i p }

def find (c : Cache N) (key : CacheKey) : Option (Fin N) :=
  (List.finRange N).find? fun i =>
    ((c.metas i).flags.valid || (c.metas i).flags.fill) && (c.metas i).key == key

/-- The clock's loop over `steps` slots from the hand; `dirty` is the first dirty
slot it would take. -/
def clockLoop [NeZero N] (c : Cache N) (dirty : Option (Fin N)) : Nat → Option (Fin N) × Cache N
  | 0 => (dirty, c)
  | steps + 1 =>
    let i := c.hand
    let f := (c.metas i).flags
    let c := { c with hand := c.hand + 1 }
    if f.fill || f.wb then clockLoop c dirty steps
    else if !f.valid then (some i, c)
    else if f.ref then clockLoop (c.setFlags i { f with ref := false }) dirty steps
    else if !f.dirty then (some i, c)
    else clockLoop c (dirty.or (some i)) steps

def clockSlot [NeZero N] (c : Cache N) : Option (Fin N) × Cache N := c.clockLoop none (N * 2)

def anyFilling (c : Cache N) : Option (Fin N) :=
  (List.finRange N).find? fun i => (c.metas i).flags.fill

def anyWriteback (c : Cache N) (dev : Option Nat) : Option (Fin N) :=
  (List.finRange N).find? fun i =>
    (c.metas i).flags.wb && (dev.isNone || dev == some (c.metas i).key.dev)

/-- Clear the slot's dirty bit and put it in writeback under the next number. -/
def beginWriteback (c : Cache N) (i : Fin N) : Cache N :=
  let seq := (c.wbSeq + 1) % 2 ^ 64
  { c with wbSeq := seq }.setMeta i
    { c.metas i with
      flags := { (c.metas i).flags with wb := true, dirty := false }
      wbStart := seq }

/-- A victim for `key`'s miss: a slot free to re-key, or the fill to run or wait
for first. -/
def victim [NeZero N] (c : Cache N) (key : CacheKey) :
    Except BlockError (Fin N ⊕ Fill N × Option Page) × Cache N :=
  match c.clockSlot with
  | (none, c) =>
    match (c.anyWriteback none).or c.anyFilling with
    | some i => (.ok (.inr (⟨i, key, .none, (c.metas i).key⟩, none)), c)
    | none => (.error .failed, c)
  | (some i, c) =>
    let f := (c.metas i).flags
    if f.valid && f.dirty then
      (.ok (.inr (⟨i, key, .writeback, (c.metas i).key⟩, some (c.data i))), c.beginWriteback i)
    else
      let misses := min (c.stats.misses + 1) u64Max
      let evicts := if f.valid then min (c.stats.evicts + 1) u64Max else c.stats.evicts
      (.ok (.inl i), { c with stats := { c.stats with misses, evicts } })

/-- The sequential-read detector behind the readahead; its result is unused. -/
def noteSeq (c : Cache N) (key : CacheKey) : Cache N :=
  let seq := c.last.dev == key.dev && min (c.last.offset + pageSize) u64Max == key.offset
  { c with last := key, run := if seq then min (c.run + 1) u32Max else 0 }

def countHit (c : Cache N) : Cache N :=
  { c with stats := { c.stats with hits := min (c.stats.hits + 1) u64Max } }

def planRead [NeZero N] (c : Cache N) (key : CacheKey) (off len : Nat) :
    Except BlockError (Plan N (List UInt8)) × Cache N :=
  if off + len > pageSize then (.error .inval, c)
  else
    match c.find key with
    | some i =>
      if (c.metas i).flags.fill then (.ok (.fill ⟨i, key, .none, key⟩ none), c)
      else
        let c := (c.setFlags i { (c.metas i).flags with ref := true }).countHit
        (.ok (.done ((c.data i).slice off len)), c.noteSeq key)
    | none =>
      match c.victim key with
      | (.error e, c) => (.error e, c)
      | (.ok (.inr (f, evict)), c) => (.ok (.fill f evict), c)
      | (.ok (.inl i), c) =>
        let c := c.setMeta i { c.metas i with key, flags := { fill := true } }
        (.ok (.fill ⟨i, key, .read, key⟩ none), c.noteSeq key)

def planWrite [NeZero N] (c : Cache N) (key : CacheKey) (off : Nat) (src : List UInt8) :
    Except BlockError (Plan N Unit) × Cache N :=
  if off + src.length > pageSize then (.error .inval, c)
  else
    match c.find key with
    | some i =>
      if (c.metas i).flags.fill then (.ok (.fill ⟨i, key, .none, key⟩ none), c)
      else
        let c := c.setData i ((c.data i).write off src)
        let c := c.setFlags i { (c.metas i).flags with dirty := true, ref := true, valid := true }
        (.ok (.done ()), c.countHit.noteSeq key)
    | none =>
      match c.victim key with
      | (.error e, c) => (.error e, c)
      | (.ok (.inr (f, evict)), c) => (.ok (.fill f evict), c)
      | (.ok (.inl i), c) =>
        let c := c.noteSeq key
        if off == 0 && src.length == pageSize then
          let c := c.setData i ((c.data i).write 0 src)
          let flags := { valid := true, dirty := true, ref := true }
          (.ok (.done ()), c.setMeta i { c.metas i with key, flags })
        else
          let c := c.setMeta i { c.metas i with key, flags := { fill := true } }
          (.ok (.fill ⟨i, key, .read, key⟩ none), c)

/-- Whether the fill's slot is still being filled with its key. -/
def fillingFor (c : Cache N) (f : Fill N) : Bool :=
  (c.metas f.slot).key == f.key && (c.metas f.slot).flags.fill

def installRead (c : Cache N) (f : Fill N) (page : Page) (off len : Nat) :
    Except BlockError (List UInt8) × Cache N :=
  if off + len > pageSize then (.error .inval, c)
  else if !c.fillingFor f then (.ok (page.slice off len), c)
  else
    let c := (c.setData f.slot page).setMeta f.slot
      { c.metas f.slot with key := f.key, flags := { valid := true, ref := true } }
    (.ok ((c.data f.slot).slice off len), c)

/-- `true` when the merged page was cached, `false` when the slot was taken back. -/
def installWrite (c : Cache N) (f : Fill N) (page : Page) (off : Nat) (src : List UInt8) :
    Except BlockError Bool × Cache N :=
  if off + src.length > pageSize then (.error .inval, c)
  else if !c.fillingFor f then (.ok false, c)
  else
    let c := c.setData f.slot (page.write off src)
    let flags := { valid := true, dirty := true, ref := true }
    (.ok true, c.setMeta f.slot { c.metas f.slot with key := f.key, flags })

def abortFill (c : Cache N) (f : Fill N) : Cache N :=
  if c.fillingFor f then c.setFlags f.slot {} else c

/-- The first dirty page from slot `start` on that is not in writeback, of `dev` when
it is given: its slot, key and page, with its writeback begun. -/
def takeDirty (c : Cache N) (start : Nat) (dev : Option Nat) :
    Option (Fin N × CacheKey × Page) × Cache N :=
  let next := (List.finRange N).find? fun i =>
    let m := c.metas i
    decide (start ≤ i) && (m.flags.valid && m.flags.dirty && !m.flags.fill && !m.flags.wb) &&
      (dev.isNone || dev == some m.key.dev)
  match next with
  | some i => (some (i, (c.metas i).key, c.data i), c.beginWriteback i)
  | none => (none, c)

def endWriteback (c : Cache N) (i : Fin N) (key : CacheKey) (res : Except BlockError Unit) :
    Cache N :=
  let m := c.metas i
  if !m.flags.wb then c
  else
    match res with
    | .error e =>
      if m.key == key && m.flags.valid then
        c.setMeta i
          { m with
            flags := { m.flags with wb := false, dirty := true }
            wbErr := some (m.wbStart, e) }
      else c.setFlags i { m.flags with wb := false }
    | .ok () => c.setFlags i { m.flags with wb := false }

def writebackError (c : Cache N) (i : Fin N) (key : CacheKey) (start : Nat) : Option BlockError :=
  let m := c.metas i
  if m.key != key || !m.flags.valid then none
  else
    match m.wbErr with
    | some (s, e) => if s == start then some e else none
    | none => none

/-- The number of the slot's writeback while one is in flight. -/
def writebackStart (c : Cache N) (i : Fin N) : Option Nat :=
  if (c.metas i).flags.wb then some (c.metas i).wbStart else none

inductive FlushStep (N : Nat) where
  | write (slot : Fin N) (key : CacheKey) (page : Page)
  | wait (slot : Fin N) (key : CacheKey) (start : Nat) (done : Bool)
  | done

structure FlushSweep where
  dev : Option Nat
  since : Nat
  slot : Nat
  retried : Bool
  deriving DecidableEq, Repr

def FlushSweep.advance (sw : FlushSweep) : FlushSweep :=
  { sw with slot := sw.slot + 1, retried := false }

def flushSlot (c : Cache N) (i : Fin N) (dev : Option Nat) (since : Nat) : FlushStep N × Cache N :=
  let m := c.metas i
  if dev.isSome && dev != some m.key.dev then (.done, c)
  else if m.flags.wb then (.wait i m.key m.wbStart (decide (m.wbStart > since)), c)
  else if !(m.flags.valid && m.flags.dirty && !m.flags.fill) then (.done, c)
  else (.write i m.key (c.data i), c.beginWriteback i)

def flushSweep (c : Cache N) (dev : Option Nat) : FlushSweep :=
  { dev, since := c.wbSeq, slot := 0, retried := false }

/-- The sweep's next step; `none` once every slot is done. -/
def flushNext (c : Cache N) (sw : FlushSweep) : Option (FlushStep N) × FlushSweep × Cache N :=
  if h : sw.slot < N then
    match c.flushSlot ⟨sw.slot, h⟩ sw.dev sw.since with
    | (.done, c) => flushNext c sw.advance
    | (.write i key page, c) => (some (.write i key page), sw.advance, c)
    | (.wait i key start done, c) => (some (.wait i key start done), sw, c)
  else (none, sw, c)
termination_by N - sw.slot
decreasing_by simp only [FlushSweep.advance]; omega

def flushWaited (c : Cache N) (sw : FlushSweep) (step : FlushStep N) :
    Except BlockError Unit × FlushSweep :=
  match step with
  | .wait i key start true =>
    match c.writebackError i key start with
    | none => (.ok (), sw.advance)
    | some e => if sw.retried then (.error e, sw) else (.ok (), { sw with retried := true })
  | _ => (.ok (), sw)

def dropDev (c : Cache N) (dev : Nat) : Cache N :=
  { c with
    metas := fun i =>
      if (c.metas i).key.dev == dev then
        { c.metas i with flags := { wb := (c.metas i).flags.wb } }
      else c.metas i }

def invalidate (c : Cache N) (key : CacheKey) : Cache N :=
  match c.find key with
  | some i => c.setFlags i { wb := (c.metas i).flags.wb }
  | none => c

end Cache
end VibeOS.Block
