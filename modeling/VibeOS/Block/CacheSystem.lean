import VibeOS.Block.CacheSpec

/-!
The cache with its threads and its device. The lock is dropped around every
transfer, so a fill and a writeback are entries of the state between the call that
starts one and the call that ends it; each has a number of its own. Each step is
one call made under the lock, or the device finishing one transfer. The state
also keeps the writes that completed, the reads with their bytes, the pages each
key has held after its writes, and the device writes that ended with `Ok`, each with
the version of the key it wrote; no step looks at these.
-/
namespace VibeOS.Block

/-- A fill whose device read is under way, with the page once it has come back. -/
structure FillToken (N : Nat) where
  fill : Fill N
  page : Option Page

/-- A writeback under way: the page it carries and how the device write ended.
`version` counts the writes of the key that completed before the page was copied. -/
structure WbToken (N : Nat) where
  slot : Fin N
  key : CacheKey
  page : Page
  version : Nat
  result : Option (Except BlockError Unit)

structure Write where
  key : CacheKey
  off : Nat
  src : List UInt8

/-- A read that returned `out`, with the writes completed before its copy. -/
structure ReadBack where
  key : CacheKey
  off : Nat
  out : List UInt8
  writes : List Write

/-- The kernel's flush of a device, between the calls it makes. While it writes a page
itself, `n` is that writeback. -/
inductive FlushState (N : Nat) where
  | idle
  | running (sw : Cache.FlushSweep)
  | writing (sw : Cache.FlushSweep) (n : Nat)
  | waiting (sw : Cache.FlushSweep) (slot : Fin N) (key : CacheKey) (start : Nat) (done : Bool)
  | dropping (sw : Cache.FlushSweep) (dev : Nat)
  | failed (e : BlockError)
  | finished
  deriving DecidableEq, Repr

structure CacheSys (N : Nat) where
  cache : Cache N
  device : CacheKey → Page
  fills : Nat → Option (FillToken N)
  filled : Nat
  wbs : Nat → Option (WbToken N)
  begun : Nat
  flush : FlushState N
  writes : List Write
  reads : List ReadBack
  versions : CacheKey → List Page
  okWrites : List (CacheKey × Nat × Page)
  owed : CacheKey → Option Nat

inductive CacheAct where
  | read (key : CacheKey) (off len : Nat)
  | write (key : CacheKey) (off : Nat) (src : List UInt8)
  | devRead (n : Nat)
  | installRead (n off len : Nat)
  | installWrite (n off : Nat) (src : List UInt8)
  | abortFill (n : Nat)
  | takeDirty (start : Nat) (dev : Option Nat)
  | devWrite (n : Nat)
  | devFail (n : Nat) (e : BlockError) (left : Page)
  | endWriteback (n : Nat)
  | invalidate (key : CacheKey)
  | dropDev (dev : Nat)
  | flushBegin (dev : Option Nat)
  | flushNext
  | flushWaited
  | flushDrop

namespace CacheSys
variable {N : Nat}

def init [NeZero N] (device : CacheKey → Page) : CacheSys N :=
  { cache := .new, device, fills := fun _ => none, filled := 0, wbs := fun _ => none, begun := 0,
    flush := .idle, writes := [], reads := [], versions := fun _ => [], okWrites := [],
    owed := fun _ => none }

abbrev slot (S : CacheSys N) (i : Fin N) : Slot := S.cache.slot i

/-- The page the cache holds for `key`. -/
def contents (c : Cache N) (key : CacheKey) : Page :=
  match c.find key with
  | some i => c.data i
  | none => fun _ => 0

def beginWb (S : CacheSys N) (c : Cache N) (slot : Fin N) (key : CacheKey) (page : Page) :
    CacheSys N :=
  { S with
    cache := c
    begun := S.begun + 1
    wbs := Function.update S.wbs (S.begun + 1)
      (some { slot, key, page, version := (S.versions key).length, result := none }) }

/-- A plan that did not finish: a fill to run or wait for. -/
def beginFill (S : CacheSys N) (c : Cache N) (f : Fill N) (evict : Option Page) : CacheSys N :=
  match evict with
  | some page => S.beginWb c f.slot f.evictKey page
  | none =>
    if f.need = .read then
      { S with
        cache := c
        filled := S.filled + 1
        fills := Function.update S.fills S.filled (some ⟨f, none⟩) }
    else { S with cache := c }

def wrote (S : CacheSys N) (c : Cache N) (w : Write) : CacheSys N :=
  { S with
    cache := c
    writes := S.writes ++ [w]
    versions := Function.update S.versions w.key (S.versions w.key ++ [contents c w.key]) }

def readBack (S : CacheSys N) (c : Cache N) (key : CacheKey) (off : Nat) (out : List UInt8) :
    CacheSys N :=
  { S with cache := c, reads := S.reads ++ [⟨key, off, out, S.writes⟩] }

def read [NeZero N] (S : CacheSys N) (key : CacheKey) (off len : Nat) : CacheSys N :=
  match S.cache.planRead key off len with
  | (.ok (.done out), c) => S.readBack c key off out
  | (.ok (.fill f evict), c) => S.beginFill c f evict
  | (.error _, c) => { S with cache := c }

def write [NeZero N] (S : CacheSys N) (key : CacheKey) (off : Nat) (src : List UInt8) :
    CacheSys N :=
  match S.cache.planWrite key off src with
  | (.ok (.done ()), c) => S.wrote c ⟨key, off, src⟩
  | (.ok (.fill f evict), c) => S.beginFill c f evict
  | (.error _, c) => { S with cache := c }

/-- Fill `n`'s thread is done with it. -/
def endFill (S : CacheSys N) (n : Nat) : CacheSys N :=
  { S with fills := Function.update S.fills n none }

/-- The device read of fill `n` returns the page. -/
def devRead (S : CacheSys N) (n : Nat) : CacheSys N :=
  match S.fills n with
  | some t =>
    { S with
      fills := Function.update S.fills n (some { t with page := some (S.device t.fill.key) }) }
  | none => S

/-- `installRead`, and `abortFill` when it refuses. -/
def installRead (S : CacheSys N) (n off len : Nat) : CacheSys N :=
  match S.fills n with
  | some ⟨f, some page⟩ =>
    match S.cache.installRead f page off len with
    | (.ok out, c) => (S.endFill n).readBack c f.key off out
    | (.error _, c) => { S.endFill n with cache := c.abortFill f }
  | _ => S

def installWrite (S : CacheSys N) (n off : Nat) (src : List UInt8) : CacheSys N :=
  match S.fills n with
  | some ⟨f, some page⟩ =>
    match S.cache.installWrite f page off src with
    | (.ok true, c) => (S.endFill n).wrote c ⟨f.key, off, src⟩
    | (.ok false, c) => { S.endFill n with cache := c }
    | (.error _, c) => { S.endFill n with cache := c.abortFill f }
  | _ => S

def abortFill (S : CacheSys N) (n : Nat) : CacheSys N :=
  match S.fills n with
  | some t => { S.endFill n with cache := S.cache.abortFill t.fill }
  | none => S

def takeDirty (S : CacheSys N) (start : Nat) (dev : Option Nat) : CacheSys N :=
  match S.cache.takeDirty start dev with
  | (some (i, key, page), c) => S.beginWb c i key page
  | (none, _) => S

/-- Writeback `n`'s device write ends; on an error the device's page is `left`. -/
def devWrite (S : CacheSys N) (n : Nat) (res : Except (BlockError × Page) Unit) : CacheSys N :=
  match S.wbs n with
  | some t =>
    match t.result, res with
    | none, .ok () =>
      { S with
        device := Function.update S.device t.key t.page
        okWrites := S.okWrites ++ [(t.key, t.version, t.page)]
        wbs := Function.update S.wbs n (some { t with result := some (.ok ()) }) }
    | none, .error (e, left) =>
      { S with
        device := Function.update S.device t.key left
        wbs := Function.update S.wbs n (some { t with result := some (.error e) }) }
    | some _, _ => S
  | none => S

/-- The flush goes on after its own write: a page whose device is gone is dropped,
any other error ends the flush. -/
def flushWrote (sw : Cache.FlushSweep) (key : CacheKey) : Except BlockError Unit → FlushState N
  | .ok () => .running sw
  | .error .gone => .dropping sw key.dev
  | .error e => .failed e

/-- The flush after writeback `n` of `key` ended: it goes on when it was its own. -/
def flushEnded (flush : FlushState N) (n : Nat) (key : CacheKey) (res : Except BlockError Unit) :
    FlushState N :=
  match flush with
  | .writing sw m => if m = n then flushWrote sw key res else flush
  | flush => flush

def endWriteback (S : CacheSys N) (n : Nat) : CacheSys N :=
  match S.wbs n with
  | some t =>
    match t.result with
    | some res =>
      { S with
        cache := S.cache.endWriteback t.slot t.key res
        wbs := Function.update S.wbs n none
        flush := flushEnded S.flush n t.key res }
    | none => S
  | none => S

def invalidate (S : CacheSys N) (key : CacheKey) : CacheSys N :=
  { S with cache := S.cache.invalidate key, owed := Function.update S.owed key none }

def dropDev (S : CacheSys N) (dev : Nat) : CacheSys N :=
  { S with
    cache := S.cache.dropDev dev
    owed := fun key => if key.dev = dev then none else S.owed key }

/-- The pages a flush that begins now owes: of `dev`, and dirty or in writeback. -/
def owes (S : CacheSys N) (dev : Option Nat) (key : CacheKey) : Option Nat :=
  match S.cache.find key with
  | some i =>
    if (S.slot i).valid && ((S.slot i).dirty || (S.slot i).wb) &&
        (dev.isNone || dev == some key.dev) then
      some (S.versions key).length
    else none
  | none => none

def flushBegin (S : CacheSys N) (dev : Option Nat) : CacheSys N :=
  match S.flush with
  | .idle => { S with flush := .running (S.cache.flushSweep dev), owed := S.owes dev }
  | _ => S

def flushNext (S : CacheSys N) : CacheSys N :=
  match S.flush with
  | .running sw =>
    match S.cache.flushNext sw with
    | (some (.write i key page), sw, c) =>
      { S.beginWb c i key page with flush := .writing sw (S.begun + 1) }
    | (some (.wait i key start done), sw, c) =>
      { S with cache := c, flush := .waiting sw i key start done }
    | (some .done, sw, c) => { S with cache := c, flush := .running sw }
    | (none, _, c) => { S with cache := c, flush := .finished }
  | _ => S

def flushWaited (S : CacheSys N) : CacheSys N :=
  match S.flush with
  | .waiting sw i key start done =>
    if S.cache.writebackStart i = some start then S
    else
      match S.cache.flushWaited sw (.wait i key start done) with
      | (.ok (), sw) => { S with flush := .running sw }
      | (.error e, _) => { S with flush := .failed e }
  | _ => S

def flushDrop (S : CacheSys N) : CacheSys N :=
  match S.flush with
  | .dropping sw dev => { S.dropDev dev with flush := .running sw }
  | _ => S

def step [NeZero N] (S : CacheSys N) : CacheAct → CacheSys N
  | .read key off len => S.read key off len
  | .write key off src => S.write key off src
  | .devRead n => S.devRead n
  | .installRead n off len => S.installRead n off len
  | .installWrite n off src => S.installWrite n off src
  | .abortFill n => S.abortFill n
  | .takeDirty start dev => S.takeDirty start dev
  | .devWrite n => S.devWrite n (.ok ())
  | .devFail n e left => S.devWrite n (.error (e, left))
  | .endWriteback n => S.endWriteback n
  | .invalidate key => S.invalidate key
  | .dropDev dev => S.dropDev dev
  | .flushBegin dev => S.flushBegin dev
  | .flushNext => S.flushNext
  | .flushWaited => S.flushWaited
  | .flushDrop => S.flushDrop

def run [NeZero N] (device : CacheKey → Page) (acts : List CacheAct) : CacheSys N :=
  acts.foldl step (init device)

end CacheSys
end VibeOS.Block
