import Mathlib.Algebra.Order.Ring.Nat
import Mathlib.Tactic.Common

/-!
Block requests and their merge, and the errors of the block layer and of the file
systems over it. A request's arrays with a count (`segs`/`nseg`, `waiters`/`nwait`)
are lists whose length is the count, bounded by `maxSegs` where the code checks that
bound. Sector numbers and counts are naturals; a `u64` or `u32` limit appears where
the code saturates or checks.
-/
namespace VibeOS

inductive Fs.FsError where
  | notFound | exists | notDir | isDir | inval | noSpace | loop | nameTooLong | notEmpty | busy
  | badf | notSupp | io | fileTooBig | noMem | again | corrupt | nFile | perm | sPipe | xDev | acces
  | stale | nxIo
  deriving DecidableEq, Repr

namespace Block

def maxQueue : Nat := 32
def maxSegs : Nat := 8
def defaultRetryBudget : Nat := 3
def u32Max : Nat := 2 ^ 32 - 1
def u64Max : Nat := 2 ^ 64 - 1

inductive BlockError where
  | inval | io | failed | queueFull | noMem | gone | exists | readOnly
  deriving DecidableEq, Repr

inductive Op where
  | read | write | flush | discard
  deriving DecidableEq, Repr

def Op.canMerge : Op → Bool
  | .read | .write | .discard => true
  | .flush => false

/-- A write or a discard changes the media, so it keeps its order against an
older overlapping one. -/
def Op.writesMedia : Op → Bool
  | .write | .discard => true
  | .read | .flush => false

structure Bio where
  op : Op
  lba : Nat
  nsect : Nat
  deriving DecidableEq, Repr

def Bio.endLba (b : Bio) : Nat := min (b.lba + b.nsect) u64Max

def Bio.overlaps (a b : Bio) : Bool :=
  decide (a.lba < b.endLba) && decide (b.lba < a.endLba)

structure Seg where
  ptr : Nat
  len : Nat
  deriving DecidableEq, Repr

structure Request where
  bio : Bio
  segs : List Seg
  retriesLeft : Nat
  seq : Nat
  waiters : List Nat
  fua : Bool
  deriving DecidableEq, Repr

def Request.new (op : Op) (lba nsect : Nat) : Request :=
  { bio := ⟨op, lba, nsect⟩, segs := [], retriesLeft := defaultRetryBudget, seq := 0,
    waiters := [], fua := false }

inductive MergeKind where
  | none | backMerge | frontMerge
  deriving DecidableEq, Repr

def mergeKind (a b : Request) : MergeKind :=
  if a.bio.op != b.bio.op || !a.bio.op.canMerge || a.fua || b.fua then .none
  else if a.bio.endLba == b.bio.lba then .backMerge
  else if b.bio.endLba == a.bio.lba then .frontMerge
  else .none

/-- The destination after a merge. A front merge puts the source's segments and
waiters first; either merge keeps the smaller `seq` and retry budget. -/
def merged (dst src : Request) (front : Bool) : Request :=
  { bio :=
      { op := dst.bio.op
        lba := if front then src.bio.lba else dst.bio.lba
        nsect := dst.bio.nsect + src.bio.nsect }
    segs := if front then src.segs ++ dst.segs else dst.segs ++ src.segs
    waiters := if front then src.waiters ++ dst.waiters else dst.waiters ++ src.waiters
    seq := if src.seq < dst.seq then src.seq else dst.seq
    retriesLeft :=
      if src.retriesLeft < dst.retriesLeft then src.retriesLeft else dst.retriesLeft
    fua := dst.fua }

/-- `some` is the merged destination, `none` the code's `false`, which leaves
the destination as it was. -/
def mergeInto (dst src : Request) : MergeKind → Option Request
  | .none => none
  | kind =>
    if dst.segs.length + src.segs.length > maxSegs then none
    else if dst.waiters.length + src.waiters.length > maxSegs then none
    else if dst.bio.nsect + src.bio.nsect > u32Max then none
    else some (merged dst src (kind == .frontMerge))

theorem mergeInto_eq_some {dst src r : Request} {kind : MergeKind}
    (h : mergeInto dst src kind = some r) :
    kind ≠ .none ∧ r = merged dst src (kind == .frontMerge) := by
  cases kind with
  | none => cases h
  | backMerge | frontMerge =>
    simp only [mergeInto] at h
    repeat' split at h
    all_goals first | exact ⟨by decide, (Option.some.inj h).symm⟩ | cases h

end Block
end VibeOS
