import Mathlib.Algebra.Order.Ring.Nat
import Mathlib.Tactic.Common

/-!
The published clock: a latch of two copies of a snapshot under one sequence number. The writer
bumps the sequence to odd and stores copy 0, then to even and stores copy 1; a reader loads the
copy the sequence names and takes it when the sequence has not moved. Each atomic access is one
step of the thread that makes it. Beside the clock the state keeps what was written and what
was returned, with the times and the number of bumps; no access reads these.
-/
namespace VibeOS.Time

inductive ClocksourceId where
  | tsc | hpet | acpiPm
  deriving DecidableEq, Repr

namespace ClocksourceId

def toU64 : ClocksourceId → UInt64
  | .tsc => 1
  | .hpet => 2
  | .acpiPm => 3

def fromU64 (v : UInt64) : Option ClocksourceId :=
  if v = 1 then some .tsc else if v = 2 then some .hpet else if v = 3 then some .acpiPm else none

theorem fromU64_toU64 (id : ClocksourceId) : fromU64 id.toU64 = some id := by
  cases id <;> rfl

end ClocksourceId

def u64Max : UInt64 := 0xffffffffffffffff

def clampU64 (v : Nat) : UInt64 :=
  if v < 2 ^ 64 then UInt64.ofNat v else u64Max

/-- Cycles to nanoseconds as `cycles * mult >> shift` in 128 bits. -/
structure Scale where
  mult : UInt64
  shift : Nat
  deriving DecidableEq, Repr

def Scale.toNs (s : Scale) (cycles : UInt64) : UInt64 :=
  clampU64 (if s.shift < 128 then (cycles.toNat * s.mult.toNat) >>> s.shift else 0)

structure Counter where
  id : ClocksourceId
  scale : Scale
  width : Nat
  deriving DecidableEq, Repr

/-- The bits of a raw read that count. -/
def Counter.mask (c : Counter) : UInt64 :=
  if c.width ≥ 64 then u64Max else (1 <<< UInt64.ofNat c.width) - 1

def Counter.delta (c : Counter) (now base : UInt64) : UInt64 :=
  (now - base) &&& c.mask

/-- The counter `id` read `cycles` at `ns` since boot. -/
structure Snapshot where
  id : ClocksourceId
  cycles : UInt64
  ns : UInt64
  deriving DecidableEq, Repr

def saturatingAdd (a b : UInt64) : UInt64 := clampU64 (a.toNat + b.toNat)

def nsAt (s : Snapshot) (c : Counter) (rawNow : UInt64) : UInt64 :=
  saturatingAdd s.ns (c.scale.toNs (c.delta rawNow s.cycles))

/-- One copy: the snapshot's words. The id is 0 before the first write. -/
structure Payload where
  id : UInt64
  cycles : UInt64
  ns : UInt64
  deriving DecidableEq, Repr

def Payload.zero : Payload := { id := 0, cycles := 0, ns := 0 }

def decode (p : Payload) : Option Snapshot :=
  (ClocksourceId.fromU64 p.id).map fun id => { id, cycles := p.cycles, ns := p.ns }

inductive Word where
  | id | cycles | ns
  deriving DecidableEq, Repr

def Payload.get (p : Payload) : Word → UInt64
  | .id => p.id
  | .cycles => p.cycles
  | .ns => p.ns

def Payload.set (p : Payload) (w : Word) (x : UInt64) : Payload :=
  match w with
  | .id => { p with id := x }
  | .cycles => { p with cycles := x }
  | .ns => { p with ns := x }

/-- The words a snapshot is stored as. -/
def Snapshot.words (s : Snapshot) : Payload :=
  { id := s.id.toU64, cycles := s.cycles, ns := s.ns }

structure TickClock where
  seq : UInt64
  copy0 : Payload
  copy1 : Payload
  deriving DecidableEq, Repr

def TickClock.new : TickClock := { seq := 0, copy0 := .zero, copy1 := .zero }

/-- The copy a sequence number names. -/
def TickClock.copy (c : TickClock) (s : UInt64) : Payload :=
  if s &&& 1 = 0 then c.copy0 else c.copy1

/-- Where the writer is: before a bump or before the store of a word, of copy 0 and then of
copy 1. -/
inductive WriterPc where
  | idle
  | bump (second : Bool) (s : Snapshot)
  | store (second : Bool) (w : Word) (s : Snapshot)
  deriving DecidableEq, Repr

/-- What a reader calls: `read`, or `now_ns_with`. -/
inductive Mode where
  | read | now
  deriving DecidableEq, Repr

/-- Where a reader is, with the words it has loaded. -/
inductive ReaderPc where
  | idle
  | seq1
  | load (w : Word) (s1 : UInt64) (v : Payload)
  | raw (s1 : UInt64) (v : Payload) (s : Snapshot)
  | seq2 (s1 : UInt64) (v : Payload) (raw : Option UInt64)
  deriving DecidableEq, Repr

structure Reader where
  mode : Mode
  pc : ReaderPc
  /-- The writes completed when the call began. -/
  done : Nat
  /-- When the attempt loaded the sequence, and the bumps by then. -/
  first : Nat
  bumped : Nat
  deriving DecidableEq, Repr

def Reader.new : Reader := { mode := .read, pc := .idle, done := 0, first := 0, bumped := 0 }

inductive Output where
  | snap (v : Option Snapshot)
  | ns (x : UInt64)
  deriving DecidableEq, Repr

/-- A call that returned, and the two loads of the sequence of the attempt that did. -/
structure Ret (R : Type) where
  reader : R
  out : Output
  done : Nat
  first : Nat
  last : Nat
  bumped : Nat

/-- An attempt that was repeated. -/
structure Retry (R : Type) where
  reader : R
  first : Nat
  last : Nat

structure RawRead (R : Type) where
  reader : R
  id : ClocksourceId
  value : UInt64
  time : Nat

structure ClockSys (R : Type) where
  clock : TickClock
  writer : WriterPc
  readers : R → Reader
  time : Nat
  /-- The snapshots passed to `write`, the first one first. -/
  writes : List Snapshot
  /-- The writes completed. -/
  done : Nat
  /-- The times of the bumps, and the raw reads, returns and retries, the latest first. -/
  bumps : List Nat
  raws : List (RawRead R)
  rets : List (Ret R)
  retries : List (Retry R)

inductive Act (R : Type) where
  | write (s : Snapshot)
  | writer
  | call (r : R) (mode : Mode)
  /-- One access of the reader; `raw` is what its counter shows. -/
  | reader (r : R) (raw : UInt64)

namespace ClockSys
variable {R : Type}

def init : ClockSys R :=
  { clock := .new, writer := .idle, readers := fun _ => .new, time := 0, writes := [], done := 0,
    bumps := [], raws := [], rets := [], retries := [] }

/-- The sequence goes up by one, and back to 0 after the last number. -/
def bump (S : ClockSys R) : ClockSys R :=
  { S with clock := { S.clock with seq := S.clock.seq + 1 }, bumps := S.time :: S.bumps }

def storeWord (S : ClockSys R) (second : Bool) (w : Word) (s : Snapshot) : ClockSys R :=
  { S with clock :=
      if second then { S.clock with copy1 := S.clock.copy1.set w (s.words.get w) }
      else { S.clock with copy0 := S.clock.copy0.set w (s.words.get w) } }

def writerStep (S : ClockSys R) : Option (ClockSys R) :=
  match S.writer with
  | .idle => none
  | .bump second s => some { S.bump with writer := .store second .id s }
  | .store second .id s => some { S.storeWord second .id s with writer := .store second .cycles s }
  | .store second .cycles s =>
      some { S.storeWord second .cycles s with writer := .store second .ns s }
  | .store false .ns s => some { S.storeWord false .ns s with writer := .bump true s }
  | .store true .ns s =>
    some { S.storeWord true .ns s with writer := .idle, done := S.done + 1 }

variable [DecidableEq R]

def setReader (S : ClockSys R) (r : R) (x : Reader) : ClockSys R :=
  { S with readers := Function.update S.readers r x }

def goto (S : ClockSys R) (r : R) (pc : ReaderPc) : ClockSys R :=
  S.setReader r { S.readers r with pc }

/-- What a call returns for the words and the raw read of its attempt. -/
def output (counter : ClocksourceId → Option Counter) (mode : Mode) (v : Payload)
    (raw : Option UInt64) : Output :=
  match mode with
  | .read => .snap (decode v)
  | .now => .ns (match decode v, raw with
      | some s, some raw => (counter s.id).elim s.ns fun c => nsAt s c raw
      | _, _ => 0)

/-- One access of a reader, or the end of its call. -/
def readerStep (counter : ClocksourceId → Option Counter) (S : ClockSys R) (r : R) (raw : UInt64) :
    Option (ClockSys R) :=
  let x := S.readers r
  match x.pc with
  | .idle => none
  | .seq1 =>
    some (S.setReader r
      { x with pc := .load .id S.clock.seq .zero, first := S.time, bumped := S.bumps.length })
  | .load .id s1 v => some (S.goto r (.load .cycles s1 (v.set .id (S.clock.copy s1).id)))
  | .load .cycles s1 v => some (S.goto r (.load .ns s1 (v.set .cycles (S.clock.copy s1).cycles)))
  | .load .ns s1 v =>
    let v := v.set .ns (S.clock.copy s1).ns
    match x.mode, decode v with
    | .now, some s => some (S.goto r (.raw s1 v s))
    | _, _ => some (S.goto r (.seq2 s1 v none))
  | .raw s1 v s =>
    some { S.goto r (.seq2 s1 v (some raw)) with
      raws := { reader := r, id := s.id, value := raw, time := S.time } :: S.raws }
  | .seq2 s1 v raw =>
    if s1 = S.clock.seq then
      some { S.goto r .idle with
        rets := { reader := r, out := output counter x.mode v raw, done := x.done,
                  first := x.first, last := S.time, bumped := x.bumped } :: S.rets }
    else
      some { S.goto r .seq1 with
        retries := { reader := r, first := x.first, last := S.time } :: S.retries }

def tick (S : ClockSys R) : ClockSys R := { S with time := S.time + 1 }

def step (counter : ClocksourceId → Option Counter) (S : ClockSys R) : Act R → Option (ClockSys R)
  | .write s =>
    if S.writer = .idle then
      some { S with writer := .bump false s, writes := S.writes ++ [s], time := S.time + 1 }
    else none
  | .writer => S.writerStep.map tick
  | .call r mode =>
    if (S.readers r).pc = .idle then
      some (S.setReader r { S.readers r with mode, pc := .seq1, done := S.done }).tick
    else none
  | .reader r raw => (S.readerStep counter r raw).map tick

end ClockSys

end VibeOS.Time
