import Mathlib.Algebra.Order.Ring.Nat
import Mathlib.Tactic.Common

/-!
The flight recorder's ring of one CPU. `push` clears a slot's `seq`, stores the fields one by one,
then `seq` and then the head; `get` loads `seq`, the fields and `seq` again. Every store and every
load is one step, of the one pusher or of any of the readers. The records pushed and those `get`
returned are kept beside the ring; no step reads them.
-/
namespace VibeOS.Log

inductive TraceEvent where
  | syscallEnter | syscallExit | switch | wake | irqEnter | irqExit | ipiSend | ipiAck | pageFault
  | blockSubmit | blockComplete
  deriving DecidableEq

namespace TraceEvent

def asU32 : TraceEvent → UInt32
  | syscallEnter => 1
  | syscallExit => 2
  | switch => 3
  | wake => 4
  | irqEnter => 5
  | irqExit => 6
  | ipiSend => 7
  | ipiAck => 8
  | pageFault => 9
  | blockSubmit => 10
  | blockComplete => 11

def fromU32 (v : UInt32) : Option TraceEvent :=
  match v.toNat with
  | 1 => some syscallEnter
  | 2 => some syscallExit
  | 3 => some switch
  | 4 => some wake
  | 5 => some irqEnter
  | 6 => some irqExit
  | 7 => some ipiSend
  | 8 => some ipiAck
  | 9 => some pageFault
  | 10 => some blockSubmit
  | 11 => some blockComplete
  | _ => none

theorem fromU32_asU32 (e : TraceEvent) : fromU32 e.asU32 = some e := by
  cases e <;> rfl

end TraceEvent

structure RecordData where
  seq : UInt64
  tsc : UInt64
  a : UInt64
  b : UInt64
  cpu : UInt32
  event : UInt32
  deriving DecidableEq

/-- The fields of a record but for `seq`, in the order both sides access them. -/
inductive TraceField where
  | tsc | a | b | cpu | event
  deriving DecidableEq

def TraceField.all : List TraceField := [.tsc, .a, .b, .cpu, .event]

namespace RecordData

def zero : RecordData := ⟨0, 0, 0, 0, 0, 0⟩

/-- One field of `x` into `r`. -/
def copy (x r : RecordData) : TraceField → RecordData
  | .tsc => { r with tsc := x.tsc }
  | .a => { r with a := x.a }
  | .b => { r with b := x.b }
  | .cpu => { r with cpu := x.cpu }
  | .event => { r with event := x.event }

@[simp] theorem seq_copy (x r : RecordData) (f : TraceField) : (copy x r f).seq = r.seq := by
  cases f <;> rfl

theorem copy_seq (x r : RecordData) (f : TraceField) (s : UInt64) :
    { copy x r f with seq := s } = copy x { r with seq := s } f := by
  cases f <;> rfl

/-- The fields still to do, all from `x`. -/
def fill (x r : RecordData) (todo : List TraceField) : RecordData :=
  todo.foldl x.copy r

theorem fill_all {x r : RecordData} (h : r.seq = x.seq) : x.fill r TraceField.all = x := by
  obtain ⟨seq, tsc, a, b, cpu, event⟩ := r
  cases h
  rfl

end RecordData

/-- Slot data read for position `pos` is that record when its `seq` is `pos + 1` and it names an
event. -/
def validAt (pos : UInt64) (r : RecordData) : Bool :=
  r.seq != 0 && r.seq == pos + 1 && (TraceEvent.fromU32 r.event).isSome

/-- The valid records of a ring, oldest first. -/
def ordered (head : UInt64) (records : List RecordData) : List RecordData :=
  let n := records.length
  let start := head.toNat - n
  (List.range' start (head.toNat - start)).filterMap fun pos =>
    match records[pos % n]? with
    | some r => if validAt (.ofNat pos) r then some r else none
    | none => none

structure TraceEntry where
  cpu : UInt32
  event : TraceEvent
  tsc : UInt64
  a : UInt64
  b : UInt64
  deriving DecidableEq

/-- What a push leaves at its position. -/
def TraceEntry.record (e : TraceEntry) (pos : UInt64) : RecordData :=
  { seq := pos + 1, tsc := e.tsc, a := e.a, b := e.b, cpu := e.cpu, event := e.event.asU32 }

structure TraceRing (N : Nat) where
  head : UInt64
  slots : Fin N → RecordData

/-- The next store of a push: one of the fields left, `seq` when none is, or the head. -/
inductive PushPc where
  | fields (todo : List TraceField)
  | head

/-- A push after its first store. -/
structure Pushing (N : Nat) where
  pos : UInt64
  slot : Fin N
  whole : RecordData
  pc : PushPc

/-- A `get` after its first load, with the fields it has and those it has not. -/
structure Reading (N : Nat) where
  pos : UInt64
  slot : Fin N
  data : RecordData
  todo : List TraceField

structure TraceSys (R : Type) (N : Nat) where
  ring : TraceRing N
  pusher : Option (Pushing N)
  readers : R → Option (Reading N)
  pushed : List TraceEntry
  returned : List (UInt64 × RecordData)

inductive TraceAct (R : Type) where
  | push (e : TraceEntry)
  | store
  | get (r : R) (pos : UInt64)
  | load (r : R)

namespace TraceRing
variable {N : Nat}

def setSlot (ring : TraceRing N) (i : Fin N) (r : RecordData) : TraceRing N :=
  { ring with slots := Function.update ring.slots i r }

@[simp] theorem setSlot_self (ring : TraceRing N) (i : Fin N) (r : RecordData) :
    (ring.setSlot i r).slots i = r := Function.update_self ..

theorem setSlot_ne (ring : TraceRing N) {i j : Fin N} (h : j ≠ i) (r : RecordData) :
    (ring.setSlot i r).slots j = ring.slots j := Function.update_of_ne h ..

end TraceRing

namespace TraceSys
variable {R : Type} [DecidableEq R] {N : Nat}

def init : TraceSys R N :=
  { ring := ⟨0, fun _ => .zero⟩, pusher := none, readers := fun _ => none, pushed := [],
    returned := [] }

/-- The start of `push`, up to its first store. -/
def push (S : TraceSys R N) (e : TraceEntry) : TraceSys R N :=
  if h : 0 < N then
    let pos := S.ring.head
    let slot : Fin N := ⟨pos.toNat % N, Nat.mod_lt _ h⟩
    { S with
      ring := S.ring.setSlot slot { S.ring.slots slot with seq := 0 }
      pusher := some ⟨pos, slot, e.record pos, .fields TraceField.all⟩
      pushed := S.pushed ++ [e] }
  else S

def store (S : TraceSys R N) (p : Pushing N) : TraceSys R N :=
  match p.pc with
  | .fields (f :: todo) =>
    { S with
      ring := S.ring.setSlot p.slot (p.whole.copy (S.ring.slots p.slot) f)
      pusher := some { p with pc := .fields todo } }
  | .fields [] =>
    { S with
      ring := S.ring.setSlot p.slot { S.ring.slots p.slot with seq := p.pos + 1 }
      pusher := some { p with pc := .head } }
  | .head => { S with ring := { S.ring with head := p.pos + 1 }, pusher := none }

def setReader (S : TraceSys R N) (r : R) (g : Option (Reading N)) : TraceSys R N :=
  { S with readers := Function.update S.readers r g }

/-- The start of `get`, up to its first load. -/
def get (S : TraceSys R N) (r : R) (pos : UInt64) : TraceSys R N :=
  if h : 0 < N then
    let slot : Fin N := ⟨pos.toNat % N, Nat.mod_lt _ h⟩
    S.setReader r
      (some ⟨pos, slot, { RecordData.zero with seq := (S.ring.slots slot).seq }, TraceField.all⟩)
  else S

/-- A field, or the second load of `seq` and the return. -/
def load (S : TraceSys R N) (r : R) (g : Reading N) : TraceSys R N :=
  match g.todo with
  | f :: todo => S.setReader r (some { g with data := (S.ring.slots g.slot).copy g.data f, todo })
  | [] =>
    if (S.ring.slots g.slot).seq = g.data.seq ∧ validAt g.pos g.data then
      { S with returned := (g.pos, g.data) :: S.returned }.setReader r none
    else S.setReader r none

/-- Only the ring's own CPU pushes, so no push starts before the last one has ended. -/
def step (S : TraceSys R N) : TraceAct R → TraceSys R N
  | .push e =>
    match S.pusher with
    | none => S.push e
    | some _ => S
  | .store =>
    match S.pusher with
    | none => S
    | some p => S.store p
  | .get r pos =>
    match S.readers r with
    | none => S.get r pos
    | some _ => S
  | .load r =>
    match S.readers r with
    | none => S
    | some g => S.load r g

def run (N : Nat) (acts : List (TraceAct R)) : TraceSys R N :=
  acts.foldl step init

def recordAt (S : TraceSys R N) (q : Nat) : Option RecordData :=
  S.pushed[q]?.map fun e => e.record (.ofNat q)

end TraceSys
end VibeOS.Log
