import Mathlib.Data.Finset.Card
import Mathlib.Data.Finset.Range
import Mathlib.Logic.Function.Basic
import VibeOS.Lib.Bits

/-!
The allocator of pids and tids: use counts, a bitmap of the ids with a use, and the last id handed
out. Ids are handed out in increasing order, wrapping to `pidWrap`. The scan goes through the bitmap
word by word.
-/
namespace VibeOS.Process
open VibeOS.Lib

def pidMax : Nat := 32768
def pidWrap : Nat := 300
def pidWords : Nat := (pidMax + 63) / 64

structure PidAlloc where
  used : Fin pidWords → BitVec 64
  uses : Fin pidMax → Nat
  last : Nat
  max : Nat

namespace PidAlloc

def new (max : Nat) : PidAlloc :=
  { used := fun _ => 0
    uses := fun _ => 0
    last := 0
    max := if max ≤ pidWrap then pidWrap + 1 else if pidMax < max then pidMax else max }

def word (P : PidAlloc) (i : Nat) : Option (BitVec 64) :=
  if h : i < pidWords then some (P.used ⟨i, h⟩) else none

def setWord (P : PidAlloc) (i : Nat) (f : BitVec 64 → BitVec 64) : PidAlloc :=
  if h : i < pidWords then { P with used := Function.update P.used ⟨i, h⟩ (f (P.used ⟨i, h⟩)) }
  else P

/-- The uses of an id; `none` past the table. -/
def count (P : PidAlloc) (id : Nat) : Option Nat :=
  if h : id < pidMax then some (P.uses ⟨id, h⟩) else none

def setCount (P : PidAlloc) (id n : Nat) : PidAlloc :=
  if h : id < pidMax then { P with uses := Function.update P.uses ⟨id, h⟩ n } else P

/-- Give a free id its first use. -/
def mark (P : PidAlloc) (id : Nat) : PidAlloc :=
  (P.setCount id 1).setWord (id / 64) fun w => w ||| 1#64 <<< (id % 64)

/-- The loop of `find_free`. -/
def findFrom (P : PidAlloc) (hi id : Nat) : Option Nat :=
  if id < hi then
    match P.word (id / 64) with
    | none => none
    | some w =>
      -- bits below `id` in this word are outside the range: count them used
      let free := ~~~(w ||| ((1#64 <<< (id % 64)) - 1))
      if free ≠ 0 then
        let found := (id / 64) * 64 + free.ctz.toNat
        if found < hi then some found else none
      else P.findFrom hi ((id / 64 + 1) * 64)
  else none
termination_by hi - id

/-- The lowest free id in `lo..hi`, id 0 excluded. -/
def findFree (P : PidAlloc) (lo hi : Nat) : Option Nat :=
  P.findFrom hi (Nat.max lo 1)

def alloc (P : PidAlloc) : Option Nat × PidAlloc :=
  let start := Nat.min (P.last + 1) (2 ^ 32 - 1)
  match (P.findFree start P.max).or (P.findFree pidWrap (Nat.min start P.max)) with
  | none => (none, P)
  | some id => (some id, { P with last := id }.mark id)

def hold (P : PidAlloc) (id : Nat) : Bool × PidAlloc :=
  if id = 0 ∨ P.max ≤ id then (false, P)
  else
    match P.count id with
    | none => (false, P)
    | some n =>
      if n = 255 then (false, P)
      else if n = 0 then (true, P.mark id)
      else (true, P.setCount id (n + 1))

def free (P : PidAlloc) (id : Nat) : Bool × PidAlloc :=
  match P.count id with
  | none => (false, P)
  | some n =>
    if n = 0 then (false, P)
    else
      let P := P.setCount id (n - 1)
      (true, if n - 1 = 0 then P.setWord (id / 64) fun w => w &&& ~~~(1#64 <<< (id % 64)) else P)

def inUse (P : PidAlloc) (id : Nat) : Bool :=
  match P.count id with
  | some n => decide (0 < n)
  | none => false

def marked (P : PidAlloc) (id : Nat) : Bool :=
  match P.word (id / 64) with
  | some w => w.getLsbD (id % 64)
  | none => false

/-- The order in which the next id is looked for. -/
def order (P : PidAlloc) : List Nat :=
  List.range' (P.last + 1) (P.max - (P.last + 1)) ++ List.range' pidWrap (P.last + 1 - pidWrap)

end PidAlloc

inductive PidOp where
  | alloc
  | hold (id : Nat)
  | free (id : Nat)

namespace PidAlloc

def step (P : PidAlloc) : PidOp → PidAlloc
  | .alloc => P.alloc.2
  | .hold id => (P.hold id).2
  | .free id => (P.free id).2

def run (max : Nat) (ops : List PidOp) : PidAlloc :=
  ops.foldl step (new max)

variable {p : Nat → Bool} {a n r : Nat}

theorem find?_range' (hlo : a ≤ r) (hhi : r < a + n) (hr : p r = true)
    (hmin : ∀ i, a ≤ i → i < r → p i = false) :
    (List.range' a n).find? p = some r := by
  induction n generalizing a with
  | zero => omega
  | succ n ih =>
    rw [List.range'_succ, List.find?_cons]
    by_cases ha : a = r
    · rw [ha, hr]
    · rw [hmin a (Nat.le_refl a) (by omega)]
      exact ih (by omega) (by omega) fun i hi => hmin i (by omega)

theorem find?_range'_none (h : ∀ i, a ≤ i → i < a + n → p i = false) :
    (List.range' a n).find? p = none := by
  rw [List.find?_eq_none]
  intro i hi
  rw [List.mem_range'_1] at hi
  rw [h i hi.1 hi.2]
  exact Bool.false_ne_true

theorem find?_range'_some (h : (List.range' a n).find? p = some r) :
    a ≤ r ∧ r < a + n ∧ p r = true ∧ ∀ i, a ≤ i → i < r → p i = false := by
  induction n generalizing a with
  | zero => cases h
  | succ n ih =>
    rw [List.range'_succ, List.find?_cons] at h
    cases ha : p a with
    | true =>
      rw [ha] at h
      cases h
      exact ⟨Nat.le_refl r, by omega, ha, fun i hle hlt => by omega⟩
    | false =>
      rw [ha] at h
      obtain ⟨hlo, hhi, hr, hmin⟩ := ih h
      refine ⟨by omega, by omega, hr, fun i hle hlt => ?_⟩
      by_cases hi : i = a
      · exact hi ▸ ha
      · exact hmin i (by omega) hlt

variable {P : PidAlloc} {w : BitVec 64} {id i : Nat}

theorem marked_of_word (hword : P.word (id / 64) = some w) (hi : i / 64 = id / 64) :
    P.marked i = w.getLsbD (i % 64) := by
  unfold marked
  rw [hi, hword]

theorem free_of_word (hword : P.word (id / 64) = some w) (hi : i / 64 = id / 64) :
    (~~~(w ||| ((1#64 <<< (id % 64)) - 1))).getLsbD (i % 64) =
    (!P.marked i && decide (id ≤ i)) := by
  rw [BitVec.getLsbD_not, BitVec.getLsbD_or, getLsbD_low_mask (Nat.mod_lt id (by decide)),
    marked_of_word hword hi, decide_eq_true (Nat.mod_lt i (by decide)), Bool.true_and, Bool.not_or]
  congr 1
  rw [← decide_not, decide_eq_decide]
  omega

theorem marked_of_lt_ctz (hword : P.word (id / 64) = some w) (hle : id ≤ i)
    (hi : i / 64 = id / 64) (hlt : i % 64 < (~~~(w ||| ((1#64 <<< (id % 64)) - 1))).ctz.toNat) :
    P.marked i = true := by
  have hbit := BitVec.getLsbD_false_of_lt_ctz hlt
  rw [free_of_word hword hi, decide_eq_true hle, Bool.and_true] at hbit
  simpa using hbit

theorem findFrom_eq {hi : Nat} (hhi : hi ≤ pidMax) (id : Nat) :
    P.findFrom hi id = (List.range' id (hi - id)).find? fun i => !P.marked i := by
  fun_induction P.findFrom hi id with
  | case1 id hid hword =>
    exfalso
    unfold word at hword
    rw [dif_pos] at hword
    · cases hword
    · unfold pidWords pidMax at *
      omega
  | case2 id hid w hword free hfree found hfound =>
    have hbit := BitVec.getLsbD_true_ctz_of_ne_zero hfree
    have hk := BitVec.lt_of_getLsbD hbit
    have hdiv : found / 64 = id / 64 := by omega
    have hmod : found % 64 = free.ctz.toNat := by omega
    rw [← hmod, free_of_word hword hdiv, Bool.and_eq_true, decide_eq_true_eq] at hbit
    refine (find?_range' hbit.2 (by omega) hbit.1 fun i hle hlt => ?_).symm
    rw [marked_of_lt_ctz hword hle (by omega) (by change i % 64 < free.ctz.toNat; omega)]
    rfl
  | case3 id hid w hword free hfree found hfound =>
    have hk := BitVec.lt_of_getLsbD (BitVec.getLsbD_true_ctz_of_ne_zero hfree)
    refine (find?_range'_none fun i hle hlt => ?_).symm
    rw [marked_of_lt_ctz hword hle (by omega) (by change i % 64 < free.ctz.toNat; omega)]
    rfl
  | case4 id hid w hword free hfree ih =>
    have hall : ∀ i, id ≤ i → i < (id / 64 + 1) * 64 → P.marked i = true := by
      intro i hle hlt
      have hbit := free_of_word (i := i) hword (by omega)
      have hzero : (~~~(w ||| ((1#64 <<< (id % 64)) - 1))) = 0 := not_not.mp hfree
      rw [hzero, decide_eq_true hle, Bool.and_true] at hbit
      simpa using hbit.symm
    rw [ih]
    by_cases hend : (id / 64 + 1) * 64 ≤ hi
    · have hsplit : List.range' id (hi - id) =
          List.range' id ((id / 64 + 1) * 64 - id) ++
            List.range' ((id / 64 + 1) * 64) (hi - (id / 64 + 1) * 64) := by
        have := List.range'_append_1 (s := id) (m := (id / 64 + 1) * 64 - id)
          (n := hi - (id / 64 + 1) * 64)
        rw [show id + ((id / 64 + 1) * 64 - id) = (id / 64 + 1) * 64 by omega,
          show (id / 64 + 1) * 64 - id + (hi - (id / 64 + 1) * 64) = hi - id by omega] at this
        exact this.symm
      have hfirst : (List.range' id ((id / 64 + 1) * 64 - id)).find? (fun i => !P.marked i) =
          none := by
        refine find?_range'_none fun i hle hlt => ?_
        rw [hall i hle (by omega)]
        rfl
      rw [hsplit, List.find?_append, hfirst, Option.none_or]
    · rw [Nat.sub_eq_zero_of_le (by omega)]
      refine (find?_range'_none fun i hle hlt => ?_).symm
      rw [hall i hle (by omega)]
      rfl
  | case5 id hid =>
    rw [Nat.sub_eq_zero_of_le (by omega)]
    rfl

end PidAlloc
end VibeOS.Process
