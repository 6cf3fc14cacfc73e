import Mathlib.Algebra.Order.Ring.Nat
import VibeOS.Lib.Circle

/-!
The sweep for overdue threads. One pass over the table keeps the smallest overdue ids it accepts at
the front of the caller's buffer, shifting in place; a sweep makes a pass from its start id upwards
and one from the bottom into what is left of the buffer. The next sweep starts one past the last id
written, so the sweeps go round the ids and leave none out. A deadline is in ticks of the clock, the
largest for none.
-/
namespace VibeOS.Thread
open Lib

abbrev ThreadId := Nat

abbrev farDeadline : Nat :=
  2 ^ 64 - 1

inductive ThreadState where
  | ready
  | running
  | sleeping (deadline : Nat)
  /-- Blocked on the wait queue at address `wq`, or on none when that is 0. -/
  | blocked (wq deadline : Nat)
  | dead
  deriving DecidableEq, Repr

def overdueNs : Nat :=
  5000000000

def isOverdue (state : ThreadState) (now : Nat) : Bool :=
  match state with
  | .sleeping deadline | .blocked _ deadline =>
    deadline != farDeadline && decide (overdueNs ≤ now - deadline)
  | .ready | .running | .dead => false

/-- Move `out[pos..i]` up by one. -/
def shiftUp (pos : Nat) : Nat → List ThreadId → List ThreadId
  | 0, out => out
  | i + 1, out =>
    if pos < i + 1 then shiftUp pos i (out.set (i + 1) (out.getD i 0)) else out

/-- Put `id` among the first `n` of `out`, which are sorted; the largest falls out when there
is no room. -/
def insertOverdue (id : ThreadId) (n : Nat) (out : List ThreadId) : Nat × List ThreadId :=
  let pos := ((out.take n).findIdx? fun o => decide (id < o)).getD n
  if n < out.length then (n + 1, (shiftUp pos n out).set pos id)
  else if pos = n then (n, out)
  else (n, (shiftUp pos (n - 1) out).set pos id)

def passThread (now : Nat) (keep : ThreadId → Bool) (s : Nat × List ThreadId)
    (t : ThreadId × ThreadState) : Nat × List ThreadId :=
  if !keep t.1 || !isOverdue t.2 now then s else insertOverdue t.1 s.1 s.2

def smallestOverdue (threads : List (ThreadId × ThreadState)) (now : Nat) (keep : ThreadId → Bool)
    (out : List ThreadId) : Nat × List ThreadId :=
  threads.foldl (passThread now keep) (0, out)

/-- How many ids a sweep wrote, the start of the next, and the buffer. -/
structure Swept where
  written : Nat
  next : ThreadId
  out : List ThreadId
  deriving DecidableEq, Repr

/-- The two passes of a sweep: from `start` upwards, then the ids below it into the rest. -/
def sweepPasses (threads : List (ThreadId × ThreadState)) (now : Nat) (start : ThreadId)
    (out : List ThreadId) : Nat × List ThreadId :=
  let (n, out) := smallestOverdue threads now (fun id => decide (start ≤ id)) out
  if n < out.length then
    let (more, rest) := smallestOverdue threads now (fun id => decide (id < start)) (out.drop n)
    (n + more, out.take n ++ rest)
  else (n, out)

def findOverdue (threads : List (ThreadId × ThreadState)) (now : Nat) (start : ThreadId)
    (out : List ThreadId) : Swept :=
  let (n, out) := sweepPasses threads now start out
  let next :=
    match (if n = 0 then none else out[n - 1]?) with
    | some last => (last + 1) % 2 ^ 32
    | none => start
  ⟨n, next, out⟩

/-- The ids of the overdue threads, as the table lists them. -/
def overdueIds (threads : List (ThreadId × ThreadState)) (now : Nat) : List ThreadId :=
  (threads.filter fun t => isOverdue t.2 now).map Prod.fst

section Pass
variable {id x : ThreadId} {n i now : Nat} {out done low mid high : List ThreadId}
  {keep : ThreadId → Bool} {threads : List (ThreadId × ThreadState)}

theorem set_shiftUp (id : ThreadId) (low mid high : List ThreadId) (x : ThreadId) :
    (shiftUp low.length (low.length + mid.length) (low ++ mid ++ x :: high)).set low.length id =
      low ++ id :: mid ++ high := by
  -- the hole moves down from the end of the piece to its first cell
  induction mid using List.reverseRecOn generalizing x high with
  | nil =>
    have hstop (l : List ThreadId) : shiftUp low.length low.length l = l := by
      cases low with
      | nil => rfl
      | cons _ _ => simp [shiftUp]
    simp [hstop]
  | append_singleton mid z ih =>
    have hmove : ((low ++ (mid ++ [z]) ++ x :: high).set (low.length + mid.length + 1)
        ((low ++ (mid ++ [z]) ++ x :: high).getD (low.length + mid.length) 0)) =
        low ++ mid ++ z :: z :: high := by
      have hlen : (low ++ mid).length = low.length + mid.length := List.length_append
      rw [show low ++ (mid ++ [z]) ++ x :: high = (low ++ mid) ++ z :: x :: high by simp,
        ← hlen, List.set_append_right _ _ (by omega)]
      simp
    rw [List.length_append, List.length_singleton, ← Nat.add_assoc, shiftUp, if_pos (by omega),
      hmove, ih]
    simp

theorem insertOverdue_eq {kept : List ThreadId} (rest : List ThreadId) (hid : id ∉ kept) :
    insertOverdue id kept.length (kept ++ rest) =
      (min (kept ++ rest).length (kept.length + 1),
        (kept.orderedInsert (· ≤ ·) id ++ rest.tail).take (kept ++ rest).length) := by
  unfold insertOverdue
  rw [List.take_left, ← List.findIdx_eq_getD_findIdx?, ← insert_findIdx hid]
  have hle : kept.findIdx (decide <| id < ·) ≤ kept.length := List.findIdx_le_length
  generalize kept.findIdx (decide <| id < ·) = pos at *
  obtain ⟨low, mid, rfl, rfl⟩ : ∃ low mid, kept = low ++ mid ∧ pos = low.length :=
    ⟨kept.take pos, kept.drop pos, (List.take_append_drop pos kept).symm, by simp [hle]⟩
  rw [List.take_left, List.drop_left]
  cases rest with
  | cons x high =>
    dsimp only
    rw [if_pos (by simp), List.length_append, set_shiftUp]
    simp only [List.append_assoc, List.cons_append, List.length_append, List.length_cons,
      List.tail_cons, Prod.mk.injEq, right_eq_inf, List.take_self_eq_iff, Nat.add_le_add_iff_left]
    omega
  | nil =>
    dsimp only
    rw [if_neg (by simp)]
    cases mid using List.reverseRecOn with
    | nil => simp
    | append_singleton mid y =>
      have hlast : (low ++ (mid ++ [y])).length - 1 = low.length + mid.length := by
        simp
      have hfull : low ++ id :: (mid ++ [y]) = (low ++ id :: mid) ++ [y] := by simp
      rw [if_neg (by simp), hlast, show low ++ (mid ++ [y]) ++ [] = low ++ mid ++ [y] by simp,
        set_shiftUp, hfull, List.tail_nil, List.append_nil, List.append_nil,
        List.take_left' (by simp)]
      simp

/-- The buffer after the ids `done`: the smallest that fit, in order, then what was there. -/
def Kept (out : List ThreadId) (done : List ThreadId) (s : Nat × List ThreadId) : Prop :=
  s = (min out.length done.length,
    (done.insertionSort (· ≤ ·)).take out.length ++ out.drop (min out.length done.length))

theorem Kept.insert {s : Nat × List ThreadId} (h : Kept out done s) (hid : id ∉ done) :
    Kept out (done ++ [id]) (insertOverdue id s.1 s.2) := by
  obtain rfl : s = _ := h
  have hmem : id ∉ (done.insertionSort (· ≤ ·)).take out.length := fun hin =>
    hid ((List.mem_insertionSort _).mp (List.mem_of_mem_take hin))
  have hlen : ((done.insertionSort (· ≤ ·)).take out.length).length =
      min out.length done.length := by
    simp
  have hspec := insertOverdue_eq (out.drop (min out.length done.length)) hmem
  have hwhole : ((done.insertionSort (· ≤ ·)).take out.length ++
      out.drop (min out.length done.length)).length = out.length := by
    simp
  rw [hlen, hwhole, List.tail_drop] at hspec
  unfold Kept
  rw [hspec, insertionSort_concat, List.length_append, List.length_singleton]
  congr 1
  · omega
  · rw [List.take_append, take_orderedInsert_take]
    congr 1
    rw [List.orderedInsert_length, hlen]
    rcases Nat.lt_or_ge done.length out.length with hroom | hfull
    · rw [Nat.min_eq_right hroom.le, Nat.min_eq_right hroom, List.take_of_length_le (by simp)]
    · rw [Nat.min_eq_left hfull, Nat.min_eq_left (by omega)]
      simp

theorem Kept.foldl {s : Nat × List ThreadId} (h : Kept out done s)
    (hnodup : (done ++ threads.map Prod.fst).Nodup) :
    Kept out (done ++ (overdueIds threads now).filter keep)
      (threads.foldl (passThread now keep) s) := by
  induction threads generalizing done s with
  | nil => simpa [overdueIds] using h
  | cons t threads ih =>
    obtain ⟨id, state⟩ := t
    rw [List.map_cons, List.append_cons] at hnodup
    have hfresh : id ∉ done := fun hin =>
      (List.nodup_append.mp (List.nodup_append.mp hnodup).1).2.2 id hin id (by simp) rfl
    have hrest : (done ++ threads.map Prod.fst).Nodup :=
      hnodup.sublist ((List.sublist_append_left done [id]).append (List.Sublist.refl _))
    by_cases htake : keep id = true ∧ isOverdue state now = true
    · have hnext := ih (h.insert hfresh) hnodup
      simpa [overdueIds, passThread, htake] using hnext
    · have hskip : passThread now keep s (id, state) = s := by
        unfold passThread
        rw [if_pos (by simpa [Decidable.imp_iff_not_or] using htake)]
      have hnot : (overdueIds ((id, state) :: threads) now).filter keep =
          (overdueIds threads now).filter keep := by
        unfold overdueIds
        rw [List.filter_cons]
        split_ifs with hdue
        · rw [List.map_cons, List.filter_cons_of_neg (fun hkeep => htake ⟨hkeep, hdue⟩)]
        · rfl
      rw [List.foldl_cons, hskip, hnot]
      exact ih h hrest

theorem smallestOverdue_eq (hids : (threads.map Prod.fst).Nodup) (now : Nat)
    (keep : ThreadId → Bool) (out : List ThreadId) :
    Kept out ((overdueIds threads now).filter keep) (smallestOverdue threads now keep out) := by
  have hstart : Kept out [] (0, out) := by simp [Kept]
  exact hstart.foldl hids

end Pass

section Sweeps
variable {threads : List (ThreadId × ThreadState)} {now : Nat} {start : ThreadId}

theorem nodup_overdueIds (hids : (threads.map Prod.fst).Nodup) : (overdueIds threads now).Nodup :=
  hids.sublist (List.filter_sublist.map _)

theorem overdueIds_lt (hu32 : ∀ t ∈ threads, t.1 < 2 ^ 32) :
    ∀ id ∈ overdueIds threads now, id < 2 ^ 32 := by
  intro id hid
  obtain ⟨t, ht, rfl⟩ := List.mem_map.mp hid
  exact hu32 t (List.mem_filter.mp ht).1

/-- The overdue ids in the order of a sweep. -/
def sweepOrder (threads : List (ThreadId × ThreadState)) (now : Nat) (start : ThreadId) :
    List ThreadId :=
  around (2 ^ 32) start (overdueIds threads now)

theorem length_sweepOrder (threads : List (ThreadId × ThreadState)) (now : Nat) (start : ThreadId) :
    (sweepOrder threads now start).length = (overdueIds threads now).length :=
  (around_perm _ _ _).length_eq

theorem sweepPasses_eq (hids : (threads.map Prod.fst).Nodup) (hu32 : ∀ t ∈ threads, t.1 < 2 ^ 32)
    (hstart : start < 2 ^ 32) (now : Nat) (out : List ThreadId) :
    sweepPasses threads now start out =
      (min out.length (overdueIds threads now).length,
        (sweepOrder threads now start).take out.length ++
          out.drop (min out.length (overdueIds threads now).length)) := by
  have hsplit : sweepOrder threads now start = _ := around_split hstart (overdueIds_lt hu32)
  have hupper := smallestOverdue_eq hids now (fun id => decide (start ≤ id)) out
  have hlower := smallestOverdue_eq hids now (fun id => decide (id < start))
  unfold Kept at hupper hlower
  rw [← length_sweepOrder, hsplit, sweepPasses, hupper]
  have hlen (p : ThreadId → Bool) : ((overdueIds threads now).filter p).length =
      (((overdueIds threads now).filter p).insertionSort (· ≤ ·)).length := by simp
  simp only [hlen] at hlower ⊢
  generalize ((overdueIds threads now).filter fun id => decide (start ≤ id)).insertionSort
    (· ≤ ·) = upper at *
  generalize ((overdueIds threads now).filter fun id => decide (id < start)).insertionSort
    (· ≤ ·) = lower at *
  have hroom : (upper.take out.length ++ out.drop (min out.length upper.length)).length =
      out.length := by simp
  rw [hroom]
  rcases Nat.lt_or_ge upper.length out.length with hlt | hge
  · rw [Nat.min_eq_right hlt.le, if_pos hlt, List.take_of_length_le hlt.le, List.drop_left,
      List.take_left, hlower, List.take_append, List.take_of_length_le hlt.le, List.length_drop,
      List.length_append, List.drop_drop, List.append_assoc]
    have hmin : upper.length + min (out.length - upper.length) lower.length =
        min out.length (upper.length + lower.length) := by omega
    rw [hmin]
  · rw [Nat.min_eq_left hge, if_neg (lt_irrefl _), List.length_append,
      List.take_append_of_le_length hge, Nat.min_eq_left (by omega)]

theorem findOverdue_eq (hids : (threads.map Prod.fst).Nodup) (hu32 : ∀ t ∈ threads, t.1 < 2 ^ 32)
    (hstart : start < 2 ^ 32) (now : Nat) (out : List ThreadId) :
    let swept := findOverdue threads now start out
    swept.written = min out.length (overdueIds threads now).length ∧
      swept.out = (sweepOrder threads now start).take out.length ++ out.drop swept.written ∧
      (0 < out.length → swept.next < 2 ^ 32 ∧
        sweepOrder threads now swept.next =
          (sweepOrder threads now start).rotate swept.written) := by
  have hpasses := sweepPasses_eq hids hu32 hstart now out
  have hlen := length_sweepOrder threads now start
  simp only [findOverdue, hpasses]
  refine ⟨trivial, trivial, fun hout => ?_⟩
  by_cases hnone : (overdueIds threads now).length = 0
  · rw [hnone, Nat.min_zero, if_pos rfl]
    exact ⟨hstart, (List.rotate_zero _).symm⟩
  · have hpos : min out.length (overdueIds threads now).length ≠ 0 := by omega
    rw [if_neg hpos]
    generalize hk : min out.length (overdueIds threads now).length - 1 = k
    have hlt : k < (sweepOrder threads now start).length := by omega
    have hlast : ((sweepOrder threads now start).take out.length ++
        out.drop (min out.length (overdueIds threads now).length))[k]? =
        (sweepOrder threads now start)[k]? := by
      rw [List.getElem?_append_left (by simp; omega), List.getElem?_take, if_pos (by omega)]
    rw [hlast, List.getElem?_eq_getElem hlt]
    refine ⟨Nat.mod_lt _ (by decide), ?_⟩
    rw [show min out.length (overdueIds threads now).length = k + 1 by omega]
    exact around_rotate hstart (overdueIds_lt hu32) (nodup_overdueIds hids)
      (List.getElem?_eq_getElem hlt)

/-- Sweeps one after another: what each finds in the table and the buffer it is given. -/
structure Sweeps where
  tables : Nat → List (ThreadId × ThreadState)
  now : Nat → Nat
  bufs : Nat → List ThreadId

namespace Sweeps
variable (s : Sweeps)

/-- Where sweep `k` starts: the first at `start`, the others at the id the last returned. -/
def cursor (start : ThreadId) : Nat → ThreadId
  | 0 => start
  | k + 1 => (findOverdue (s.tables k) (s.now k) (cursor start k) (s.bufs k)).next

/-- The ids sweep `k` reports. -/
def reported (start : ThreadId) (k : Nat) : List ThreadId :=
  let swept := findOverdue (s.tables k) (s.now k) (s.cursor start k) (s.bufs k)
  swept.out.take swept.written

end Sweeps

theorem Sweeps.order (s : Sweeps) {len : Nat} {due : List ThreadId} (hlen : 0 < len)
    (hbufs : ∀ k, (s.bufs k).length = len) (hids : ∀ k, ((s.tables k).map Prod.fst).Nodup)
    (hu32 : ∀ k, ∀ t ∈ s.tables k, t.1 < 2 ^ 32) (hstart : start < 2 ^ 32)
    (hdue : ∀ k, (overdueIds (s.tables k) (s.now k)).Perm due) (k : Nat) :
    s.cursor start k < 2 ^ 32 ∧ sweepOrder (s.tables k) (s.now k) (s.cursor start k) =
      (around (2 ^ 32) start due).rotate (k * min len due.length) := by
  have hsame (j : Nat) {c : ThreadId} (hc : c < 2 ^ 32) :
      sweepOrder (s.tables j) (s.now j) c = around (2 ^ 32) c due :=
    around_congr hc (overdueIds_lt (hu32 j)) (hdue j).symm
  induction k with
  | zero =>
    rw [Nat.zero_mul, List.rotate_zero]
    exact ⟨hstart, hsame 0 hstart⟩
  | succ k ih =>
    obtain ⟨hcursor, horder⟩ := ih
    obtain ⟨hwritten, -, hnext⟩ := findOverdue_eq (hids k) (hu32 k) hcursor (s.now k) (s.bufs k)
    obtain ⟨hlt, hturn⟩ := hnext (by rw [hbufs k]; exact hlen)
    refine ⟨hlt, ?_⟩
    calc sweepOrder (s.tables (k + 1)) (s.now (k + 1)) (s.cursor start (k + 1))
        = around (2 ^ 32) (s.cursor start (k + 1)) due := hsame (k + 1) hlt
      _ = sweepOrder (s.tables k) (s.now k) (s.cursor start (k + 1)) := (hsame k hlt).symm
      _ = (sweepOrder (s.tables k) (s.now k) (s.cursor start k)).rotate
            (min len due.length) := by
          rw [← hbufs k, ← (hdue k).length_eq, ← hwritten]
          exact hturn
      _ = (around (2 ^ 32) start due).rotate ((k + 1) * min len due.length) := by
          rw [horder, List.rotate_rotate, Nat.succ_mul]

/-- A sweep writes the first overdue ids from its start on, each once, and no more of the buffer;
sweeps that each start where the last left off report every overdue thread in as many rounds as
their buffers need to hold them all. -/
theorem overdue_sweeps :
    (∀ (threads : List (ThreadId × ThreadState)) (now : Nat) (start : ThreadId)
        (out : List ThreadId), (threads.map Prod.fst).Nodup → (∀ t ∈ threads, t.1 < 2 ^ 32) →
        start < 2 ^ 32 → out ≠ [] →
      let swept := findOverdue threads now start out
      swept.written = min out.length (overdueIds threads now).length ∧
        swept.out = (around (2 ^ 32) start (overdueIds threads now)).take out.length ++
          out.drop swept.written ∧
        (swept.out.take swept.written).Nodup) ∧
    ∀ (s : Sweeps) (start : ThreadId) (len : Nat) (due : List ThreadId), 0 < len →
      (∀ k, (s.bufs k).length = len) → (∀ k, ((s.tables k).map Prod.fst).Nodup) →
      (∀ k, ∀ t ∈ s.tables k, t.1 < 2 ^ 32) → start < 2 ^ 32 →
      (∀ k, (overdueIds (s.tables k) (s.now k)).Perm due) →
      ∀ id ∈ due, ∃ k < (due.length + len - 1) / len, id ∈ s.reported start k := by
  have hreport {threads : List (ThreadId × ThreadState)} {now : Nat} {start : ThreadId}
      {out : List ThreadId} (hids : (threads.map Prod.fst).Nodup)
      (hu32 : ∀ t ∈ threads, t.1 < 2 ^ 32) (hstart : start < 2 ^ 32) :
      (findOverdue threads now start out).out.take (findOverdue threads now start out).written =
        (sweepOrder threads now start).take out.length := by
    obtain ⟨hwritten, hout, -⟩ := findOverdue_eq hids hu32 hstart now out
    rw [hout, hwritten]
    exact List.take_left' (by simp [length_sweepOrder])
  refine ⟨?_, ?_⟩
  · intro threads now start out hids hu32 hstart _
    obtain ⟨hwritten, hout, -⟩ := findOverdue_eq hids hu32 hstart now out
    refine ⟨hwritten, hout, ?_⟩
    rw [hreport hids hu32 hstart]
    exact ((around_perm _ _ _).nodup_iff.mpr (nodup_overdueIds hids)).sublist
      (List.take_sublist _ _)
  · intro s start len due hlen hbufs hids hu32 hstart hdue id hid
    have hwalk : (around (2 ^ 32) start due).length = due.length := (around_perm _ _ _).length_eq
    obtain ⟨k, hk, hmem⟩ := mem_pieces hlen ((around_perm (2 ^ 32) start due).mem_iff.mpr hid)
    rw [hwalk] at hk hmem
    obtain ⟨hcursor, horder⟩ := s.order hlen hbufs hids hu32 hstart hdue k
    refine ⟨k, hk, ?_⟩
    unfold Sweeps.reported
    dsimp only
    rw [hreport (hids k) (hu32 k) hcursor, horder, hbufs k]
    exact hmem

theorem overdue_sweeps_round :
    let table : List (ThreadId × ThreadState) :=
      [(7, .sleeping 1), (2, .blocked 0 2), (3, .ready), (5, .sleeping 0)]
    let s : Sweeps := ⟨fun _ => table, fun _ => 6000000000, fun _ => [0, 0]⟩
    (findOverdue table 6000000000 5 [0, 0]).out = [5, 7] ∧
      (findOverdue table 6000000000 5 [0, 0]).written = 2 ∧
      ∀ id ∈ [7, 2, 5], ∃ k < 2, id ∈ s.reported 5 k := by
  intro table s
  have hids : (table.map Prod.fst).Nodup := by decide
  have hu32 : ∀ t ∈ table, t.1 < 2 ^ 32 := by decide
  refine ⟨by decide, ?_, ?_⟩
  · exact (overdue_sweeps.1 table 6000000000 5 [0, 0] hids hu32 (by decide) (by decide)).1
  · exact overdue_sweeps.2 s 5 2 [7, 2, 5] (by decide) (fun _ => rfl) (fun _ => hids)
      (fun _ => hu32) (by decide) (fun _ => List.Perm.refl _)

end Sweeps
end VibeOS.Thread
