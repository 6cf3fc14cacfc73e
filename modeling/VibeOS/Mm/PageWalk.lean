import Mathlib.Data.List.SplitBy
import VibeOS.Mm.PageRuns

/-!
Walks over a range of addresses. A probe finds the leaf that covers an address, or tells how far the
empty slot around it reaches; the addresses between the canonical halves are one such gap. The
search for anything mapped and the walk that reports the mapped leaves go from probe to probe, and
the walk joins adjacent leaves of one size whose flags differ at most in the bits the processor sets
by itself.
-/
namespace VibeOS.Mm
open Lib

structure VirtAddr where
  val : Nat
  lt : val < 2 ^ 64
  deriving DecidableEq

namespace PageFlags

def accessed : Nat := 1 <<< 5

def dirty : Nat := 1 <<< 6

/-- The flags without the two bits the processor sets. -/
def settled (flags : Nat) : Nat := flags &&& (2 ^ 64 - 1 - (accessed ||| dirty))

end PageFlags

inductive Probe where
  | skip (n : Nat)
  | mapped (pa : Nat) (size : PageSize) (flags : Nat)
  deriving DecidableEq, Repr

/-- A 64-bit addition that stops at the last address. -/
@[irreducible] def addSat (x y : Nat) : Nat := min (x + y) (2 ^ 64 - 1)

theorem lt_addSat {va n : Nat} {stop : VirtAddr} (h : va < stop.val) (hn : 0 < n) :
    va < addSat va n := by
  have := stop.lt
  unfold addSat
  omega

@[irreducible] def slotRemaining (va level : Nat) : Nat :=
  let span := 1 <<< (12 + 9 * (level - 1))
  let slotBase := va &&& (2 ^ 64 - span)
  let slotEnd := (slotBase + span) % 2 ^ 64
  if slotEnd > va then slotEnd - va else span

def upperHalf : Nat := 0xFFFF800000000000

/-- A run of leaves, as it is reported. -/
structure Run where
  va : Nat
  len : Nat
  flags : Nat
  size : PageSize
  deriving DecidableEq, Repr

structure Leaf where
  base : Nat
  size : PageSize
  flags : Nat
  deriving DecidableEq, Repr

def Leaf.run (l : Leaf) : Run := ⟨l.base, l.size.bytes, l.flags, l.size⟩

namespace Run

def joins (r : Run) (l : Leaf) : Bool :=
  r.size = l.size && PageFlags.settled r.flags = PageFlags.settled l.flags && r.va + r.len = l.base

/-- The run with one leaf more, or the run reported and a new one begun. -/
def see : Option Run → Leaf → List Run × Option Run
  | none, l => ([], some l.run)
  | some r, l =>
    if r.joins l then ([], some { r with len := r.len + l.size.bytes }) else ([r], some l.run)

end Run

namespace Mapper

/-- The loop of `probe` from a table of the level on. -/
def probeFrom (m : Mapper) (va : Nat) : Nat → Nat → Probe
  | 0, _ => .skip 1
  | level + 1, table =>
    let entry := m.mem table (index va (level + 1))
    if !isPresent entry then .skip (slotRemaining va (level + 1))
    else if level + 1 = 1 || isHuge entry then
      .mapped (entryPhys entry) (sizeAt (level + 1)) (entryFlags entry)
    else m.probeFrom va level (entryPhys entry)

def probe (m : Mapper) (va : Nat) : Probe :=
  if !isCanonical va then
    if va < upperHalf then .skip (upperHalf - va) else .skip pageSize4K
  else m.probeFrom va levels m.root

/-- The loop of `range_unmapped` from an address on, around the probe. -/
def unmappedFrom (probe : Nat → Probe) (start stop : VirtAddr) (va : Nat) : Bool :=
  if _h : va < stop.val then
    match probe va with
    | .mapped .. => false
    | .skip n =>
      let next := addSat va (max n 1)
      if next ≤ start.val then true else unmappedFrom probe start stop next
  else true
termination_by stop.val - va
decreasing_by
  exact Nat.sub_lt_sub_left ‹_› (lt_addSat ‹_› (Nat.le_max_right n 1))

def rangeUnmapped (m : Mapper) (start stop : VirtAddr) : Bool :=
  unmappedFrom m.probe start stop start.val

/-- The loop of `walk_ranges` from an address on, around the probe, with the run not yet reported.
-/
def walkFrom (probe : Nat → Probe) (stop : VirtAddr) (va : Nat) (run : Option Run) : List Run :=
  if _ : va < stop.val then
    match probe va with
    | .skip n =>
      let next := addSat va (max n 1)
      run.toList ++ if _h : next ≤ va then [] else walkFrom probe stop next none
    | .mapped _ size flags =>
      let leafBase := va &&& (2 ^ 64 - size.bytes)
      let leafEnd := addSat leafBase size.bytes
      let (visited, run) := Run.see run ⟨leafBase, size, flags⟩
      visited ++ if _h : leafEnd ≤ va then run.toList else walkFrom probe stop leafEnd run
  else run.toList
termination_by stop.val - va
decreasing_by
  · exact Nat.sub_lt_sub_left ‹_› (Nat.lt_of_not_le _h)
  · exact Nat.sub_lt_sub_left ‹_› (Nat.lt_of_not_le _h)

def walkRanges (m : Mapper) (start stop : VirtAddr) : List Run :=
  walkFrom m.probe stop start.val none

end Mapper

namespace Leaf

def Covers (l : Leaf) (x : Nat) : Prop := l.base ≤ x ∧ x < l.base + l.size.bytes

def Meets (l : Leaf) (start stop : Nat) : Prop := ∃ x, start ≤ x ∧ x < stop ∧ l.Covers x

/-- The second leaf continues a run that ends with the first. -/
def joins (l l' : Leaf) : Bool := l.run.joins l'

end Leaf

/-- What the leaves of a group are reported as. -/
def runOf : List Leaf → Run
  | [] => ⟨0, 0, 0, .size4K⟩
  | l :: ls => ⟨l.base, ((l :: ls).map fun x => x.size.bytes).sum, l.flags, l.size⟩

/-- What a probe has to tell about the leaves: where it skips there are none, and what it finds is
the leaf at its address. -/
structure ProbeSpec (probe : Nat → Probe) (isLeaf : Leaf → Prop) : Prop where
  skip : ∀ {va n}, va < 2 ^ 64 → probe va = .skip n →
    ∀ l, isLeaf l → ∀ x, l.Covers x → va ≤ x → addSat va (max n 1) ≤ x
  mapped : ∀ {va pa size flags}, va < 2 ^ 64 → probe va = .mapped pa size flags →
    isLeaf ⟨va / size.bytes * size.bytes, size, flags⟩
  unique : ∀ {l l' x}, isLeaf l → isLeaf l' → l.Covers x → l'.Covers x → l = l'

theorem bytes_pos (size : PageSize) : 0 < size.bytes := by
  cases size <;> decide

theorem covers_base (va : Nat) (size : PageSize) (flags : Nat) :
    (⟨va / size.bytes * size.bytes, size, flags⟩ : Leaf).Covers va := by
  have hmod := Nat.div_add_mod va size.bytes
  have hlt := Nat.mod_lt va (bytes_pos size)
  rw [Nat.mul_comm] at hmod
  constructor <;> dsimp only <;> omega

theorem and_leafMask {va : Nat} (h : va < 2 ^ 64) (size : PageSize) :
    va &&& (2 ^ 64 - size.bytes) = va / size.bytes * size.bytes := by
  cases size with
  | size4K => exact and_high_mask (k := 12) (by decide) h
  | size2M => exact and_high_mask (k := 21) (by decide) h

/-- The run as it stands after some leaves: it ends where the last of them does. -/
structure Run.Ends (r : Run) (l : Leaf) : Prop where
  stop : r.va + r.len = l.base + l.size.bytes
  size : r.size = l.size
  flags : PageFlags.settled r.flags = PageFlags.settled l.flags

/-- The leaves of a list, one after another. -/
def mergeRuns : Option Run → List Leaf → List Run
  | run, [] => run.toList
  | run, l :: ls => (Run.see run l).1 ++ mergeRuns (Run.see run l).2 ls

theorem Run.Ends.joins_eq {r : Run} {l : Leaf} (h : r.Ends l) (l' : Leaf) :
    r.joins l' = l.joins l' := by
  unfold Leaf.joins Run.joins
  rw [h.stop, h.size, h.flags]
  rfl

theorem Run.see_end {run : Option Run} {l : Leaf} {r : Run} (h : r ∈ (Run.see run l).2) :
    r.va + r.len = l.base + l.size.bytes := by
  cases run with
  | none =>
    obtain rfl := Option.some.inj h
    rfl
  | some r₀ =>
    rw [Run.see] at h
    split at h
    · rename_i hj
      obtain rfl := Option.some.inj h
      rw [Run.joins, Bool.and_eq_true] at hj
      rw [← of_decide_eq_true hj.2]
      exact (Nat.add_assoc ..).symm
    · obtain rfl := Option.some.inj h
      rfl

theorem runOf_append {g : List Leaf} (hg : g ≠ []) (l : Leaf) :
    runOf (g ++ [l]) =
      ⟨(runOf g).va, (runOf g).len + l.size.bytes, (runOf g).flags, (runOf g).size⟩ := by
  cases g with
  | nil => exact absurd rfl hg
  | cons x g => simp [runOf, Nat.add_assoc]

theorem mergeRuns_eq_loop (ls : List Leaf) (l : Leaf) (g : List Leaf) (gs : List (List Leaf))
    (h : (runOf (l :: g).reverse).Ends l) :
    gs.reverse.map runOf ++ mergeRuns (some (runOf (l :: g).reverse)) ls =
      (List.splitBy.loop Leaf.joins ls l g gs).map runOf := by
  induction ls generalizing l g gs with
  | nil => simp [mergeRuns, List.splitBy.loop]
  | cons l' ls ih =>
    rw [List.splitBy.loop, mergeRuns, Run.see, h.joins_eq]
    cases hj : l.joins l' with
    | true =>
      have hrun := runOf_append (g := (l :: g).reverse) (by simp) l'
      rw [← List.reverse_cons] at hrun
      have hends : (runOf (l' :: l :: g).reverse).Ends l' := by
        rw [hrun]
        rw [Leaf.joins, Run.joins, Bool.and_eq_true, Bool.and_eq_true] at hj
        obtain ⟨⟨hsize, hflags⟩, hbase⟩ := hj
        refine ⟨?_, h.size.trans (of_decide_eq_true hsize),
          h.flags.trans (of_decide_eq_true hflags)⟩
        rw [← of_decide_eq_true hbase, ← Nat.add_assoc, h.stop]
        rfl
      have hnext := ih l' (l :: g) gs hends
      rw [hrun] at hnext
      exact hnext
    | false =>
      have hnext := ih l' [] ((l :: g).reverse :: gs) ⟨rfl, rfl, rfl⟩
      rw [List.reverse_cons, List.map_append, List.append_assoc] at hnext
      exact hnext

theorem mergeRuns_eq (ls : List Leaf) : mergeRuns none ls = (ls.splitBy Leaf.joins).map runOf := by
  cases ls with
  | nil => rfl
  | cons l ls =>
    refine mergeRuns_eq_loop ls l [] [] ⟨?_, rfl, rfl⟩
    rfl

section Loops
variable {probe : Nat → Probe} {isLeaf : Leaf → Prop} {va n : Nat} {stop : VirtAddr}
  (h : ProbeSpec probe isLeaf)
include h

theorem ProbeSpec.meets_skip {l : Leaf} (hva : va < stop.val) (hp : probe va = .skip n)
    (hl : isLeaf l) :
    l.Meets va stop.val ↔ l.Meets (addSat va (max n 1)) stop.val := by
  have hlt := lt_addSat hva (Nat.le_max_right n 1)
  constructor
  · rintro ⟨x, hx, hstop, hc⟩
    exact ⟨x, h.skip (hva.trans stop.lt) hp l hl x hc hx, hstop, hc⟩
  · rintro ⟨x, hx, hstop, hc⟩
    exact ⟨x, by omega, hstop, hc⟩

theorem ProbeSpec.unmappedFrom (start stop : VirtAddr) (va : Nat) (hstart : start.val ≤ va) :
    Mapper.unmappedFrom probe start stop va = true ↔ ∀ l, isLeaf l → ¬ l.Meets va stop.val := by
  induction hm : stop.val - va using Nat.strongRecOn generalizing va with
  | ind k ih =>
    rw [Mapper.unmappedFrom]
    split
    · rename_i hva
      split
      · rename_i pa size flags hp
        refine iff_of_false nofun fun hnone => hnone _ (h.mapped (hva.trans stop.lt) hp) ?_
        exact ⟨va, Nat.le_refl va, hva, covers_base va size flags⟩
      · rename_i n hp
        have hnext := lt_addSat hva (Nat.le_max_right n 1)
        dsimp only
        rw [if_neg (by omega), ih _ (by omega) _ (by omega) rfl]
        exact forall_congr' fun l => imp_congr_right fun hl =>
          not_congr (h.meets_skip hva hp hl).symm
    · rename_i hva
      exact iff_of_true rfl fun l _ ⟨x, hx, hstop, _⟩ => by omega

theorem ProbeSpec.mergeRuns_skip (hva : va < stop.val) (hp : probe va = .skip n)
    {run : Option Run} (hrun : ∀ r ∈ run, r.va + r.len ≤ va) {ls : List Leaf}
    (hls : ∀ l ∈ ls, isLeaf l ∧ l.Meets (addSat va (max n 1)) stop.val) :
    run.toList ++ mergeRuns none ls = mergeRuns run ls := by
  cases run with
  | none => rfl
  | some r =>
    cases ls with
    | nil => rfl
    | cons l ls =>
      obtain ⟨hl, x, hx, hstop, hc⟩ := hls l List.mem_cons_self
      have hgap := h.skip (hva.trans stop.lt) hp l hl va
      have hlt := lt_addSat hva (Nat.le_max_right n 1)
      have hbase : va < l.base := by
        by_contra hle
        have := hgap ⟨by omega, by have := hc.2; omega⟩ (Nat.le_refl va)
        omega
      have hno : r.joins l = false := by
        have := hrun r rfl
        unfold Run.joins
        rw [decide_eq_false (p := r.va + r.len = l.base) (by omega), Bool.and_false]
      rw [mergeRuns, mergeRuns, Run.see, Run.see, hno]
      rfl

theorem ProbeSpec.meets_leaf {l₀ : Leaf} (hva : va < stop.val) (hl₀ : isLeaf l₀)
    (hc₀ : l₀.Covers va) :
    va < addSat l₀.base l₀.size.bytes ∧
      (addSat l₀.base l₀.size.bytes < stop.val →
        addSat l₀.base l₀.size.bytes = l₀.base + l₀.size.bytes) ∧
      (∀ l, isLeaf l →
        (l.Meets va stop.val ↔ l = l₀ ∨ l.Meets (addSat l₀.base l₀.size.bytes) stop.val)) ∧
      ∀ l, isLeaf l → l.Meets (addSat l₀.base l₀.size.bytes) stop.val →
        l₀.base + l₀.size.bytes ≤ l.base := by
  obtain ⟨hbase, hlt⟩ := hc₀
  have hstop := stop.lt
  have hnext : va < addSat l₀.base l₀.size.bytes := by
    unfold addSat
    omega
  have hle : addSat l₀.base l₀.size.bytes ≤ l₀.base + l₀.size.bytes := by
    unfold addSat
    exact Nat.min_le_left _ _
  have hend : addSat l₀.base l₀.size.bytes < stop.val →
      addSat l₀.base l₀.size.bytes = l₀.base + l₀.size.bytes := by
    unfold addSat
    omega
  refine ⟨hnext, hend, fun l hl => ⟨?_, ?_⟩, fun l hl => ?_⟩
  · rintro ⟨x, hx, hxs, hc⟩
    by_cases hin : x < l₀.base + l₀.size.bytes
    · exact .inl (h.unique hl hl₀ hc ⟨by omega, hin⟩)
    · exact .inr ⟨x, by omega, hxs, hc⟩
  · rintro (rfl | ⟨x, hx, hxs, hc⟩)
    · exact ⟨va, Nat.le_refl va, hva, hbase, hlt⟩
    · exact ⟨x, by omega, hxs, hc⟩
  · rintro ⟨x, hx, hxs, hc⟩
    -- a leaf that reached back would share an address with this one
    have heq := hend (by omega)
    by_contra hback
    have hshare : l = l₀ := by
      refine h.unique (x := max l.base l₀.base) hl hl₀ ?_ ?_
      · have := hc.1
        have := hc.2
        constructor <;> omega
      · have := bytes_pos l₀.size
        constructor <;> omega
    have := hc.2
    rw [hshare] at this
    omega

/-- The walk finds the leaves that meet what is left of the range, in order, and merges them into
the run it carries. -/
theorem ProbeSpec.walkFrom (stop : VirtAddr) (va : Nat) (run : Option Run)
    (hrun : va < stop.val → ∀ r ∈ run, r.va + r.len ≤ va) :
    ∃ ls : List Leaf, ls.Pairwise (fun l l' => l.base + l.size.bytes ≤ l'.base) ∧
      (∀ l, l ∈ ls ↔ isLeaf l ∧ l.Meets va stop.val) ∧
      Mapper.walkFrom probe stop va run = mergeRuns run ls := by
  induction hm : stop.val - va using Nat.strongRecOn generalizing va run with
  | ind k ih =>
    rw [Mapper.walkFrom]
    split
    · rename_i hva
      split
      · rename_i n hp
        have hnext := lt_addSat hva (Nat.le_max_right n 1)
        obtain ⟨ls, hsorted, hmem, heq⟩ := ih _ (by omega) (addSat va (max n 1)) none nofun rfl
        refine ⟨ls, hsorted, fun l => ?_, ?_⟩
        · rw [hmem]
          exact and_congr_right fun hl => (h.meets_skip hva hp hl).symm
        · dsimp only
          rw [dif_neg (by omega), heq]
          exact h.mergeRuns_skip hva hp (hrun hva) fun l hl => (hmem l).mp hl
      · rename_i pa size flags hp
        dsimp only
        rw [and_leafMask (hva.trans stop.lt)]
        obtain ⟨hnext, hend, hsplit, hafter⟩ :=
          h.meets_leaf hva (h.mapped (hva.trans stop.lt) hp) (covers_base va size flags)
        dsimp only at hnext hend hafter
        obtain ⟨ls, hsorted, hmem, heq⟩ := ih _ (by omega) _
          (Run.see run ⟨va / size.bytes * size.bytes, size, flags⟩).2
          (fun hlt r hr => (Run.see_end hr).trans_le (hend hlt).ge) rfl
        refine ⟨⟨va / size.bytes * size.bytes, size, flags⟩ :: ls, ?_, fun l => ?_, ?_⟩
        · refine List.pairwise_cons.mpr ⟨fun l hl => ?_, hsorted⟩
          obtain ⟨hleaf, hmeets⟩ := (hmem l).mp hl
          exact hafter l hleaf hmeets
        · rw [List.mem_cons, hmem]
          constructor
          · rintro (rfl | ⟨hl, hmeets⟩)
            · exact ⟨h.mapped (hva.trans stop.lt) hp,
                (hsplit _ (h.mapped (hva.trans stop.lt) hp)).mpr
                (.inl rfl)⟩
            · exact ⟨hl, (hsplit l hl).mpr (.inr hmeets)⟩
          · rintro ⟨hl, hmeets⟩
            exact ((hsplit l hl).mp hmeets).imp_right fun hm => ⟨hl, hm⟩
        · rw [dif_neg (by omega), heq, mergeRuns]
    · rename_i hva
      refine ⟨[], .nil, fun l => iff_of_false nofun ?_, rfl⟩
      rintro ⟨-, x, hx, hstop, -⟩
      omega

end Loops

end VibeOS.Mm
