import Mathlib.Algebra.Order.Ring.Nat
import Mathlib.Data.List.Nodup
import Mathlib.Logic.Equiv.Basic
import Mathlib.Tactic.Common

/-!
Heapsort of the first `n` cells of an array, by a key. A cell is above cells `2 * i + 1` and
`2 * i + 2`; sifting one cell down repairs the order below it, so sifting the cells of the lower
half from the last one on makes a heap, and taking the front cell off the heap again and again
leaves the cells in order.
-/
namespace VibeOS.Lib

variable {α β : Type*} [LinearOrder β] {key : α → β} {v v' : Nat → α} {n e root lo i j k c : Nat}

def firstCells (v : Nat → α) (n : Nat) : List α := (List.range n).map v

theorem mem_firstCells {x : α} : x ∈ firstCells v n ↔ ∃ i < n, v i = x := by
  simp [firstCells]

theorem firstCells_succ (v : Nat → α) (n : Nat) :
    firstCells v (n + 1) = firstCells v n ++ [v n] := by
  rw [firstCells, List.range_succ, List.map_append, List.map_singleton, firstCells]

theorem firstCells_congr (h : ∀ i < n, v' i = v i) : firstCells v' n = firstCells v n :=
  List.map_congr_left fun i hi => h i (List.mem_range.mp hi)

theorem firstCells_push (v : Nat → α) (n : Nat) (x : α) :
    firstCells (Function.update v n x) (n + 1) = firstCells v n ++ [x] := by
  have hold : firstCells (Function.update v n x) n = firstCells v n :=
    firstCells_congr fun i hi => Function.update_of_ne (Nat.ne_of_lt hi) ..
  rw [firstCells_succ, hold, Function.update_self]

theorem firstCells_length (v : Nat → α) (n : Nat) : (firstCells v n).length = n := by
  simp [firstCells]

theorem pairwise_firstCells {R : α → α → Prop} :
    (firstCells v n).Pairwise R ↔ ∀ i j, i < j → j < n → R (v i) (v j) := by
  rw [List.pairwise_iff_getElem]
  simp only [firstCells, List.length_map, List.length_range, List.getElem_map, List.getElem_range]
  exact ⟨fun h i j hij hj => h i j (by omega) hj hij, fun h i j _ hj hij => h i j hij hj⟩

def swapCells (v : Nat → α) (i j : Nat) : Nat → α :=
  fun k => if k = i then v j else if k = j then v i else v k

theorem swapCells_of_ne (hi : k ≠ i) (hj : k ≠ j) : swapCells v i j k = v k := by
  rw [swapCells, if_neg hi, if_neg hj]

@[simp] theorem swapCells_left (v : Nat → α) (i j : Nat) : swapCells v i j i = v j :=
  if_pos rfl

@[simp] theorem swapCells_right (v : Nat → α) (i j : Nat) : swapCells v i j j = v i := by
  rw [swapCells]
  split
  · rename_i h
    rw [h]
  · rw [if_pos rfl]

theorem swapCells_eq (v : Nat → α) (i j : Nat) : swapCells v i j = v ∘ Equiv.swap i j := by
  funext k
  simp only [swapCells, Function.comp_apply, Equiv.swap_apply_def]
  split
  · rfl
  · split <;> rfl

theorem firstCells_swap (v : Nat → α) (hi : i < n) (hj : j < n) :
    (firstCells (swapCells v i j) n).Perm (firstCells v n) := by
  have hrange : ((List.range n).map (Equiv.swap i j)).Perm (List.range n) := by
    refine (List.perm_ext_iff_of_nodup
      (List.nodup_range.map (Equiv.swap i j).injective) List.nodup_range).mpr fun k => ?_
    rw [List.mem_map, List.mem_range]
    constructor
    · rintro ⟨m, hm, rfl⟩
      rw [Equiv.swap_apply_def]
      split_ifs
      · exact hj
      · exact hi
      · exact List.mem_range.mp hm
    · intro hk
      refine ⟨Equiv.swap i j k, List.mem_range.mpr ?_, Equiv.swap_apply_self i j k⟩
      rw [Equiv.swap_apply_def]
      split_ifs
      · exact hj
      · exact hi
      · exact hk
  rw [firstCells, swapCells_eq, ← List.map_map]
  exact hrange.map v

/-- Restore the order of the first `e` cells below `root`. -/
def siftDown (key : α → β) (v : Nat → α) (root e : Nat) : Nat → α :=
  if 2 * root + 1 < e then
    let child :=
      if 2 * root + 1 + 1 < e ∧ key (v (2 * root + 1)) < key (v (2 * root + 1 + 1)) then
        2 * root + 1 + 1
      else 2 * root + 1
    if key (v child) ≤ key (v root) then v else siftDown key (swapCells v root child) child e
  else v
termination_by e - root
decreasing_by
  split <;> omega

def heapify (key : α → β) (n : Nat) (v : Nat → α) : Nat → Nat → α
  | 0 => v
  | i + 1 => heapify key n (siftDown key v i n) i

def drainHeap (key : α → β) (v : Nat → α) : Nat → Nat → α
  | 0 => v
  | 1 => v
  | e + 2 => drainHeap key (siftDown key (swapCells v 0 (e + 1)) 0 (e + 1)) (e + 1)

def heapsort (key : α → β) (v : Nat → α) (n : Nat) : Nat → α :=
  drainHeap key (heapify key n v (n / 2)) n

def IsChild (c p : Nat) : Prop := c = 2 * p + 1 ∨ c = 2 * p + 1 + 1

/-- From cell `lo` on, no cell is below its children among the first `n`. -/
def HeapFrom (key : α → β) (v : Nat → α) (lo n : Nat) : Prop :=
  ∀ i, lo ≤ i → ∀ c, IsChild c i → c < n → key (v c) ≤ key (v i)

/-- A heap but for the cell at `root`, whose children are not above its parent. -/
structure HeapBut (key : α → β) (v : Nat → α) (lo n root : Nat) : Prop where
  rest : ∀ i, lo ≤ i → i ≠ root → ∀ c, IsChild c i → c < n → key (v c) ≤ key (v i)
  grand : ∀ p, lo ≤ p → IsChild root p → ∀ c, IsChild c root → c < n → key (v c) ≤ key (v p)

theorem greater_child (key : α → β) (v : Nat → α) (h : 2 * root + 1 < n) :
    ∃ child, (if 2 * root + 1 + 1 < n ∧ key (v (2 * root + 1)) < key (v (2 * root + 1 + 1)) then
        2 * root + 1 + 1 else 2 * root + 1) = child ∧ IsChild child root ∧ child < n ∧
      ∀ c, IsChild c root → c < n → key (v c) ≤ key (v child) := by
  split
  · rename_i hc
    refine ⟨_, rfl, .inr rfl, hc.1, ?_⟩
    rintro c (rfl | rfl) -
    · exact le_of_lt hc.2
    · exact le_rfl
  · rename_i hc
    refine ⟨_, rfl, .inl rfl, h, ?_⟩
    rintro c (rfl | rfl) hn
    · exact le_rfl
    · exact not_lt.mp fun hlt => hc ⟨hn, hlt⟩

theorem HeapBut.swap (h : HeapBut key v lo n root) (hlo : lo ≤ root) (hc : IsChild c root)
    (hn : c < n) (hmax : ∀ d, IsChild d root → d < n → key (v d) ≤ key (v c))
    (hlt : key (v root) < key (v c)) : HeapBut key (swapCells v root c) lo n c := by
  have hrc : root < c := by
    rcases hc with rfl | rfl <;> omega
  refine ⟨fun i hi hic d hd hdn => ?_, fun p hp hcp d hd hdn => ?_⟩
  · have hid : i < d := by
      rcases hd with rfl | rfl <;> omega
    by_cases hir : i = root
    · subst hir
      rw [swapCells_left]
      by_cases hdc : d = c
      · rw [hdc, swapCells_right]
        exact le_of_lt hlt
      · rw [swapCells_of_ne (Nat.ne_of_gt hid) hdc]
        exact hmax d hd hdn
    · rw [swapCells_of_ne hir hic]
      have hdc : d ≠ c := by
        rintro rfl
        unfold IsChild at hc hd
        omega
      by_cases hdr : d = root
      · -- the parent of `root`: its child is now the greater child of `root`
        rw [hdr, swapCells_left]
        exact h.grand i hi (hdr ▸ hd) c hc hn
      · rw [swapCells_of_ne hdr hdc]
        exact h.rest i hi hir d hd hdn
  · have hpr : p = root := by
      unfold IsChild at hc hcp
      omega
    have hdc : c < d := by
      rcases hd with rfl | rfl <;> omega
    rw [hpr, swapCells_left, swapCells_of_ne (by omega) (by omega)]
    exact h.rest c (by omega) (by omega) d hd hdn

theorem siftDown_heap {v : Nat → α} {root : Nat} (h : HeapBut key v lo n root) (hlo : lo ≤ root) :
    HeapFrom key (siftDown key v root n) lo n := by
  rw [siftDown]
  split
  · rename_i hchild
    obtain ⟨child, hdef, hc, hn, hmax⟩ := greater_child key v hchild
    have hrc : root < child := by
      rcases hc with rfl | rfl <;> omega
    simp only [hdef]
    split
    · rename_i hle
      intro i hi d hd hdn
      by_cases hir : i = root
      · exact hir ▸ le_trans (hmax d (hir ▸ hd) hdn) hle
      · exact h.rest i hi hir d hd hdn
    · rename_i hle
      exact siftDown_heap (h.swap hlo hc hn hmax (not_le.mp hle)) (by omega)
  · rename_i hchild
    intro i hi d hd hdn
    refine h.rest i hi ?_ d hd hdn
    rintro rfl
    rcases hd with rfl | rfl <;> omega
termination_by n - root

theorem siftDown_cells (key : α → β) (v : Nat → α) (root n : Nat) :
    (firstCells (siftDown key v root n) n).Perm (firstCells v n) := by
  rw [siftDown]
  split
  · rename_i hchild
    obtain ⟨child, hdef, hc, hn, -⟩ := greater_child key v hchild
    have hrc : root < child := by
      rcases hc with rfl | rfl <;> omega
    simp only [hdef]
    split
    · exact .refl _
    · exact (siftDown_cells key _ child n).trans (firstCells_swap v (by omega) hn)
  · exact .refl _
termination_by n - root

theorem siftDown_of_le (key : α → β) (v : Nat → α) (root : Nat) (hk : n ≤ k) :
    siftDown key v root n k = v k := by
  rw [siftDown]
  split
  · rename_i hchild
    obtain ⟨child, hdef, hc, hn, -⟩ := greater_child key v hchild
    have hrc : root < child := by
      rcases hc with rfl | rfl <;> omega
    simp only [hdef]
    split
    · rfl
    · rw [siftDown_of_le key _ child hk, swapCells_of_ne (by omega) (by omega)]
  · rfl
termination_by n - root

theorem HeapFrom.heapify (h : HeapFrom key v i n) : HeapFrom key (heapify key n v i) 0 n := by
  induction i generalizing v with
  | zero => exact h
  | succ i ih =>
    refine ih (siftDown_heap ⟨fun m hm hne => h m (by omega), fun p hp hip => ?_⟩ (Nat.le_refl i))
    rcases hip with hip | hip <;> omega

theorem heapify_cells (key : α → β) (v : Nat → α) (i : Nat) :
    (firstCells (heapify key n v i) n).Perm (firstCells v n) := by
  induction i generalizing v with
  | zero => exact .refl _
  | succ i ih => exact (ih _).trans (siftDown_cells key v i n)

theorem HeapFrom.le_front (h : HeapFrom key v 0 n) (hi : i < n) : key (v i) ≤ key (v 0) := by
  induction i using Nat.strong_induction_on with
  | _ i ih =>
    rcases Nat.eq_zero_or_pos i with rfl | hpos
    · exact le_rfl
    · have hc : IsChild i ((i - 1) / 2) := by
        unfold IsChild
        omega
      exact le_trans (h _ (Nat.zero_le _) i hc hi) (ih _ (by omega) (by omega))

/-- The first `e` cells are a heap and the others up to `n` are in order above them. -/
structure Drained (key : α → β) (v : Nat → α) (e n : Nat) : Prop where
  le : e ≤ n
  heap : HeapFrom key v 0 e
  sorted : ∀ i j, e ≤ i → i < j → j < n → key (v i) ≤ key (v j)
  above : ∀ i j, i < e → e ≤ j → j < n → key (v i) ≤ key (v j)

theorem Drained.step (h : Drained key v (e + 1) n) :
    Drained key (siftDown key (swapCells v 0 e) 0 e) e n := by
  have hn : e < n := h.le
  -- what the sift leaves below `e` was in the heap
  have hbelow : ∀ i < e, ∃ j < e + 1, siftDown key (swapCells v 0 e) 0 e i = v j := by
    intro i hi
    obtain ⟨m, hm, hvm⟩ := mem_firstCells.mp
      ((siftDown_cells key (swapCells v 0 e) 0 e).subset (mem_firstCells.mpr ⟨i, hi, rfl⟩))
    rcases Nat.eq_zero_or_pos m with rfl | hpos
    · exact ⟨e, Nat.lt_succ_self e, by rw [← hvm, swapCells_left]⟩
    · exact ⟨m, by omega, by rw [← hvm, swapCells_of_ne (by omega) (by omega)]⟩
  have hlast : siftDown key (swapCells v 0 e) 0 e e = v 0 := by
    rw [siftDown_of_le key _ 0 (Nat.le_refl e), swapCells_right]
  have hrest : ∀ j, e < j → siftDown key (swapCells v 0 e) 0 e j = v j := by
    intro j hj
    rw [siftDown_of_le key _ 0 (by omega), swapCells_of_ne (by omega) (by omega)]
  refine ⟨by omega, siftDown_heap ⟨fun i _ hi c hc hce => ?_, fun p _ hp => ?_⟩ (Nat.le_refl 0),
    fun i j hi hij hj => ?_, fun i j hi hj hjn => ?_⟩
  · have hic : i < c := by
      rcases hc with rfl | rfl <;> omega
    rw [swapCells_of_ne hi (by omega), swapCells_of_ne (by omega) (by omega)]
    exact h.heap i (Nat.zero_le i) c hc (by omega)
  · rcases hp with hp | hp <;> omega
  · rw [hrest j (by omega)]
    rcases Nat.eq_or_lt_of_le hi with rfl | hi
    · rw [hlast]
      exact h.above 0 j (by omega) (by omega) hj
    · rw [hrest i hi]
      exact h.sorted i j (by omega) hij hj
  · obtain ⟨m, hm, hvm⟩ := hbelow i hi
    rw [hvm]
    rcases Nat.eq_or_lt_of_le hj with rfl | hj
    · rw [hlast]
      exact h.heap.le_front hm
    · rw [hrest j hj]
      exact h.above m j hm (by omega) hjn

theorem drainHeap_of_le (key : α → β) (v : Nat → α) (hk : e ≤ k) :
    drainHeap key v e k = v k := by
  induction e generalizing v with
  | zero => rfl
  | succ e ih =>
    cases e with
    | zero => rfl
    | succ e =>
      rw [drainHeap, ih _ (by omega), siftDown_of_le key _ 0 (by omega),
        swapCells_of_ne (by omega) (by omega)]

theorem drainHeap_cells (key : α → β) (v : Nat → α) (e : Nat) :
    (firstCells (drainHeap key v e) e).Perm (firstCells v e) := by
  induction e generalizing v with
  | zero => exact .refl _
  | succ e ih =>
    cases e with
    | zero => exact .refl _
    | succ e =>
      have hsift := siftDown_cells key (swapCells v 0 (e + 1)) 0 (e + 1)
      have hlast : drainHeap key (siftDown key (swapCells v 0 (e + 1)) 0 (e + 1)) (e + 1) (e + 1) =
          swapCells v 0 (e + 1) (e + 1) := by
        rw [drainHeap_of_le key _ (Nat.le_refl _), siftDown_of_le key _ 0 (Nat.le_refl _)]
      rw [drainHeap, firstCells_succ, hlast]
      refine (((ih _).trans hsift).append_right _).trans ?_
      rw [← firstCells_succ]
      exact firstCells_swap v (by omega) (by omega)

theorem Drained.drainHeap (h : Drained key v e n) (hij : i < j) (hj : j < n) :
    key (drainHeap key v e i) ≤ key (drainHeap key v e j) := by
  induction e generalizing v with
  | zero => exact h.sorted i j (Nat.zero_le i) hij hj
  | succ e ih =>
    cases e with
    | zero =>
      rcases Nat.eq_zero_or_pos i with rfl | hpos
      · exact h.above 0 j Nat.zero_lt_one hij hj
      · exact h.sorted i j hpos hij hj
    | succ e => exact ih h.step

theorem heapsort_cells (key : α → β) (v : Nat → α) (n : Nat) :
    (firstCells (heapsort key v n) n).Perm (firstCells v n) :=
  (drainHeap_cells key _ n).trans (heapify_cells key v _)

theorem heapsort_sorted (key : α → β) (v : Nat → α) (hij : i < j) (hj : j < n) :
    key (heapsort key v n i) ≤ key (heapsort key v n j) := by
  -- the cells of the upper half have no children
  have hleaves : HeapFrom key v (n / 2) n := by
    intro i hi c hc hn
    rcases hc with rfl | rfl <;> omega
  refine Drained.drainHeap ⟨Nat.le_refl n, hleaves.heapify, ?_, ?_⟩ hij hj
  · intro i j hi hij hj
    omega
  · intro i j hi hij hj
    omega

end VibeOS.Lib
