import Mathlib.Data.Finset.Card
import Mathlib.Order.Interval.Finset.Nat
import VibeOS.Lib.Bits
import VibeOS.Lib.Cover
import VibeOS.Mm.Buddy

/-!
What the allocator's lists, runs and counters say. The linked blocks, the runs and what
is held outside the allocator tile the inserted memory, and each operation on the lists
moves a block between those parts.
-/
namespace VibeOS.Mm
open Lib

/-- An aligned block of page frames without frame 0. -/
structure Block where
  base : Nat
  order : Nat
  order_le : order ≤ maxOrder
  aligned : blockSize order ∣ base
  pos : 0 < base
  deriving DecidableEq

theorem blockSize_eq (k : Nat) : blockSize k = 2 ^ (pageBits + k) := by
  rw [blockSize, Nat.shiftLeft_eq, pageSize, pageBits, Nat.pow_add]

theorem blockSize_succ (k : Nat) : blockSize (k + 1) = blockSize k + blockSize k := by
  rw [blockSize_eq, blockSize_eq, ← Nat.add_assoc, Nat.pow_succ, Nat.mul_two]

theorem blockSize_dvd {j k : Nat} (h : j ≤ k) : blockSize j ∣ blockSize k := by
  rw [blockSize_eq, blockSize_eq]
  exact Nat.pow_dvd_pow 2 (Nat.add_le_add_left h _)

theorem pageSize_dvd_blockSize (k : Nat) : pageSize ∣ blockSize k :=
  blockSize_dvd (j := 0) (Nat.zero_le k)

namespace Block

def range (blk : Block) : Nat × Nat :=
  (blk.base, blk.base + blockSize blk.order)

theorem range_nonempty (blk : Block) : blk.range.1 < blk.range.2 :=
  Nat.lt_add_of_pos_right (blockSize_pos _)

theorem within_base (blk : Block) : Within blk.range blk.base :=
  ⟨Nat.le_refl _, blk.range_nonempty⟩

@[ext] theorem ext {x y : Block} (hb : x.base = y.base) (ho : x.order = y.order) : x = y := by
  cases x
  cases y
  cases hb
  cases ho
  rfl

end Block

/-- The addresses of the blocks of one order, in list order. -/
def listOf (L : List Block) (k : Nat) : List Nat :=
  (L.filter fun blk => blk.order = k).map Block.base

theorem mem_listOf {L : List Block} {k x : Nat} :
    x ∈ listOf L k ↔ ∃ blk ∈ L, blk.order = k ∧ blk.base = x := by
  simp [listOf, and_assoc]

theorem listOf_cons_self (L : List Block) (blk : Block) :
    listOf (blk :: L) blk.order = blk.base :: listOf L blk.order := by
  simp [listOf]

variable {L : List Block} {blk : Block} {k : Nat}

theorem listOf_cons_of_ne (h : k ≠ blk.order) : listOf (blk :: L) k = listOf L k := by
  simp [listOf, h.symm]

theorem listOf_erase_self (blk : Block) (hinj : ∀ x ∈ L, x.base = blk.base → x = blk) :
    listOf (L.erase blk) blk.order = (listOf L blk.order).erase blk.base := by
  induction L with
  | nil => rfl
  | cons x L ih =>
    have hinj' : ∀ y ∈ L, y.base = blk.base → y = blk :=
      fun y hy => hinj y (List.mem_cons_of_mem _ hy)
    by_cases e : x = blk
    · subst e
      rw [List.erase_cons_head, listOf_cons_self, List.erase_cons_head]
    · rw [List.erase_cons_tail (by simpa using e)]
      have hbase : x.base ≠ blk.base := fun hb => e (hinj x (List.mem_cons_self ..) hb)
      by_cases ho : x.order = blk.order
      · rw [← ho, listOf_cons_self, listOf_cons_self, List.erase_cons_tail (by simpa using hbase),
          ho, ih hinj']
      · rw [listOf_cons_of_ne (Ne.symm ho), listOf_cons_of_ne (Ne.symm ho), ih hinj']

theorem listOf_erase_of_ne (h : k ≠ blk.order) : listOf (L.erase blk) k = listOf L k := by
  induction L with
  | nil => rfl
  | cons x L ih =>
    by_cases e : x = blk
    · subst e
      rw [List.erase_cons_head, listOf_cons_of_ne h]
    · rw [List.erase_cons_tail (by simpa using e)]
      by_cases ho : k = x.order
      · subst ho
        rw [listOf_cons_self, listOf_cons_self, ih]
      · rw [listOf_cons_of_ne ho, listOf_cons_of_ne ho, ih]

/-- Whole top-order blocks in the runs. -/
def topBlocks (runs : List (Nat × Nat)) : Nat :=
  (runs.map fun r => (r.2 - r.1) / blockSize maxOrder).sum

/-- The lists, runs and counters of `b` agree with its linked blocks `L`; with what is
held outside they tile `whole`. -/
structure Buddy.Inv (b : Buddy) (L : List Block) (held whole : List (Nat × Nat)) : Prop where
  lists : ∀ {k}, k ≤ maxOrder → Linked b.mem null null (b.heads k) (listOf L k)
  runs : ∀ {r}, r ∈ b.runs → r.1 < r.2 ∧ blockSize maxOrder ∣ r.1 ∧ blockSize maxOrder ∣ r.2
  counts : ∀ {k}, k ≤ maxOrder → b.counts k =
    L.countP (fun blk => blk.order = k) + if k = maxOrder then topBlocks b.runs else 0
  freeFrames : b.freeFrames =
    (L.map fun blk => 2 ^ blk.order).sum + topBlocks b.runs * 2 ^ maxOrder
  tiles : Tiles (L.map Block.range ++ (b.runs ++ held)) whole
  once : ∀ x, cover whole x ≤ 1
  bounds : ∀ {r}, r ∈ whole → ∀ {x}, Within r x →
    pageSize ≤ x ∧ x < 2 ^ 64 - pageSize ∧ b.spanLo ≤ x ∧ x < b.spanHi

namespace Buddy
variable {b b' : Buddy} {L' : List Block} {held held' whole : List (Nat × Nat)}

/-- No free block below the top order has a free buddy. -/
def Canonical (b : Buddy) : Prop :=
  ∀ k < maxOrder, ∀ x, b.inFreeList x k = .ok true → b.inFreeList (x ^^^ blockSize k) k ≠ .ok true

/-- The blocks with one taken out. -/
structure Without (L : List Block) (blk : Block) : Prop where
  count : ∀ k, L.countP (fun x => x.order = k) =
    (L.erase blk).countP (fun x => x.order = k) + if blk.order = k then 1 else 0
  frames : (L.map fun x => 2 ^ x.order).sum =
    ((L.erase blk).map fun x => 2 ^ x.order).sum + 2 ^ blk.order
  cover : ∀ x, cover (L.map Block.range) x =
    cover (blk.range :: (L.erase blk).map Block.range) x

theorem without (hm : blk ∈ L) : Without L blk := by
  have hp := List.perm_cons_erase hm
  constructor
  · intro k
    rw [hp.countP_eq, List.countP_cons]
    simp
  · rw [(hp.map _).sum_eq, List.map_cons, List.sum_cons, Nat.add_comm]
  · exact fun x => cover_perm (hp.map _) x

section
variable (h : b.Inv L held whole)
include h

theorem Inv.rehold (ht : Tiles held' held) : b.Inv L held' whole :=
  { h with
    tiles := by
      intro x
      rw [← h.tiles x]
      simp only [cover_append, ht x] }

theorem Inv.bounded {r : Nat × Nat} (hr : r ∈ L.map Block.range ++ (b.runs ++ held))
    (hlt : r.1 < r.2) :
    pageSize ≤ r.1 ∧ r.2 ≤ 2 ^ 64 - pageSize ∧ b.spanLo ≤ r.1 ∧ r.2 ≤ b.spanHi := by
  obtain ⟨w, hw, hx⟩ := h.tiles.within hr (x := r.1) ⟨Nat.le_refl _, hlt⟩
  obtain ⟨w', hw', hx'⟩ := h.tiles.within hr (x := r.2 - 1) ⟨by omega, by omega⟩
  have h₁ := h.bounds hw hx
  have h₂ := h.bounds hw' hx'
  omega

theorem Inv.linked_bounded (hm : blk ∈ L) :
    pageSize ≤ blk.base ∧ blk.base + blockSize blk.order ≤ 2 ^ 64 - pageSize := by
  have hr : blk.range ∈ L.map Block.range ++ (b.runs ++ held) :=
    List.mem_append_left _ (List.mem_map_of_mem hm)
  have := h.bounded hr blk.range_nonempty
  exact ⟨this.1, this.2.1⟩

theorem Inv.held_bounded {r : Nat × Nat} (hr : r ∈ held) (hlt : r.1 < r.2) :
    pageSize ≤ r.1 ∧ r.2 ≤ 2 ^ 64 - pageSize ∧ b.spanLo ≤ r.1 ∧ r.2 ≤ b.spanHi :=
  h.bounded (List.mem_append_right _ (List.mem_append_right _ hr)) hlt

theorem Inv.linked_apart : (L.map Block.range).Pairwise Apart :=
  (List.pairwise_append.mp (apart_of_cover_le_one fun x => (h.tiles x).symm ▸ h.once x)).1

theorem Inv.linked_apart_held (hm : blk ∈ L) {r : Nat × Nat} (hr : r ∈ held) : Apart blk.range r :=
  h.tiles.apart h.once (List.mem_map_of_mem hm) (List.mem_append_right _ hr)

theorem Inv.bases_nodup : (L.map Block.base).Nodup := by
  have := List.pairwise_map.mp h.linked_apart
  refine List.pairwise_map.mpr (List.Pairwise.imp ?_ this)
  intro x y hxy he
  exact hxy x.base x.within_base (he ▸ y.within_base)

theorem Inv.base_inj {x y : Block} (hx : x ∈ L) (hy : y ∈ L) (he : x.base = y.base) : x = y :=
  List.inj_on_of_nodup_map h.bases_nodup hx hy he

theorem Inv.listOf_nodup (k : Nat) : (listOf L k).Nodup :=
  h.bases_nodup.sublist (List.filter_sublist.map _)

theorem Inv.listOf_length (k : Nat) : (listOf L k).length < nodeLimit := by
  have hpage : ∀ x ∈ listOf L k, pageSize ∣ x ∧ pageSize ≤ x ∧ x < 2 ^ 64 := by
    intro x hx
    obtain ⟨blk, hm, -, rfl⟩ := mem_listOf.mp hx
    obtain ⟨hlo, hhi⟩ := h.linked_bounded hm
    have hlt := blk.range_nonempty
    simp only [pageSize, Block.range] at hlo hhi hlt ⊢
    exact ⟨(pageSize_dvd_blockSize _).trans blk.aligned, hlo, by omega⟩
  have hnd : ((listOf L k).map (· / pageSize)).Nodup := by
    refine (h.listOf_nodup k).map_on fun x hx y hy he => ?_
    rw [← Nat.div_mul_cancel (hpage x hx).1, ← Nat.div_mul_cancel (hpage y hy).1, he]
  have hsub : ((listOf L k).map (· / pageSize)).toFinset ⊆ Finset.Ico 1 nodeLimit := by
    intro y hy
    obtain ⟨x, hx, rfl⟩ := List.mem_map.mp (List.mem_toFinset.mp hy)
    obtain ⟨-, h₁, h₂⟩ := hpage x hx
    simp only [pageSize, nodeLimit] at h₁ h₂ ⊢
    exact Finset.mem_Ico.mpr ⟨by omega, by omega⟩
  have hcard := Finset.card_le_card hsub
  rw [List.toFinset_card_of_nodup hnd, List.length_map, Nat.card_Ico] at hcard
  have : 0 < nodeLimit := Nat.two_pow_pos 52
  omega

theorem Inv.findFree_eq (hk : k ≤ maxOrder) (p : Nat → Bool) :
    b.findFree p k = .ok ((listOf L k).find? p) := by
  rw [findFree, if_neg (Nat.not_lt_of_le hk), walk_eq_find (h.lists hk) p (h.listOf_length k)]

theorem Inv.inFreeList_eq (hk : k ≤ maxOrder) (phys : Nat) :
    b.inFreeList phys k = .ok (decide (phys ∈ listOf L k)) := by
  rw [inFreeList, h.findFree_eq hk]
  simp only [Except.map]
  congr 1
  rw [Bool.eq_iff_iff, List.find?_isSome]
  simp

theorem Inv.canonical_iff :
    b.Canonical ↔ ∀ x ∈ L, x.order < maxOrder → x.base ^^^ blockSize x.order ∉ listOf L x.order :=
      by
  constructor
  · intro hc x hx hlt hm
    have hin : b.inFreeList x.base x.order = .ok true := by
      rw [h.inFreeList_eq x.order_le, decide_eq_true (mem_listOf.mpr ⟨x, hx, rfl, rfl⟩)]
    refine hc x.order hlt x.base hin ?_
    rw [h.inFreeList_eq x.order_le, decide_eq_true hm]
  · intro hj k hk x hx hb
    rw [h.inFreeList_eq (Nat.le_of_lt hk)] at hx hb
    obtain ⟨y, hy, rfl, rfl⟩ := mem_listOf.mp (of_decide_eq_true (Except.ok.inj hx))
    exact hj y hy hk (of_decide_eq_true (Except.ok.inj hb))

theorem Inv.base_ne {k y : Nat} (hm : blk ∈ L) (ho : blk.order ≠ k) (hy : y ∈ listOf L k) :
    blk.base ≠ y := by
  obtain ⟨z, hz, hzo, rfl⟩ := mem_listOf.mp hy
  exact fun he => ho (h.base_inj hm hz he ▸ hzo)

theorem Inv.lists_of_update {mem : Nat → Node Nat} {head : Nat}
    (hself : Linked mem null null head (listOf L' k))
    (hother : ∀ {j}, j ≠ k → listOf L' j = listOf L j)
    (hmem : ∀ x ∈ L, x.order ≠ k → mem x.base = b.mem x.base) {j : Nat} (hj : j ≤ maxOrder) :
    Linked mem null null (Function.update b.heads k head j) (listOf L' j) := by
  by_cases e : j = k
  · subst e
    rw [Function.update_self]
    exact hself
  · rw [Function.update_of_ne e, hother e]
    refine (h.lists hj).frame fun y hy => ?_
    obtain ⟨x, hx, ho, rfl⟩ := mem_listOf.mp hy
    exact hmem x hx (ho ▸ e)

theorem Inv.unlink (hm : blk ∈ L) :
    ∃ b', b.unlink blk.base blk.order = .ok b' ∧ b'.Inv (L.erase blk) (blk.range :: held) whole ∧
      b'.totalFrames = b.totalFrames := by
  have hw := without hm
  have hcount := h.counts blk.order_le
  rw [hw.count, if_pos rfl] at hcount
  have hfree := h.freeFrames
  rw [hw.frames] at hfree
  have hmem : blk.base ∈ listOf L blk.order := mem_listOf.mpr ⟨blk, hm, rfl, rfl⟩
  have hlink := h.lists blk.order_le
  have hnull : null ∉ listOf L blk.order := fun hn => hlink.ne_null hn rfl
  have hsplice := hlink.splice (h.listOf_nodup _) hnull hmem
  -- the back link of the first node is null, that of any other one is a node
  have hprev : (b.mem blk.base).prev = null ↔ b.heads blk.order = blk.base := by
    rcases hlink.prev_cases hmem with ⟨h₁, h₂⟩ | hp
    · exact ⟨fun _ => h₁, fun _ => h₂⟩
    · refine ⟨fun e => absurd (e ▸ hp) hnull, fun e => ?_⟩
      cases hL : listOf L blk.order with
      | nil => rw [hL] at hmem; cases hmem
      | cons y ys =>
        rw [hL] at hlink
        obtain ⟨h₁, -, h₂, -⟩ := hlink
        rw [← e, h₁, h₂]
  have hheads : (if (b.mem blk.base).prev = null then
        Function.update b.heads blk.order (b.mem blk.base).next else b.heads) =
      Function.update b.heads blk.order
        (if b.heads blk.order = blk.base then (b.mem blk.base).next else b.heads blk.order) := by
    simp only [hprev]
    split
    · rfl
    · exact (Function.update_eq_self ..).symm
  refine ⟨{ b with
    heads := Function.update b.heads blk.order
      (if b.heads blk.order = blk.base then (b.mem blk.base).next else b.heads blk.order)
    mem := splice b.mem null blk.base
    counts := Function.update b.counts blk.order (b.counts blk.order - 1)
    freeFrames := b.freeFrames - 2 ^ blk.order }, ?_, ?_, rfl⟩
  · rw [Buddy.unlink, if_neg (Nat.not_lt_of_le blk.order_le)]
    simp only [hheads]
    rw [uncount, if_neg]
    simp only [not_or]
    constructor <;> omega
  constructor
  · refine fun {k} hk => h.lists_of_update (k := blk.order) ?_ listOf_erase_of_ne ?_ hk
    · rw [listOf_erase_self blk fun x hx he => h.base_inj hx hm he]
      exact hsplice
    · intro x hx ho
      refine splice_of_ne (fun e => ?_) (fun e => ?_)
      · rcases hlink.prev_cases hmem with ⟨-, hp⟩ | hp
        · exact Nat.ne_of_gt x.pos (e.trans hp)
        · exact h.base_ne hx ho hp e
      · have hn : (b.mem blk.base).next ≠ null := e ▸ Nat.ne_of_gt x.pos
        exact h.base_ne hx ho (List.mem_of_mem_tail (hlink.next_mem hmem hn)) e
  · exact h.runs
  · intro k hk
    by_cases e : k = blk.order
    · subst e
      simp only [Function.update_self, hcount]
      omega
    · simp only [Function.update_of_ne e, h.counts hk, hw.count k, if_neg (Ne.symm e), Nat.add_zero]
  · simp only [hfree]
    omega
  · intro x
    rw [← h.tiles x]
    simp only [cover_append, hw.cover, cover_cons]
    omega
  · exact h.once
  · exact h.bounds

theorem Inv.popHead (hk : k ≤ maxOrder) (hne : b.heads k ≠ null) :
    ∃ b' blk, b.popHead k = .ok (blk.base, b') ∧ blk.order = k ∧
      b'.Inv (L.erase blk) (blk.range :: held) whole ∧ b'.totalFrames = b.totalFrames := by
  have hlink := h.lists hk
  obtain ⟨blk, hm, rfl, hbase⟩ := mem_listOf.mp (hlink.head_mem hne)
  obtain ⟨b', hb', hinv, htot⟩ := h.unlink hm
  refine ⟨b', blk, ?_, rfl, hinv, htot⟩
  have hprev : (b.mem blk.base).prev = null := by
    cases hL : listOf L blk.order with
    | nil => exact absurd (hlink.head_eq_null.mpr hL) hne
    | cons y ys =>
      rw [hL] at hlink
      rw [hbase, hlink.1, hlink.2.2.1]
  -- the first node has no back link, so popping it is unlinking it
  rw [Buddy.unlink, if_neg (Nat.not_lt_of_le hk)] at hb'
  simp only [hprev, if_true, splice] at hb'
  rw [Buddy.popHead, if_neg (Nat.not_lt_of_le hk)]
  simp only [← hbase, if_neg (Nat.ne_of_gt blk.pos : blk.base ≠ null), hb', Except.map]

end

theorem Inv.pushFree (h : b.Inv L (blk.range :: held) whole) :
    ∃ b', b.pushFree blk.base blk.order = .ok b' ∧ b'.Inv (blk :: L) held whole ∧
      b'.totalFrames = b.totalFrames := by
  have hnew : ∀ x ∈ L, x.base ≠ blk.base := by
    intro x hx he
    exact h.linked_apart_held hx (List.mem_cons_self ..) _ x.within_base (he ▸ blk.within_base)
  have hlink := (h.lists blk.order_le).push (h.listOf_nodup _) (x := blk.base)
    (Nat.ne_of_gt blk.pos) (by
      intro hm
      obtain ⟨x, hx, -, he⟩ := mem_listOf.mp hm
      exact hnew x hx he) rfl
  refine ⟨_, if_neg (Nat.not_lt_of_le blk.order_le), ?_, rfl⟩
  constructor
  · refine fun {k} hk => h.lists_of_update (k := blk.order) ?_ listOf_cons_of_ne ?_ hk
    · rw [listOf_cons_self]
      exact hlink
    · intro x hx ho
      have hx' : Function.update b.mem blk.base ⟨b.heads blk.order, null⟩ x.base = b.mem x.base :=
        Function.update_of_ne (hnew x hx) ..
      dsimp only
      split
      · exact hx'
      · rename_i hhead
        rw [setPrev_of_ne (h.base_ne hx ho ((h.lists blk.order_le).head_mem hhead)), hx']
  · exact h.runs
  · intro k hk
    rw [List.countP_cons]
    by_cases e : k = blk.order
    · subst e
      simp only [Function.update_self, h.counts hk, decide_true, if_true]
      omega
    · simp only [Function.update_of_ne e, h.counts hk, Ne.symm e, decide_false, Bool.false_eq_true,
        if_false]
      omega
  · simp only [h.freeFrames, List.map_cons, List.sum_cons]
    omega
  · intro x
    rw [← h.tiles x]
    simp only [List.map_cons, cover_cons, cover_append]
    omega
  · exact h.once
  · exact h.bounds

end Buddy
end VibeOS.Mm
