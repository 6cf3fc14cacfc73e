import VibeOS.Mm.Kva

/-!
Coalescing the pool. The listed nodes are moved to the front, sorted, and merged where one starts
at the end of the other; what is left covers the same addresses, is in order, and no two ranges
of it meet.
-/
namespace VibeOS.Mm.Kva
open Lib

variable {maxRanges lo hi n w r : Nat} {k : Kva} {ids : List Nat} {v v₀ : Nat → Range}
  {a b x : Range}

theorem compact_spec (nodes : Nat → Range) (r : Nat) :
    (compact nodes r).2 ≤ r ∧ (∀ j, r ≤ j → (compact nodes r).1 j = nodes j) ∧
      firstCells (compact nodes r).1 (compact nodes r).2 =
        (firstCells nodes r).filter fun x => decide (0 < x.len) := by
  induction r with
  | zero => exact ⟨Nat.le_refl 0, fun _ _ => rfl, rfl⟩
  | succ r ih =>
    obtain ⟨v, n, hc⟩ : ∃ v n, compact nodes r = (v, n) := ⟨_, _, rfl⟩
    rw [hc] at ih
    obtain ⟨hle, hold, hcells⟩ : n ≤ r ∧ (∀ j, r ≤ j → v j = nodes j) ∧ firstCells v n = _ := ih
    simp only [compact, hc, firstCells_succ, List.filter_append, ← hcells, hold r (Nat.le_refl r)]
    split
    · rename_i hpos
      refine ⟨Nat.succ_le_succ hle, fun j hj => ?_, ?_⟩
      · exact (Function.update_of_ne (by omega) ..).trans (hold j (by omega))
      · rw [List.filter_singleton, decide_eq_true hpos, cond_true]
        exact firstCells_push ..
    · rename_i hpos
      refine ⟨Nat.le_succ_of_le hle, fun j hj => hold j (by omega), ?_⟩
      rw [List.filter_singleton, decide_eq_false hpos, cond_false, List.append_nil]

theorem Listed.compact (h : Listed maxRanges k ids) :
    (firstCells (compact k.nodes maxRanges).1 (compact k.nodes maxRanges).2).Perm
      (ids.map k.nodes) := by
  have hall : (firstCells k.nodes maxRanges).Perm (ids.map k.nodes ++ k.spare.map k.nodes) := by
    rw [← List.map_append]
    exact (h.once.map k.nodes).symm
  have hids : (ids.map k.nodes).filter (fun x => decide (0 < x.len)) = ids.map k.nodes := by
    refine List.filter_eq_self.mpr fun x hx => ?_
    obtain ⟨i, hi, rfl⟩ := List.mem_map.mp hx
    exact decide_eq_true (h.pos i hi)
  have hspare : (k.spare.map k.nodes).filter (fun x => decide (0 < x.len)) = [] := by
    refine List.filter_eq_nil_iff.mpr fun x hx => ?_
    obtain ⟨i, hi, rfl⟩ := List.mem_map.mp hx
    simp [h.zero i hi]
  have hperm := hall.filter fun x => decide (0 < x.len)
  rw [List.filter_append, hids, hspare, List.append_nil] at hperm
  rw [(compact_spec k.nodes maxRanges).2.2]
  exact hperm

/-- A page-aligned range between `lo` and `hi`. -/
structure Range.Fits (lo hi : Nat) (a : Range) : Prop where
  pos : 0 < a.len
  lo_le : lo ≤ a.start
  le_hi : a.stop ≤ hi
  start_aligned : a.start % pageSize = 0
  len_aligned : a.len % pageSize = 0

theorem Range.Fits.start_lt_stop (h : a.Fits lo hi) : a.start < a.stop :=
  Nat.lt_add_of_pos_right h.pos

theorem sortByStart_inOrder (hfit : ∀ a ∈ firstCells v n, a.Fits lo hi)
    (hone : ∀ x, cover ((firstCells v n).map Range.span) x ≤ 1) :
    (firstCells (sortByStart v n) n).Pairwise fun a b => a.stop ≤ b.start := by
  have hperm : (firstCells (sortByStart v n) n).Perm (firstCells v n) :=
    heapsort_cells Range.start v n
  have hsorted : (firstCells (sortByStart v n) n).Pairwise fun a b => a.start ≤ b.start :=
    pairwise_firstCells.mpr fun i j => heapsort_sorted Range.start v
  have hapart : (firstCells (sortByStart v n) n).Pairwise fun a b => Apart a.span b.span := by
    refine List.pairwise_map.mp (apart_of_cover_le_one fun x => ?_)
    rw [cover_perm (hperm.map Range.span)]
    exact hone x
  refine (hsorted.and hapart).imp_of_mem fun {a b} ha hb hab => ?_
  obtain ⟨hle, hap⟩ := hab
  refine Nat.le_of_not_lt fun hlt => hap b.start ⟨hle, hlt⟩ ⟨Nat.le_refl _, ?_⟩
  exact (hfit b (hperm.subset hb)).start_lt_stop

theorem Range.Fits.join (ha : a.Fits lo hi) (hb : b.Fits lo hi) (hab : a.stop = b.start) :
    (⟨a.start, a.len + b.len⟩ : Range).Fits lo hi := by
  refine ⟨Nat.add_pos_left ha.pos _, ha.lo_le, ?_, ha.start_aligned, ?_⟩
  · have := hb.le_hi
    unfold stop at *
    simp only at *
    omega
  · rw [Nat.add_mod, ha.len_aligned, hb.len_aligned]
    rfl

/-- What the merging loop has made of the first `r` ranges of `v₀`: `w` ranges at the front. -/
structure Merged (lo hi : Nat) (v₀ : Nat → Range) (r : Nat) (v : Nat → Range) (w : Nat) :
    Prop where
  le : w ≤ r
  rest : ∀ j, r ≤ j → v j = v₀ j
  fits : ∀ a ∈ firstCells v w, a.Fits lo hi
  apart : (firstCells v w).Pairwise fun a b => a.stop < b.start
  cover_eq : ∀ x, cover ((firstCells v w).map Range.span) x =
    cover ((firstCells v₀ r).map Range.span) x
  last : ∀ a ∈ firstCells v w, ∃ j < r, a.stop ≤ (v₀ j).stop

theorem cover_joined (l : List (Nat × Nat)) (hab : a.stop = b.start) (y : Nat) :
    cover (l ++ [Range.span ⟨a.start, a.len + b.len⟩]) y = cover (l ++ [a.span] ++ [b.span]) y := by
  have hspan : Range.span ⟨a.start, a.len + b.len⟩ = (a.span.1, b.span.2) := by
    unfold Range.span Range.stop at *
    simp only [Prod.mk.injEq, true_and]
    omega
  rw [hspan, cover_append, cover_append, cover_append, Nat.add_assoc,
    cover_join (Nat.le_add_right ..) (Nat.le_add_right ..) hab]

theorem Merged.step (h : Merged lo hi v₀ r v w) (hhi : hi ≤ 2 ^ 64) (hlo : hi - lo < 2 ^ 64)
    (hx : (v₀ r).Fits lo hi) (hord : ∀ j < r, (v₀ j).stop ≤ (v₀ r).start) :
    ∃ v' w', mergeOne v w (v r) = .ok (v', w') ∧ Merged lo hi v₀ (r + 1) v' w' := by
  have hvr : v r = v₀ r := h.rest r (Nat.le_refl r)
  rw [hvr]
  have hbefore : ∀ a ∈ firstCells v w, a.stop ≤ (v₀ r).start := by
    intro a ha
    obtain ⟨j, hj, hle⟩ := h.last a ha
    exact Nat.le_trans hle (hord j hj)
  have hstart := hx.start_lt_stop
  have hle := hx.le_hi
  -- a range that does not meet the last one goes behind it
  have hpush : (∀ a ∈ firstCells v w, a.stop < (v₀ r).start) →
      Merged lo hi v₀ (r + 1) (Function.update v w (v₀ r)) (w + 1) := by
    intro hlt
    refine ⟨Nat.succ_le_succ h.le, fun j hj => ?_, ?_, ?_, fun y => ?_, fun a ha => ?_⟩
    · rw [Function.update_of_ne (by have := h.le; omega), h.rest j (by omega)]
    · rw [firstCells_push]
      exact List.forall_mem_append.mpr ⟨h.fits, List.forall_mem_singleton.mpr hx⟩
    · rw [firstCells_push]
      refine List.pairwise_append.mpr ⟨h.apart, List.pairwise_singleton .., fun a ha b hb => ?_⟩
      rw [List.mem_singleton.mp hb]
      exact hlt a ha
    · rw [firstCells_push, firstCells_succ, List.map_append, List.map_append, cover_append,
        cover_append, h.cover_eq]
    · rw [firstCells_push] at ha
      rcases List.mem_append.mp ha with ha | ha
      · obtain ⟨j, hj, hle⟩ := h.last a ha
        exact ⟨j, Nat.lt_succ_of_lt hj, hle⟩
      · exact ⟨r, Nat.lt_succ_self r, Nat.le_of_eq (congrArg Range.stop (List.mem_singleton.mp ha))⟩
  cases w with
  | zero =>
    refine ⟨_, _, rfl, hpush fun a ha => ?_⟩
    cases ha
  | succ w =>
    have hmem : v w ∈ firstCells v (w + 1) := mem_firstCells.mpr ⟨w, Nat.lt_succ_self w, rfl⟩
    have hfw := h.fits _ hmem
    have hstop : add64 (v w).start (v w).len = .ok (v w).stop := by
      refine if_pos (Nat.lt_of_le_of_lt (hbefore _ hmem) ?_)
      omega
    rw [mergeOne, if_pos (Nat.succ_pos w), Nat.add_sub_cancel]
    simp only [hstop, bind, Except.bind]
    split
    · rename_i hmeet
      have hlen : add64 (v w).len (v₀ r).len = .ok ((v w).len + (v₀ r).len) := by
        refine if_pos ?_
        have := hfw.lo_le
        unfold Range.stop at *
        omega
      have hcells : firstCells (Function.update v w ⟨(v w).start, (v w).len + (v₀ r).len⟩) (w + 1) =
          firstCells v w ++ [⟨(v w).start, (v w).len + (v₀ r).len⟩] := firstCells_push ..
      have hapart := h.apart
      rw [firstCells_succ] at hapart
      obtain ⟨hap, -, hapw⟩ := List.pairwise_append.mp hapart
      simp only [hlen, pure, Except.pure]
      refine ⟨_, _, rfl, Nat.le_succ_of_le h.le, fun j hj => ?_, ?_, ?_, fun y => ?_,
        fun a ha => ?_⟩
      · rw [Function.update_of_ne (by have := h.le; omega), h.rest j (by omega)]
      · rw [hcells]
        have hfits := h.fits
        rw [firstCells_succ] at hfits
        exact List.forall_mem_append.mpr ⟨(List.forall_mem_append.mp hfits).1,
          List.forall_mem_singleton.mpr (hfw.join hx hmeet)⟩
      · rw [hcells]
        refine List.pairwise_append.mpr ⟨hap, List.pairwise_singleton .., fun a ha b hb => ?_⟩
        rw [List.mem_singleton.mp hb]
        exact hapw a ha (v w) (List.mem_singleton_self _)
      · have hc := h.cover_eq y
        rw [firstCells_succ, List.map_append] at hc
        rw [hcells, List.map_append, List.map_singleton, cover_joined _ hmeet, firstCells_succ v₀,
          List.map_append, cover_append, cover_append _ (List.map _ [v₀ r]), ← hc]
        rfl
      · rw [hcells] at ha
        rcases List.mem_append.mp ha with ha | ha
        · obtain ⟨j, hj, hle⟩ := h.last a (by rw [firstCells_succ]; exact List.mem_append_left _ ha)
          exact ⟨j, Nat.lt_succ_of_lt hj, hle⟩
        · refine ⟨r, Nat.lt_succ_self r, Nat.le_of_eq ?_⟩
          rw [List.mem_singleton.mp ha]
          unfold Range.stop at *
          simp only
          omega
    · rename_i hmeet
      refine ⟨_, _, rfl, hpush fun a ha => ?_⟩
      have hlt : (v w).stop < (v₀ r).start := Nat.lt_of_le_of_ne (hbefore _ hmem) hmeet
      have hapart := h.apart
      rw [firstCells_succ] at ha hapart
      rcases List.mem_append.mp ha with ha | ha
      · have := (List.pairwise_append.mp hapart).2.2 a ha _ (List.mem_singleton_self _)
        have := hfw.start_lt_stop
        omega
      · rw [List.mem_singleton.mp ha]
        exact hlt

theorem mergeAdjacent_spec (hhi : hi ≤ 2 ^ 64) (hlo : hi - lo < 2 ^ 64)
    (hfit : ∀ a ∈ firstCells v₀ n, a.Fits lo hi)
    (hord : (firstCells v₀ n).Pairwise fun a b => a.stop ≤ b.start) (hr : r ≤ n) :
    ∃ v w, mergeAdjacent v₀ r = .ok (v, w) ∧ Merged lo hi v₀ r v w := by
  induction r with
  | zero =>
    exact ⟨v₀, 0, rfl, Nat.le_refl 0, fun _ _ => rfl, fun a ha => (List.not_mem_nil ha).elim,
      .nil, fun _ => rfl, fun a ha => (List.not_mem_nil ha).elim⟩
  | succ r ih =>
    obtain ⟨v, w, hrun, hm⟩ := ih (Nat.le_of_succ_le hr)
    obtain ⟨v', w', hstep, hm'⟩ := hm.step hhi hlo (hfit _ (mem_firstCells.mpr ⟨r, hr, rfl⟩))
      fun j hj => pairwise_firstCells.mp hord j r hj hr
    refine ⟨v', w', ?_, hm'⟩
    rw [mergeAdjacent, hrun]
    exact hstep

theorem asU16_of_lt {i : Nat} (h : i < 65536) : asU16 i = i :=
  Nat.mod_eq_of_lt h

theorem listed_relist (k : Kva) (hw : w ≤ maxRanges) (hmax : maxRanges ≤ 65535)
    (hpos : ∀ i < w, 0 < (v i).len) :
    Listed maxRanges (relist maxRanges k v w) (List.range w) ∧
      (List.range w).map (relist maxRanges k v w).nodes = firstCells v w := by
  have hspare : (relist maxRanges k v w).spare = (List.range (maxRanges - w)).map (w + ·) := by
    refine List.map_congr_left fun j hj => ?_
    have hj' : j < maxRanges - w := List.mem_range.mp hj
    change (if j < maxRanges - w then asU16 (w + j) else k.slots j) = w + j
    rw [if_pos hj', asU16_of_lt (by omega)]
  refine ⟨⟨?_, ?_, ?_, fun i hi => ?_, fun i hi => ?_⟩, ?_⟩
  · refine (chained_range w).frame fun i hi => ?_
    change (if i + 1 < w then some (asU16 (i + 1)) else none) = _
    split
    · rw [asU16_of_lt (by omega)]
    · rfl
  · change (if 0 < w then some (asU16 (w - 1)) else none) = _
    rw [List.getLast?_range]
    cases w with
    | zero => rfl
    | succ w => rw [if_pos (Nat.succ_pos w), if_neg (Nat.succ_ne_zero w), asU16_of_lt (by omega)]
  · rw [hspare, ← List.range_add, Nat.add_sub_cancel' hw]
  · have hi' := List.mem_range.mp hi
    change 0 < (if i < w then v i else ⟨0, 0⟩ : Range).len
    rw [if_pos hi']
    exact hpos i hi'
  · rw [hspare, List.mem_map] at hi
    obtain ⟨j, -, rfl⟩ := hi
    change (if w + j < w then v (w + j) else ⟨0, 0⟩ : Range).len = 0
    rw [if_neg (by omega)]
  · refine List.map_congr_left fun i hi => ?_
    exact if_pos (List.mem_range.mp hi)

theorem Listed.coalesceAll (h : Listed maxRanges k ids) (hmax : maxRanges ≤ 65535)
    (hhi : hi ≤ 2 ^ 64) (hlo : hi - lo < 2 ^ 64) (hfit : ∀ a ∈ ids.map k.nodes, a.Fits lo hi)
    (hone : ∀ x, cover ((ids.map k.nodes).map Range.span) x ≤ 1) :
    ∃ k' ids', coalesceAll maxRanges k = .ok k' ∧ Listed maxRanges k' ids' ∧
      (∀ a ∈ ids'.map k'.nodes, a.Fits lo hi) ∧
      ((ids'.map k'.nodes).Pairwise fun a b => a.stop < b.start) ∧
      (∀ x, cover ((ids'.map k'.nodes).map Range.span) x =
        cover ((ids.map k.nodes).map Range.span) x) ∧
      k'.used = k.used ∧ k'.live = k.live ∧ k'.capacity = k.capacity := by
  have hn := (compact_spec k.nodes maxRanges).1
  have hperm := h.compact
  obtain ⟨u, n, hun⟩ : ∃ u n, Kva.compact k.nodes maxRanges = (u, n) := ⟨_, _, rfl⟩
  rw [hun] at hn hperm
  have hsort : (firstCells (sortByStart u n) n).Perm (firstCells u n) :=
    heapsort_cells Range.start u n
  have hord :=
    sortByStart_inOrder (v := u) (n := n) (fun a ha => hfit a (hperm.subset ha)) fun x => by
    rw [cover_perm (hperm.map Range.span)]
    exact hone x
  obtain ⟨v, w, hrun, hm⟩ := mergeAdjacent_spec hhi hlo
    (fun a ha => hfit a ((hsort.trans hperm).subset ha)) hord (Nat.le_refl n)
  obtain ⟨hlist, hcells⟩ := listed_relist k (Nat.le_trans hm.le hn) hmax
    fun i hi => (hm.fits _ (mem_firstCells.mpr ⟨i, hi, rfl⟩)).pos
  refine ⟨_, List.range w, ?_, hlist, ?_, ?_, fun x => ?_, rfl, rfl, rfl⟩
  · simp only [Kva.coalesceAll, hun, hrun, bind, Except.bind, pure, Except.pure]
  · rw [hcells]
    exact hm.fits
  · rw [hcells]
    exact hm.apart
  · rw [hcells, hm.cover_eq]
    exact cover_perm ((hsort.trans hperm).map Range.span) x

end VibeOS.Mm.Kva
