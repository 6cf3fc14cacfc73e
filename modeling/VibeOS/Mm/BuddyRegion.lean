import Mathlib.Data.Nat.ModEq
import VibeOS.Mm.BuddyAlloc

/-!
Giving blocks to the allocator: a freed block is joined with its free buddies and linked. A region
is cut into maximally aligned blocks from its start up, the whole top-order blocks among them
recorded as a run while there is a slot for one.
-/
namespace VibeOS.Mm
open Lib

theorem Block.merge (blk other : Block) (held : List (Nat × Nat)) (hlt : blk.order < maxOrder)
    (ho : other.order = blk.order) (hb : other.base = blk.base ^^^ blockSize blk.order) :
    ∃ m : Block, m.base = min blk.base other.base ∧ m.order = blk.order + 1 ∧
      Tiles (m.range :: held) (other.range :: blk.range :: held) := by
  obtain ⟨n, hn⟩ := blk.aligned
  have hxor := xor_two_pow (pageBits + blk.order) n
  have hsize := blockSize_succ blk.order
  rw [← blockSize_eq, ← hn, ← hb] at hxor
  have hdvd : ∀ j, blockSize (blk.order + 1) ∣ blockSize blk.order * (2 * j) := by
    intro j
    rw [hsize, ← Nat.mul_two, ← Nat.mul_assoc]
    exact Nat.dvd_mul_right _ _
  have hpos := blockSize_pos blk.order
  by_cases he : n % 2 = 0
  · -- the freed block is the lower half
    rw [if_pos he] at hxor
    refine ⟨⟨blk.base, blk.order + 1, hlt, ?_, blk.pos⟩, by dsimp only; omega, rfl, ?_⟩
    · rw [hn, show n = 2 * (n / 2) by omega]
      exact hdvd _
    · have := (tiles_split (l := held) (w := other.range :: blk.range :: held)
        (Nat.le_add_right blk.base (blockSize blk.order))
        (Nat.le_add_right _ (blockSize blk.order))).mp ?_
      · show Tiles ((blk.base, blk.base + blockSize (blk.order + 1)) :: held) _
        rw [hsize, ← Nat.add_assoc]
        exact this
      · refine Tiles.perm (fun _ => rfl) ?_
        rw [Block.range, Block.range, ho, hxor]
        exact List.Perm.swap ..
  · rw [if_neg he] at hxor
    have hle : blockSize blk.order ≤ blk.base := by
      rw [hn]
      exact Nat.le_mul_of_pos_right _ (by omega)
    have hother : other.base + blockSize blk.order = blk.base := by omega
    refine ⟨⟨other.base, blk.order + 1, hlt, ?_, other.pos⟩, by dsimp only; omega, rfl, ?_⟩
    · rw [hxor, hn, show n = 2 * (n / 2) + 1 by omega, Nat.mul_succ, Nat.add_sub_cancel]
      exact hdvd _
    · have := (tiles_split (l := held) (w := other.range :: blk.range :: held)
        (Nat.le_add_right other.base (blockSize blk.order))
        (Nat.le_add_right _ (blockSize blk.order))).mp ?_
      · show Tiles ((other.base, other.base + blockSize (blk.order + 1)) :: held) _
        rw [hsize, ← Nat.add_assoc]
        exact this
      · rw [Block.range, Block.range, ho, hother]
        exact fun _ => rfl

theorem alignDown_eq {x k : Nat} (hx : x < 2 ^ 64) (hk : k ≤ maxOrder) :
    alignDown x (blockSize k) = x / blockSize k * blockSize k := by
  rw [alignDown, blockSize_eq]
  have : pageBits + k ≤ 64 := by
    simp only [pageBits, maxOrder] at *
    omega
  exact and_high_mask this hx

namespace Buddy
variable {b b' : Buddy} {L : List Block} {blk : Block} {held whole : List (Nat × Nat)}

theorem Inv.coalesce (h : b.Inv L (blk.range :: held) whole) :
    ∃ (b' : Buddy) (L' : List Block) (blk' : Block),
      b.coalesce blk.base blk.order = .ok (b', blk'.base, blk'.order) ∧
        b'.Inv L' (blk'.range :: held) whole ∧ b'.totalFrames = b.totalFrames ∧ L' ⊆ L ∧
        (blk'.order < maxOrder → blk'.base ^^^ blockSize blk'.order ∉ listOf L' blk'.order) := by
  induction hn : maxOrder - blk.order generalizing b L blk with
  | zero =>
    refine ⟨b, L, blk, ?_, h, rfl, fun _ => id, fun hlt => absurd hlt (by omega)⟩
    rw [Buddy.coalesce, if_neg (by omega)]
  | succ n ih =>
    rw [Buddy.coalesce, if_pos (by omega)]
    dsimp only
    rw [h.inFreeList_eq blk.order_le]
    by_cases hm : blk.base ^^^ blockSize blk.order ∈ listOf L blk.order
    · obtain ⟨other, hother, ho, hb⟩ := mem_listOf.mp hm
      obtain ⟨m, hbase, horder, htiles⟩ := blk.merge other held (by omega) ho hb
      obtain ⟨b₁, hu, h₁, ht₁⟩ := h.unlink hother
      obtain ⟨b₂, L₂, blk₂, hc, h₂, ht₂, hsub, halone⟩ := ih (h₁.rehold htiles) (by omega)
      refine ⟨b₂, L₂, blk₂, ?_, h₂, ht₂.trans ht₁,
        fun x hx => List.mem_of_mem_erase (hsub hx), halone⟩
      rw [hb, ho] at hu
      simp only [hm, decide_true, bind, Except.bind, if_true, hu]
      rw [← hb, ← hbase, ← horder]
      exact hc
    · refine ⟨b, L, blk, ?_, h, rfl, fun _ => id, fun _ => hm⟩
      simp only [hm, decide_false, bind, Except.bind, Bool.false_eq_true, if_false]
      rfl

theorem Inv.not_covered (h : b.Inv L (blk.range :: held) whole) :
    b.coveredByFreeBlock blk.base blk.order = .ok false := by
  have hlt : blk.base < 2 ^ 64 := by
    have h₁ := h.held_bounded (List.mem_cons_self ..) blk.range_nonempty
    have h₂ := blk.range_nonempty
    simp only [Block.range, pageSize] at h₁ h₂
    omega
  have hrun : b.inRun blk.base = false := by
    rw [inRun, List.any_eq_false]
    intro r hr hx
    simp only [Bool.and_eq_true, decide_eq_true_eq] at hx
    have htiles : Tiles ((L.map Block.range ++ b.runs) ++ blk.range :: held) whole := by
      rw [List.append_assoc]
      exact h.tiles
    exact htiles.apart h.once (List.mem_append_right _ hr) (List.mem_cons_self ..) _ hx
      blk.within_base
  have hlists : ∀ k, b.coveredByLists blk.base k = .ok false := by
    intro k
    fun_induction Buddy.coveredByLists b blk.base k with
    | case1 k hk hin ih => exact ih
    | case2 k hk hin =>
      rw [h.inFreeList_eq hk] at hin ⊢
      congr 1
      rw [decide_eq_false_iff_not]
      intro hm
      obtain ⟨x, hx, ho, hb⟩ := mem_listOf.mp hm
      refine h.linked_apart_held hx (List.mem_cons_self ..) blk.base ?_ blk.within_base
      rw [alignDown_eq hlt hk] at hb
      rw [Block.range, ho, hb]
      exact ⟨Nat.div_mul_le_self _ _, Nat.lt_div_mul_add (blockSize_pos k)⟩
    | case3 k hk => rfl
  rw [coveredByFreeBlock, hrun]
  exact hlists _

theorem Inv.canonical_join {L' : List Block} {held' : List (Nat × Nat)} (h : b.Inv L held whole)
    (h' : b'.Inv (blk :: L') held' whole) (hsub : L' ⊆ L)
    (halone : blk.order < maxOrder → blk.base ^^^ blockSize blk.order ∉ listOf L' blk.order)
    (hc : b.Canonical) : b'.Canonical := by
  rw [h.canonical_iff] at hc
  rw [h'.canonical_iff]
  intro x hx hlt hm
  obtain ⟨y, hy, ho, hb⟩ := mem_listOf.mp hm
  rcases List.mem_cons.mp hx with rfl | hx'
  · rcases List.mem_cons.mp hy with rfl | hy'
    · have hself : blockSize y.order = 0 := by
        have := congrArg (y.base ^^^ ·) hb
        simpa [← Nat.xor_assoc] using this.symm
      exact Nat.ne_of_gt (blockSize_pos _) hself
    · exact halone hlt (mem_listOf.mpr ⟨y, hy', ho, hb⟩)
  · rcases List.mem_cons.mp hy with rfl | hy'
    · refine halone (ho ▸ hlt) (mem_listOf.mpr ⟨x, hx', ho.symm, ?_⟩)
      rw [hb, ho, Nat.xor_assoc, Nat.xor_self, Nat.xor_zero]
    · exact hc x (hsub hx') hlt (mem_listOf.mpr ⟨y, hsub hy', ho, hb⟩)

theorem Inv.deallocate (h : b.Inv L (blk.range :: held) whole) :
    ∃ (b' : Buddy) (L' : List Block), b.deallocate blk.base blk.order = .ok b' ∧
      b'.Inv L' held whole ∧ b'.totalFrames = b.totalFrames ∧ (b.Canonical → b'.Canonical) := by
  obtain ⟨b₁, L₁, blk₁, hc, h₁, ht₁, hsub, halone⟩ := h.coalesce
  obtain ⟨b₂, hp, h₂, ht₂⟩ := h₁.pushFree
  have halign : blk.base &&& (blockSize blk.order - 1) = 0 := by
    rw [blockSize_eq, Nat.and_two_pow_sub_one_eq_mod, ← blockSize_eq]
    exact Nat.mod_eq_zero_of_dvd blk.aligned
  refine ⟨b₂, blk₁ :: L₁, ?_, h₂, ht₂.trans ht₁, h.canonical_join h₂ hsub halone⟩
  rw [Buddy.deallocate, if_neg (Nat.not_lt_of_le blk.order_le), halign]
  simp only [ne_eq, not_true_eq_false, if_false, h.not_covered, bind, Except.bind,
    Bool.false_eq_true, hc]
  exact hp

theorem Inv.free {f : Frames} (h : b.Inv L (blk.range :: held) whole) (hbase : f.base = blk.base)
    (horder : f.order = blk.order) :
    ∃ (b' : Buddy) (L' : List Block), b.free f = .ok b' ∧ b'.Inv L' held whole ∧
      b'.totalFrames = b.totalFrames ∧ (b.Canonical → b'.Canonical) := by
  obtain ⟨b', L', hd, h', ht, hcanon⟩ := h.deallocate
  obtain ⟨-, hhi, hlo, hspan⟩ := h.held_bounded (List.mem_cons_self ..) blk.range_nonempty
  refine ⟨b', L', ?_, h', ht, hcanon⟩
  rw [Buddy.free, hbase, horder]
  have hlt : blk.base + blockSize blk.order < 2 ^ 64 :=
    Nat.lt_of_le_of_lt hhi (by decide)
  exact (if_pos ⟨hlo, hlt, hspan⟩).trans hd

end Buddy

theorem two_pow_trailingZeros_dvd (x : Nat) : 2 ^ trailingZeros x ∣ x := by
  apply two_pow_dvd_of_testBit
  intro i hi
  unfold trailingZeros at hi
  cases hf : (List.range 64).find? (fun i => x.testBit i) with
  | none =>
    rw [hf] at hi
    simpa using List.find?_eq_none.mp hf i (List.mem_range.mpr hi)
  | some j =>
    rw [hf] at hi
    simpa using (List.find?_range_eq_some.mp hf).2.2 i hi

theorem le_trailingZeros {x j : Nat} (hj : j ≤ 64) (h : 2 ^ j ∣ x) : j ≤ trailingZeros x := by
  unfold trailingZeros
  cases hf : (List.range 64).find? (fun i => x.testBit i) with
  | none => exact hj
  | some i =>
    have hbit : x.testBit i = true := by simpa using List.find?_some hf
    refine Nat.le_of_not_lt fun hlt => ?_
    obtain ⟨m, rfl⟩ := h
    rw [Option.getD_some] at hlt
    rw [Nat.testBit_two_pow_mul, decide_eq_false (by omega), Bool.false_and] at hbit
    cases hbit

namespace Buddy
variable {b b' : Buddy} {L : List Block} {blk : Block} {held whole : List (Nat × Nat)}

theorem regionOrder_spec {a stop : Nat} (ha : pageSize ∣ a) (hstop : pageSize ∣ stop)
    (hlt : a < stop) :
    regionOrder a stop ≤ maxOrder ∧ blockSize (regionOrder a stop) ∣ a ∧
      a + blockSize (regionOrder a stop) ≤ stop := by
  obtain ⟨k, hk⟩ : ∃ k, k = regionOrder a stop := ⟨_, rfl⟩
  rw [← hk]
  unfold regionOrder at hk
  refine ⟨by omega, ?_, ?_⟩
  · cases k with
    | zero => exact ha
    | succ j =>
      rw [blockSize_eq]
      exact (Nat.pow_dvd_pow 2 (by omega)).trans (two_pow_trailingZeros_dvd a)
  · have hpage : pageSize ≤ stop - a := Nat.le_of_dvd (by omega) (Nat.dvd_sub hstop ha)
    have hne : (stop - a) / pageSize ≠ 0 :=
      Nat.ne_of_gt (Nat.div_pos hpage (by decide))
    have hpow : 2 ^ k ≤ (stop - a) / pageSize := (Nat.le_log2 hne).mp (by omega)
    have := (Nat.le_div_iff_mul_le (by decide)).mp hpow
    rw [blockSize, Nat.shiftLeft_eq, Nat.mul_comm]
    omega

theorem regionOrder_largest {a stop : Nat} (ha : pageSize ∣ a) (hstop : pageSize ∣ stop)
    (hlt : regionOrder a stop < maxOrder) (hdvd : blockSize (regionOrder a stop + 1) ∣ a) :
    stop < a + blockSize (regionOrder a stop + 1) := by
  obtain ⟨k, hk⟩ : ∃ k, k = regionOrder a stop := ⟨_, rfl⟩
  rw [← hk] at hlt hdvd ⊢
  unfold regionOrder at hk
  rw [blockSize_eq] at hdvd
  have htz := le_trailingZeros (by simp only [pageBits, maxOrder] at *; omega) hdvd
  have hlog : ((stop - a) / pageSize).log2 < k + 1 := by omega
  have hpages : (stop - a) / pageSize < 2 ^ (k + 1) := Nat.lt_log2_self.trans_le
    (Nat.pow_le_pow_right (by decide) hlog)
  have hlen : (stop - a) / pageSize * pageSize = stop - a :=
    Nat.div_mul_cancel (Nat.dvd_sub hstop ha)
  have hsize : blockSize (k + 1) = 2 ^ (k + 1) * pageSize := by
    rw [blockSize, Nat.shiftLeft_eq, Nat.mul_comm]
  have := Nat.mul_lt_mul_of_pos_right hpages (show 0 < pageSize by decide)
  omega

/-- Each block that is the lower half of one twice its size reaches past the middle of what was
left: the upper half does not end by `stop`. -/
def Packed (L : List Block) (stop : Nat) : Prop :=
  ∀ x ∈ L, x.order < maxOrder → blockSize (x.order + 1) ∣ x.base →
    stop < x.base + blockSize (x.order + 1)

theorem topBlocks_append (runs runs' : List (Nat × Nat)) :
    topBlocks (runs ++ runs') = topBlocks runs + topBlocks runs' := by
  simp [topBlocks]

theorem addRun_spec {start stop : Nat} (hlt : start < stop) (hstart : blockSize maxOrder ∣ start)
    (hstop : blockSize maxOrder ∣ stop)
    (hruns : ∀ {r}, r ∈ b.runs →
      r.1 < r.2 ∧ blockSize maxOrder ∣ r.1 ∧ blockSize maxOrder ∣ r.2) :
    b.addRun start stop = (false, b) ∨
      ∃ runs, b.addRun start stop = (true, { b with runs }) ∧
        (∀ {r}, r ∈ runs → r.1 < r.2 ∧ blockSize maxOrder ∣ r.1 ∧ blockSize maxOrder ∣ r.2) ∧
        topBlocks runs = topBlocks b.runs + (stop - start) / blockSize maxOrder ∧
        Tiles runs ((start, stop) :: b.runs) := by
  have happend : ∀ {r}, r ∈ b.runs ++ [(start, stop)] →
      r.1 < r.2 ∧ blockSize maxOrder ∣ r.1 ∧ blockSize maxOrder ∣ r.2 := by
    intro r hr
    rcases List.mem_append.mp hr with hr | hr
    · exact hruns hr
    · rw [List.mem_singleton] at hr
      subst hr
      exact ⟨hlt, hstart, hstop⟩
  have hblocks : topBlocks (b.runs ++ [(start, stop)]) =
      topBlocks b.runs + (stop - start) / blockSize maxOrder := by
    rw [topBlocks_append, topBlocks_cons]
    rfl
  have htiles : Tiles (b.runs ++ [(start, stop)]) ((start, stop) :: b.runs) :=
    fun x => cover_perm List.perm_append_comm x
  rw [addRun, if_neg (Nat.not_le_of_lt hlt)]
  cases hl : b.runs.getLast? with
  | none =>
    rw [List.getLast?_eq_none_iff] at hl
    rw [hl, List.nil_append] at happend hblocks htiles
    exact .inr ⟨_, rfl, happend, by rw [hblocks, hl], by rw [hl]; exact htiles⟩
  | some r =>
    obtain ⟨first, last⟩ := r
    have hsplit : b.runs.dropLast ++ [(first, last)] = b.runs :=
      List.dropLast_append_getLast? _ hl
    by_cases e : last = start
    · subst e
      have hlast : (first, last) ∈ b.runs := hsplit ▸ List.mem_append_right _ (by simp)
      obtain ⟨h₁, h₂, h₃⟩ := hruns hlast
      simp only [if_pos]
      refine .inr ⟨_, rfl, fun {r} hr => ?_, ?_, fun x => ?_⟩
      · rcases List.mem_append.mp hr with hr | hr
        · exact hruns (List.mem_of_mem_dropLast hr)
        · rw [List.mem_singleton] at hr
          subst hr
          exact ⟨Nat.lt_trans h₁ hlt, h₂, hstop⟩
      · have hdiv : (stop - first) / blockSize maxOrder =
            (last - first) / blockSize maxOrder + (stop - last) / blockSize maxOrder := by
          rw [← Nat.add_div_of_dvd_right (Nat.dvd_sub h₃ h₂)]
          congr 1
          dsimp only at h₁
          omega
        conv_rhs => rw [← hsplit]
        rw [topBlocks_append, topBlocks_append, topBlocks_cons, topBlocks_cons, hdiv]
        simp only [topBlocks, List.map_nil, List.sum_nil]
        omega
      · have hs := within_split (a := first) (b := last) (c := stop) (Nat.le_of_lt h₁)
          (Nat.le_of_lt hlt) x
        conv_rhs => rw [← hsplit]
        simp only [cover_append, cover_cons, cover_nil]
        omega
    · simp only [if_neg e]
      by_cases hlen : b.runs.length < topRuns
      · rw [if_pos hlen]
        exact .inr ⟨_, rfl, happend, hblocks, htiles⟩
      · rw [if_neg hlen]
        exact .inl rfl

theorem Inv.asRun {a stop runEnd n k : Nat} (h : b.Inv L ((a, stop) :: held) whole)
    (hn : n = (stop - a) / blockSize maxOrder) (hend : runEnd = a + n * blockSize maxOrder)
    (hk : k = regionOrder a stop) (ha : blockSize k ∣ a) :
    b.asRun k a runEnd = (false, b) ∨
      ∃ b', b.asRun k a runEnd = (true, b') ∧ b'.totalFrames = b.totalFrames ∧
        a < runEnd ∧ runEnd ≤ stop ∧ blockSize maxOrder ∣ runEnd ∧
        { b' with
          totalFrames := b'.totalFrames + n * 2 ^ maxOrder
          counts := Function.update b'.counts maxOrder (b'.counts maxOrder + n)
          freeFrames := b'.freeFrames + n * 2 ^ maxOrder }.Inv L
            ((runEnd, stop) :: held) whole := by
  unfold Buddy.asRun
  by_cases htop : k = maxOrder
  swap
  · exact .inl (if_neg htop)
  rw [if_pos htop]
  subst htop
  have hlt : a < runEnd := by
    rw [hend, hn]
    exact run_advances hk.symm
  have hle : runEnd ≤ stop := by
    have := Nat.div_mul_le_self (stop - a) (blockSize maxOrder)
    rw [← hn] at this
    omega
  have hdvd : blockSize maxOrder ∣ runEnd := hend ▸ Nat.dvd_add ha (Nat.dvd_mul_left _ _)
  have hblocks : (runEnd - a) / blockSize maxOrder = n := by
    rw [hend, Nat.add_sub_cancel_left, Nat.mul_div_cancel _ (blockSize_pos _)]
  rcases addRun_spec hlt ha hdvd h.runs with hr | ⟨runs, hr, hvalid, htops, htiles⟩
  · exact .inl hr
  refine .inr ⟨_, hr, rfl, hlt, hle, hdvd, ?_⟩
  rw [hblocks] at htops
  constructor
  · exact h.lists
  · exact hvalid
  · intro k hk
    by_cases e : k = maxOrder
    · subst e
      simp only [Function.update_self, h.counts hk, if_pos, htops]
      omega
    · simp only [Function.update_of_ne e, h.counts hk, if_neg e]
  · simp only [h.freeFrames, htops, Nat.add_mul]
    omega
  · intro x
    have hs := within_split (Nat.le_of_lt hlt) hle x
    have ht := htiles x
    rw [← h.tiles x]
    simp only [cover_append, cover_cons] at ht ⊢
    omega
  · exact h.once
  · exact h.bounds

theorem Inv.with_total (h : b.Inv L held whole) (n : Nat) :
    { b with totalFrames := n }.Inv L held whole :=
  ⟨h.lists, h.runs, h.counts, h.freeFrames, h.tiles, h.once, h.bounds⟩

theorem pages_after {a mid stop n : Nat} (hn : mid = a + n * pageSize) (hle : mid ≤ stop) :
    n + (stop - mid) / pageSize = (stop - a) / pageSize := by
  rw [show stop - a = n * pageSize + (stop - mid) by omega,
    Nat.add_div_of_dvd_right (Nat.dvd_mul_left _ _), Nat.mul_div_cancel _ (by decide)]

theorem Inv.insertBlocks {a stop : Nat} (h : b.Inv L ((a, stop) :: held) whole)
    (ha : pageSize ∣ a) (hstop : pageSize ∣ stop) (hpos : 0 < a) :
    ∃ (b' : Buddy) (L' : List Block), b.insertBlocks a stop = .ok b' ∧ b'.Inv L' held whole ∧
      b'.totalFrames = b.totalFrames + (stop - a) / pageSize ∧
      (Packed L stop → Packed L' stop) := by
  induction hm : stop - a using Nat.strongRecOn generalizing b L a with
  | ind m ih =>
    rw [Buddy.insertBlocks]
    by_cases hlt : a < stop
    swap
    · rw [dif_neg hlt]
      have hle : stop ≤ a := Nat.le_of_not_lt hlt
      have hdrop : Tiles ((a, stop) :: held) held := (tiles_drop hle).mpr fun _ => rfl
      refine ⟨b, L, rfl, h.rehold fun x => (hdrop x).symm, ?_, id⟩
      rw [← hm, Nat.sub_eq_zero_of_le hle, Nat.zero_div, Nat.add_zero]
    rw [dif_pos hlt]
    obtain ⟨hk, hdvd, hfit⟩ := regionOrder_spec ha hstop hlt
    have hrun := h.asRun rfl rfl rfl hdvd
    dsimp only
    split
    · rename_i b₁ hr
      rcases hrun with hr' | ⟨b₂, hr', htot, hlt', hle, hdvd', hinv⟩
      · rw [hr'] at hr
        cases hr
      · rw [hr'] at hr
        cases hr
        obtain ⟨b₃, L₃, hb₃, h₃, ht₃, hp₃⟩ := ih _ (by omega) hinv
          ((pageSize_dvd_blockSize _).trans hdvd') (Nat.zero_lt_of_lt hlt') rfl
        refine ⟨b₃, L₃, hb₃, h₃, ?_, hp₃⟩
        rw [ht₃, htot, Nat.add_assoc, ← hm, pages_after ?_ hle]
        rw [Nat.mul_assoc]
        rfl
    · rename_i b₁ hr
      have hb₁ : b₁ = b := by
        rcases hrun with hr' | ⟨b₂, hr', -⟩
        · rw [hr'] at hr
          cases hr
          rfl
        · rw [hr'] at hr
          cases hr
      subst hb₁
      have htiles := (tiles_split (l := held) (w := (a, stop) :: held)
        (Nat.le_add_right a _) hfit).mpr fun _ => rfl
      have htotal : Inv _ L (Block.range ⟨a, regionOrder a stop, hk, hdvd, hpos⟩ :: _) _ :=
        (h.rehold htiles).with_total (b₁.totalFrames + 2 ^ regionOrder a stop)
      obtain ⟨b₂, hp, h₂, ht₂⟩ := htotal.pushFree
      dsimp only at hp
      have hadv := blockSize_pos (regionOrder a stop)
      obtain ⟨b₃, L₃, hb₃, h₃, ht₃, hp₃⟩ := ih (stop - (a + blockSize (regionOrder a stop)))
        (by omega) h₂ (Nat.dvd_add ha (pageSize_dvd_blockSize _)) (by omega) rfl
      rw [hp]
      refine ⟨b₃, L₃, hb₃, h₃, ?_, fun hpacked => hp₃ (List.forall_mem_cons.mpr
        ⟨regionOrder_largest ha hstop, hpacked⟩)⟩
      rw [ht₃, ht₂, Nat.add_assoc, ← hm, pages_after ?_ hfit]
      rw [blockSize, Nat.shiftLeft_eq, Nat.mul_comm]

end Buddy
end VibeOS.Mm
