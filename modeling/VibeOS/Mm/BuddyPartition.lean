import VibeOS.Mm.BuddyPool

/-!
The partition a run keeps, in the terms of the lists, the runs and the tokens
themselves: which blocks there are, that they are apart, what they cover and that the
counters count them.
-/
namespace VibeOS.Mm
open Lib

/-- The bytes of the block of `2 ^ order` frames at `base`. -/
def span (blk : Nat × Nat) : Nat × Nat :=
  (blk.1, blk.1 + blockSize blk.2)

/-- The top-order blocks of the runs. -/
def runBlocks (runs : List (Nat × Nat)) : List (Nat × Nat) :=
  runs.flatMap fun r =>
    (List.range ((r.2 - r.1) / blockSize maxOrder)).map fun i =>
      (r.1 + i * blockSize maxOrder, maxOrder)

namespace Pool

def freeBlocks (S : Pool) (linked : List (Nat × Nat)) : List (Nat × Nat) :=
  linked ++ runBlocks S.buddy.runs

/-- The free blocks and the ones handed out. -/
def blocks (S : Pool) (linked : List (Nat × Nat)) : List (Nat × Nat) :=
  S.freeBlocks linked ++ S.tokens.map fun f => (f.base, f.order)

/-- The blocks linked in `linked`, those of the runs and the tokens partition the pages
of the regions, and the counters count them. -/
structure Partitioned (S : Pool) (linked : List (Nat × Nat)) : Prop where
  lists : ∀ k ≤ maxOrder, Linked S.buddy.mem null null (S.buddy.heads k)
    ((linked.filter fun blk => blk.2 = k).map Prod.fst)
  nodup : ∀ k ≤ maxOrder, ((linked.filter fun blk => blk.2 = k).map Prod.fst).Nodup
  apart : (S.blocks linked).Pairwise fun blk blk' => Apart (span blk) (span blk')
  aligned : ∀ blk ∈ S.blocks linked,
    blk.2 ≤ maxOrder ∧ 2 ^ blk.2 * pageSize ∣ blk.1 ∧ blk.1 ≠ 0
  covers : ∀ frame, (∃ blk ∈ S.blocks linked, Within (span blk) (frame * pageSize)) ↔
    frame ≠ 0 ∧ ∃ r ∈ S.regions, r.1 ≤ frame * pageSize ∧ (frame + 1) * pageSize ≤ r.2
  counts : ∀ k ≤ maxOrder, S.buddy.counts k = (S.freeBlocks linked).countP fun blk => blk.2 = k
  freeFrames : S.buddy.freeFrames = ((S.freeBlocks linked).map fun blk => 2 ^ blk.2).sum
  totalFrames : S.buddy.totalFrames = ((S.blocks linked).map fun blk => 2 ^ blk.2).sum

end Pool

theorem cover_runBlocks {runs : List (Nat × Nat)}
    (h : ∀ r ∈ runs, r.1 < r.2 ∧ blockSize maxOrder ∣ r.1 ∧ blockSize maxOrder ∣ r.2) (x : Nat) :
    cover ((runBlocks runs).map span) x = cover runs x := by
  induction runs with
  | nil => rfl
  | cons r runs ih =>
    obtain ⟨hlt, h₁, h₂⟩ := h r (List.mem_cons_self ..)
    have hlen : (r.2 - r.1) / blockSize maxOrder * blockSize maxOrder = r.2 - r.1 :=
      Nat.div_mul_cancel (Nat.dvd_sub h₂ h₁)
    have hr : cover (((List.range ((r.2 - r.1) / blockSize maxOrder)).map fun i =>
        (r.1 + i * blockSize maxOrder, maxOrder)).map span) x = cover [r] x := by
      rw [List.map_map]
      refine (cover_steps r.1 (blockSize maxOrder) _ x).trans ?_
      rw [hlen, Nat.add_sub_cancel' (Nat.le_of_lt hlt)]
    have ih' := ih fun s hs => h s (List.mem_cons_of_mem _ hs)
    rw [runBlocks, List.flatMap_cons, List.map_append, cover_append, hr]
    rw [runBlocks] at ih'
    rw [ih', cover_cons, cover_cons, cover_nil]
    omega

theorem mem_runBlocks {runs : List (Nat × Nat)} {blk : Nat × Nat} :
    blk ∈ runBlocks runs ↔ ∃ r ∈ runs, ∃ i < (r.2 - r.1) / blockSize maxOrder,
      blk = (r.1 + i * blockSize maxOrder, maxOrder) := by
  simp [runBlocks, eq_comm]

theorem map_snd_runBlocks (runs : List (Nat × Nat)) :
    (runBlocks runs).map Prod.snd = List.replicate (topBlocks runs) maxOrder := by
  induction runs with
  | nil => rfl
  | cons r runs ih =>
    rw [runBlocks, List.flatMap_cons, List.map_append]
    rw [runBlocks] at ih
    rw [ih, topBlocks_cons, ← List.replicate_append_replicate]
    simp [Function.comp_def, List.map_const']

namespace Pool
variable {S : Pool} {L : List Block}

/-- The linked blocks as addresses and orders. -/
def linkedBlocks (L : List Block) : List (Nat × Nat) :=
  L.map fun blk => (blk.base, blk.order)

theorem filter_linkedBlocks (L : List Block) (k : Nat) :
    ((linkedBlocks L).filter fun blk => blk.2 = k).map Prod.fst = listOf L k := by
  rw [linkedBlocks, List.filter_map, List.map_map]
  rfl

theorem Inv.tiles (h : S.Inv L) :
    Tiles ((S.blocks (linkedBlocks L)).map span) (S.regions.map interior) := by
  intro x
  rw [← h.buddy.tiles x]
  simp only [blocks, freeBlocks, linkedBlocks, List.map_append, cover_append,
    cover_runBlocks fun r hr => h.buddy.runs hr, List.map_map]
  exact Nat.add_assoc _ _ _

theorem Inv.aligned (h : S.Inv L) {blk : Nat × Nat} (hm : blk ∈ S.blocks (linkedBlocks L)) :
    blk.2 ≤ maxOrder ∧ blockSize blk.2 ∣ blk.1 ∧ blk.1 ≠ 0 := by
  have hblock : ∀ x : Block, x.order ≤ maxOrder ∧ blockSize x.order ∣ x.base ∧ x.base ≠ 0 :=
    fun x => ⟨x.order_le, x.aligned, Nat.ne_of_gt x.pos⟩
  rcases List.mem_append.mp hm with hm | hm
  · rcases List.mem_append.mp hm with hm | hm
    · obtain ⟨x, -, rfl⟩ := List.mem_map.mp hm
      exact hblock x
    · obtain ⟨r, hr, i, -, rfl⟩ := mem_runBlocks.mp hm
      obtain ⟨hlt, h₁, -⟩ := h.buddy.runs hr
      have := (h.buddy.bounded (List.mem_append_right _ (List.mem_append_left _ hr)) hlt).1
      refine ⟨Nat.le_refl _, Nat.dvd_add h₁ (Nat.dvd_mul_left _ _), ?_⟩
      simp only [pageSize] at this
      dsimp only
      omega
  · obtain ⟨f, hf, rfl⟩ := List.mem_map.mp hm
    obtain ⟨x, -, hb, ho⟩ := h.tokens f hf
    simp only [hb, ho]
    exact hblock x

theorem Inv.counts (h : S.Inv L) {k : Nat} (hk : k ≤ maxOrder) :
    S.buddy.counts k = (S.freeBlocks (linkedBlocks L)).countP fun blk => blk.2 = k := by
  have hruns : (runBlocks S.buddy.runs).countP (fun blk => blk.2 = k) =
      if k = maxOrder then topBlocks S.buddy.runs else 0 := by
    have := List.countP_map (p := fun o => decide (o = k)) (f := Prod.snd)
      (l := runBlocks S.buddy.runs)
    rw [map_snd_runBlocks, List.countP_replicate] at this
    refine this.symm.trans ?_
    simp [eq_comm]
  rw [h.buddy.counts hk, freeBlocks, List.countP_append, hruns, linkedBlocks, List.countP_map]
  rfl

theorem sum_frames_runBlocks (runs : List (Nat × Nat)) :
    ((runBlocks runs).map fun blk => 2 ^ blk.2).sum = topBlocks runs * 2 ^ maxOrder := by
  have : ((runBlocks runs).map fun blk => 2 ^ blk.2) =
      ((runBlocks runs).map Prod.snd).map (2 ^ ·) := by
    rw [List.map_map]
    rfl
  rw [this, map_snd_runBlocks, List.map_replicate, List.sum_replicate_nat]

theorem Inv.freeFrames (h : S.Inv L) :
    S.buddy.freeFrames = ((S.freeBlocks (linkedBlocks L)).map fun blk => 2 ^ blk.2).sum := by
  rw [h.buddy.freeFrames, freeBlocks, List.map_append, List.sum_append, sum_frames_runBlocks,
    linkedBlocks, List.map_map]
  rfl

theorem Inv.totalFrames (h : S.Inv L) :
    S.buddy.totalFrames = ((S.blocks (linkedBlocks L)).map fun blk => 2 ^ blk.2).sum := by
  have hwhole : ∀ w ∈ S.regions.map interior, w.2 ≤ 2 ^ 64 := by
    intro w hw
    obtain ⟨r, hr, rfl⟩ := List.mem_map.mp hw
    have := (h.rounds r hr).2
    rw [interior_eq (h.rounds r hr)]
    exact Nat.le_trans (Nat.div_mul_le_self _ _) (Nat.le_of_lt this)
  have hspan : ∀ s ∈ (S.blocks (linkedBlocks L)).map span, s.2 ≤ 2 ^ 64 := by
    intro s hs
    obtain ⟨blk, -, rfl⟩ := List.mem_map.mp hs
    have hpos := blockSize_pos blk.2
    obtain ⟨w, hw, hx⟩ := h.tiles.within hs (x := (span blk).2 - 1) (by
      simp only [span, Within]
      omega)
    have hle := hwhole w hw
    have hlt := hx.2
    omega
  have hsum := h.tiles.sum_length hspan hwhole
  have hlen : ∀ l : List (Nat × Nat), ((l.map span).map fun r => r.2 - r.1).sum =
      pageSize * (l.map fun blk => 2 ^ blk.2).sum := by
    intro l
    rw [List.map_map, ← List.sum_map_mul_left]
    congr 1
    refine List.map_congr_left fun blk _ => ?_
    simp only [Function.comp_apply, span, Nat.add_sub_cancel_left]
    exact Nat.shiftLeft_eq ..
  have htotal : pageSize * S.buddy.totalFrames =
      ((S.regions.map interior).map fun r => r.2 - r.1).sum := by
    rw [h.total, ← List.sum_map_mul_left, List.map_map]
    congr 1
    refine List.map_congr_left fun r hr => ?_
    obtain ⟨h₁, h₂⟩ := interior_dvd (h.rounds r hr)
    exact Nat.mul_div_cancel' (Nat.dvd_sub h₂ h₁)
  rw [hlen, ← htotal] at hsum
  exact (Nat.eq_of_mul_eq_mul_left (by decide) hsum).symm

theorem Inv.partitioned (h : S.Inv L) : S.Partitioned (linkedBlocks L) where
  lists k hk := by
    rw [filter_linkedBlocks]
    exact h.buddy.lists hk
  nodup k _ := by
    rw [filter_linkedBlocks]
    exact h.buddy.listOf_nodup k
  apart := List.pairwise_map.mp (apart_of_cover_le_one fun x => (h.tiles x).symm ▸ h.buddy.once x)
  aligned blk hm := by
    obtain ⟨ho, hd, hne⟩ := h.aligned hm
    rw [blockSize, Nat.shiftLeft_eq, Nat.mul_comm] at hd
    exact ⟨ho, hd, hne⟩
  covers frame := by
    have hdiv : frame * pageSize / pageSize = frame := Nat.mul_div_cancel _ (by decide)
    have hspans := cover_pos (l := (S.blocks (linkedBlocks L)).map span) (x := frame * pageSize)
    rw [h.tiles, cover_pos] at hspans
    simp only [List.mem_map, exists_exists_and_eq_and] at hspans
    rw [← hspans]
    constructor
    · rintro ⟨r, hr, hx⟩
      rw [within_interior (h.rounds r hr), hdiv] at hx
      exact ⟨hx.1, r, hr, hx.2⟩
    · rintro ⟨hne, r, hr, hx⟩
      refine ⟨r, hr, ?_⟩
      rw [within_interior (h.rounds r hr), hdiv]
      exact ⟨hne, hx⟩
  counts k hk := h.counts hk
  freeFrames := h.freeFrames
  totalFrames := h.totalFrames

theorem step_regions {S' : Pool} {a : PoolAct} (h : S.step a = .ok S') :
    S'.regions = inserted [a] ++ S.regions := by
  have hhand : ∀ res, (S.hand res).regions = S.regions := by
    intro res
    cases res <;> rfl
  cases a with
  | insert start stop =>
    simp only [step] at h
    cases hb : S.buddy.insertRegion start stop with
    | error e => rw [hb] at h; cases h
    | ok b => rw [hb] at h; cases h; rfl
  | alloc order =>
    simp only [step] at h
    cases hb : S.buddy.alloc order with
    | error e => rw [hb] at h; cases h
    | ok res => rw [hb] at h; cases h; exact hhand res
  | allocConstrained order maxPhys =>
    simp only [step] at h
    cases hb : S.buddy.allocConstrained order maxPhys with
    | error e => rw [hb] at h; cases h
    | ok res => rw [hb] at h; cases h; exact hhand res
  | free i =>
    simp only [step] at h
    split at h
    · cases h
      rfl
    · rename_i f hf
      cases hb : S.buddy.free f with
      | error e => rw [hb] at h; cases h
      | ok b => rw [hb] at h; cases h; rfl
  | write addr node =>
    simp only [step] at h
    split at h
    · cases h
      rfl
    · cases h
      rfl

theorem run_append (mem : Nat → Node Nat) (acts : List PoolAct) (a : PoolAct) :
    run mem (acts ++ [a]) = run mem acts >>= fun S => S.step a := by
  simp [run, List.foldlM_append]

theorem inv_run (mem : Nat → Node Nat) {acts : List PoolAct} (hr : ∀ r ∈ inserted acts, Rounds r)
    (hapart : (inserted acts).Pairwise Apart) :
    ∃ S L, run mem acts = .ok S ∧ S.Inv L ∧ S.regions = (inserted acts).reverse := by
  induction acts using List.reverseRecOn with
  | nil => exact ⟨init mem, [], rfl, inv_init mem, rfl⟩
  | append_singleton acts a ih =>
    have happ : inserted (acts ++ [a]) = inserted acts ++ inserted [a] := List.filterMap_append ..
    rw [happ] at hr hapart
    obtain ⟨h₁, -, h₂⟩ := List.pairwise_append.mp hapart
    obtain ⟨S, L, hrun, hinv, hreg⟩ := ih (fun r hr' => hr r (List.mem_append_left _ hr')) h₁
    have ha : ∀ {start stop}, a = .insert start stop →
        Rounds (start, stop) ∧ ∀ r ∈ S.regions, Apart (start, stop) r := by
      rintro start stop rfl
      refine ⟨hr _ (List.mem_append_right _ (List.mem_singleton.mpr rfl)), fun r hr' x hx hrx => ?_⟩
      rw [hreg, List.mem_reverse] at hr'
      exact h₂ r hr' _ (List.mem_singleton.mpr rfl) x hrx hx
    obtain ⟨S', L', hstep, hinv', -⟩ := inv_step hinv ha
    refine ⟨S', L', ?_, hinv', ?_⟩
    · rw [run_append, hrun]
      exact hstep
    · rw [step_regions hstep, hreg, happ, List.reverse_append]
      congr 1
      cases a <;> rfl

/-- In every run over disjoint regions no fault occurs, and the blocks partition the
regions' pages. -/
theorem run_partitions_memory (mem : Nat → Node Nat) (acts : List PoolAct)
    (hr : ∀ r ∈ inserted acts, Rounds r) (hapart : (inserted acts).Pairwise Apart) :
    ∃ S linked, run mem acts = .ok S ∧ S.Partitioned linked ∧
      S.regions = (inserted acts).reverse := by
  obtain ⟨S, L, hrun, hinv, hreg⟩ := inv_run mem hr hapart
  exact ⟨S, linkedBlocks L, hrun, hinv.partitioned, hreg⟩

/-- Two regions, one with frame 0; a page and a constrained pair of pages are taken, the
holder of the pair writes where a node stood, and the page is given back. -/
def twoRegions : List PoolAct :=
  [.insert 0 0x6800, .insert 0x400000 0xc00000, .alloc 0, .allocConstrained 1 0x500000,
    .write 0x4000 ⟨7, 9⟩, .free 1, .alloc 10]

theorem twoRegions_partitioned :
    ∃ S linked, run (fun _ => ⟨1, 1⟩) twoRegions = .ok S ∧ S.Partitioned linked ∧
      S.regions = [(0x400000, 0xc00000), (0, 0x6800)] :=
  run_partitions_memory _ twoRegions
    (by
      intro r hr
      simp only [twoRegions, inserted, List.filterMap, List.mem_cons, List.not_mem_nil, or_false]
        at hr
      rcases hr with rfl | rfl <;> exact ⟨by decide, by decide⟩)
    (by
      simp only [twoRegions, inserted, List.filterMap, List.pairwise_cons, List.mem_singleton,
        forall_eq, List.not_mem_nil, false_imp_iff, forall_const, List.Pairwise.nil, and_true]
      intro x h₁ h₂
      simp only [Within] at h₁ h₂
      omega)

end Pool
end VibeOS.Mm
