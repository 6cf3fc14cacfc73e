import VibeOS.Lib.Dyadic
import VibeOS.Mm.BuddyPartition

/-!
The canonical form of the free blocks, over runs of the allocator on one region. Splitting hands out
the low half and joining goes on as long as the buddy is free, so the free blocks are the largest
aligned ones in the free frames, whatever was allocated and freed before. With every token given
back the blocks are those of the region again, and an allocation fails exactly when no aligned run
of its size is free.
-/
namespace VibeOS.Mm
open Lib

namespace Buddy
variable {b b' : Buddy} {L : List Block} {held whole : List (Nat × Nat)} {order base frame : Nat}

/-- A free block: on the list of its order, or a top-order block of a run. -/
def FreeBlock (b : Buddy) (order base : Nat) : Prop :=
  b.inFreeList base order = .ok true ∨
    order = maxOrder ∧ blockSize maxOrder ∣ base ∧ b.inRun base = true

def FreeFrame (b : Buddy) (frame : Nat) : Prop :=
  ∃ order base, b.FreeBlock order base ∧ Within (span (base, order)) (frame * pageSize)

/-- An aligned run of `2 ^ order` free frames. -/
def FreeRun (b : Buddy) (order base : Nat) : Prop :=
  blockSize order ∣ base ∧
    ∀ frame, Within (span (base, order)) (frame * pageSize) → b.FreeFrame frame

/-- The free blocks of order `k`, by number. -/
def Numbered (b : Buddy) (k i : Nat) : Prop := b.FreeBlock k (i * blockSize k)

theorem blockSize_mul (k : Nat) : blockSize k = 2 ^ k * pageSize := by
  rw [blockSize, Nat.shiftLeft_eq, Nat.mul_comm]

theorem within_span_iff {k i f : Nat} :
    Within (span (i * blockSize k, k)) (f * pageSize) ↔ f / 2 ^ k = i := by
  have hpos := Nat.two_pow_pos k
  rw [Nat.div_eq_iff hpos]
  simp only [Within, span, blockSize_mul, ← Nat.mul_assoc, ← Nat.add_mul]
  rw [Nat.mul_le_mul_right_iff (by decide), Nat.mul_lt_mul_right (by decide)]
  omega

section
variable (h : b.Inv L held whole)
include h

theorem Inv.freeBlock_iff :
    b.FreeBlock order base ↔ (∃ x ∈ L, x.order = order ∧ x.base = base) ∨ order = maxOrder ∧
      blockSize maxOrder ∣ base ∧ ∃ r ∈ b.runs, Within r base := by
  unfold FreeBlock
  have hruns : b.inRun base = true ↔ ∃ r ∈ b.runs, Within r base := by
    simp [inRun, Within]
  rw [hruns]
  refine or_congr_left ?_
  by_cases ho : order ≤ maxOrder
  · rw [h.inFreeList_eq ho, ← mem_listOf]
    simp
  · constructor
    · intro hin
      rw [inFreeList, findFree, if_pos (Nat.lt_of_not_le ho)] at hin
      cases hin
    · rintro ⟨x, -, hx, -⟩
      exact absurd (hx ▸ x.order_le) ho

theorem Inv.freeBlock_aligned (hf : b.FreeBlock order base) :
    order ≤ maxOrder ∧ blockSize order ∣ base := by
  rcases h.freeBlock_iff.mp hf with ⟨x, -, rfl, rfl⟩ | ⟨rfl, hd, -⟩
  · exact ⟨x.order_le, x.aligned⟩
  · exact ⟨Nat.le_refl _, hd⟩

theorem Inv.freeBlock_within (hf : b.FreeBlock order base) {p : Nat}
    (hw : Within (span (base, order)) p) :
    (∃ x ∈ L, x.order = order ∧ Within x.range p) ∨
      order = maxOrder ∧ ∃ r ∈ b.runs, Within r p := by
  rcases h.freeBlock_iff.mp hf with ⟨x, hx, rfl, rfl⟩ | ⟨rfl, hd, r, hr, hin⟩
  · exact .inl ⟨x, hx, rfl, hw⟩
  · refine .inr ⟨rfl, r, hr, hin.1.trans hw.1, ?_⟩
    obtain ⟨-, -, hend⟩ := h.runs hr
    have hlt := hin.2
    have hle : base + blockSize maxOrder ≤ r.2 := by
      have := Nat.le_of_dvd (Nat.sub_pos_of_lt hlt) (Nat.dvd_sub hend hd)
      omega
    exact Nat.lt_of_lt_of_le hw.2 hle

theorem Inv.freeFrame_iff :
    b.FreeFrame frame ↔ 0 < cover (L.map Block.range ++ b.runs) (frame * pageSize) := by
  rw [cover_pos]
  constructor
  · rintro ⟨order, base, hf, hw⟩
    rcases h.freeBlock_within hf hw with ⟨x, hx, -, hin⟩ | ⟨-, r, hr, hin⟩
    · exact ⟨x.range, List.mem_append_left _ (List.mem_map_of_mem hx), hin⟩
    · exact ⟨r, List.mem_append_right _ hr, hin⟩
  · rintro ⟨r, hr, hw⟩
    rcases List.mem_append.mp hr with hr | hr
    · obtain ⟨x, hx, rfl⟩ := List.mem_map.mp hr
      exact ⟨x.order, x.base, h.freeBlock_iff.mpr (.inl ⟨x, hx, rfl, rfl⟩), hw⟩
    · have hin : Within (span (frame / 2 ^ maxOrder * blockSize maxOrder, maxOrder))
          (frame * pageSize) := within_span_iff.mpr rfl
      obtain ⟨-, hstart, -⟩ := h.runs hr
      refine ⟨maxOrder, _, h.freeBlock_iff.mpr (.inr ⟨rfl, Nat.dvd_mul_left _ _, r, hr, ?_, ?_⟩),
        hin⟩
      · obtain ⟨m, hm⟩ := hstart
        have hlt : blockSize maxOrder * m < blockSize maxOrder * (frame / 2 ^ maxOrder + 1) := by
          rw [← hm, Nat.mul_succ, Nat.mul_comm (blockSize maxOrder)]
          exact Nat.lt_of_le_of_lt hw.1 hin.2
        have := Nat.lt_of_mul_lt_mul_left hlt
        rw [hm, Nat.mul_comm]
        exact Nat.mul_le_mul_right _ (Nat.le_of_lt_succ this)
      · exact Nat.lt_of_le_of_lt hin.1 hw.2

theorem Inv.coveredBy_iff (frame : Nat) : CoveredBy b.Numbered frame ↔ b.FreeFrame frame := by
  constructor
  · rintro ⟨k, hk⟩
    exact ⟨k, _, hk, within_span_iff.mpr rfl⟩
  · rintro ⟨order, base, hf, hw⟩
    obtain ⟨i, rfl⟩ := (h.freeBlock_aligned hf).2
    rw [Nat.mul_comm] at hf hw
    refine ⟨order, ?_⟩
    rw [within_span_iff.mp hw]
    exact hf

theorem Inv.linked_eq {x y : Block} {p : Nat} (hx : x ∈ L) (hy : y ∈ L) (hxp : Within x.range p)
    (hyp : Within y.range p) : x = y := by
  by_contra hne
  have : Std.Symm fun x y : Block => Apart x.range y.range :=
    ⟨fun _ _ hs p hp hq => hs p hq hp⟩
  exact (List.pairwise_map.mp h.linked_apart).forall hx hy hne p hxp hyp

theorem Inv.merged (hc : b.Canonical) : Merged maxOrder b.Numbered where
  order_le hB := (h.freeBlock_aligned hB).1
  unique {k l x} hB hB' := by
    have hw := h.freeBlock_within hB (within_span_iff (f := x).mpr rfl)
    have hw' := h.freeBlock_within hB' (within_span_iff (f := x).mpr rfl)
    have hmixed : ∀ y ∈ L, ∀ r ∈ b.runs, Within y.range (x * pageSize) →
        ¬ Within r (x * pageSize) := fun y hy r hr =>
      h.tiles.apart h.once (List.mem_map_of_mem hy) (List.mem_append_left _ hr) _
    rcases hw with ⟨y, hy, hyo, hyw⟩ | ⟨hk, r, hr, hrw⟩
    · rcases hw' with ⟨z, hz, hzo, hzw⟩ | ⟨-, r, hr, hrw⟩
      · rw [← hyo, ← hzo, h.linked_eq hy hz hyw hzw]
      · exact absurd hrw (hmixed y hy r hr hyw)
    · rcases hw' with ⟨z, hz, -, hzw⟩ | ⟨hl, -⟩
      · exact absurd hrw (hmixed z hz r hr hzw)
      · rw [hk, hl]
  halves {k i} hlt hlow hhigh := by
    have hlist : ∀ {base}, b.FreeBlock k base → b.inFreeList base k = .ok true := by
      rintro base (hin | ⟨rfl, -⟩)
      · exact hin
      · exact absurd hlt (Nat.lt_irrefl _)
    refine hc k hlt _ (hlist hlow) ?_
    have hxor := xor_two_pow (pageBits + k) (2 * i)
    rw [if_pos (by omega), ← blockSize_eq] at hxor
    rw [Nat.mul_comm (2 * i), hxor, ← Nat.mul_succ, Nat.mul_comm]
    exact hlist hhigh

theorem Inv.freeRun_iff {k i : Nat} :
    b.FreeRun k (i * blockSize k) ↔ WholeBlock (CoveredBy b.Numbered) k i := by
  constructor
  · exact fun hr x hx => (h.coveredBy_iff x).mpr (hr.2 x (within_span_iff.mpr hx))
  · refine fun hw => ⟨Nat.dvd_mul_left _ _, fun x hx => ?_⟩
    exact (h.coveredBy_iff x).mp (hw x (within_span_iff.mp hx))

end

/-- The largest aligned blocks in a set of frames. -/
def Largest (free : Nat → Prop) (order base : Nat) : Prop :=
  order ≤ maxOrder ∧ blockSize order ∣ base ∧
    (∀ frame, Within (span (base, order)) (frame * pageSize) → free frame) ∧
    (order < maxOrder → ¬ ∀ frame, Within
      (span (base / blockSize (order + 1) * blockSize (order + 1), order + 1)) (frame * pageSize) →
      free frame)

theorem Inv.freeBlock_iff_largest (h : b.Inv L held whole) (hc : b.Canonical) :
    b.FreeBlock order base ↔ Largest b.FreeFrame order base := by
  have hcover : CoveredBy b.Numbered = b.FreeFrame :=
    funext fun x => propext (h.coveredBy_iff x)
  have hnum : ∀ i, b.FreeBlock order (i * blockSize order) ↔
      Largest b.FreeFrame order (i * blockSize order) := by
    intro i
    have hhalf : i * blockSize order / blockSize (order + 1) = i / 2 := by
      rw [blockSize_succ, ← Nat.mul_two, Nat.mul_comm i, Nat.mul_div_mul_left _ _ (blockSize_pos _)]
    refine (h.merged hc).mem_iff.trans ?_
    simp only [Largest, hhalf, hcover, WholeBlock, within_span_iff, Nat.dvd_mul_left, true_and]
  constructor
  · intro hf
    obtain ⟨i, rfl⟩ := (h.freeBlock_aligned hf).2
    rw [Nat.mul_comm] at hf ⊢
    exact (hnum i).mp hf
  · intro hl
    obtain ⟨i, rfl⟩ := hl.2.1
    rw [Nat.mul_comm] at hl ⊢
    exact (hnum i).mpr hl

theorem Inv.served_none (h : b.Inv L held whole) (hc : b.Canonical) {fits : Nat → Bool}
    (hmono : ∀ {x y}, x ≤ y → fits y = true → fits x = true) (ho : order ≤ maxOrder)
    (hs : Served b L fits order none) (hr : b.FreeRun order base) : fits base = false := by
  obtain ⟨hlists, hruns⟩ := hs.resolve_left (Nat.not_lt_of_le ho)
  obtain ⟨i, rfl⟩ := hr.1
  rw [Nat.mul_comm] at hr ⊢
  obtain ⟨l, hl, hB⟩ := (h.merged hc).exists_block ho (h.freeRun_iff.mp hr)
  have hle : i * 2 ^ order / 2 ^ l * blockSize l ≤ i * blockSize order := by
    rw [blockSize_mul, blockSize_mul, ← Nat.mul_assoc, ← Nat.mul_assoc]
    exact Nat.mul_le_mul_right _ (Nat.div_mul_le_self _ _)
  rw [← Bool.not_eq_true]
  intro hfit
  rcases h.freeBlock_iff.mp hB with ⟨x, hx, hxo, hxb⟩ | ⟨-, -, r, hrun, hin⟩
  · have := hlists x hx (hxo ▸ hl)
    rw [hxb, hmono hle hfit] at this
    cases this
  · have := hruns r hrun
    rw [hmono (hin.1.trans hle) hfit] at this
    cases this

theorem Inv.took_some (h : b.Inv L held whole) {addr : Nat}
    (ht : Took b held whole order (some (addr, b'))) : b.FreeRun order addr := by
  obtain ⟨L', blk, rfl, rfl, h', -⟩ := ht
  refine ⟨blk.aligned, fun frame hw => h.freeFrame_iff.mpr ?_⟩
  have hbefore := h.tiles (frame * pageSize)
  have hafter := h'.tiles (frame * pageSize)
  have honce := h.once (frame * pageSize)
  have hblk : Within blk.range (frame * pageSize) := hw
  simp only [cover_append, cover_cons, if_pos hblk] at hbefore hafter ⊢
  omega

theorem Inv.canonical_of_packed (h : b.Inv L held whole) {stop : Nat} (hp : Packed L stop)
    (hstop : ∀ w ∈ whole, w.2 ≤ stop) : b.Canonical := by
  have hends : ∀ x ∈ L, x.base + blockSize x.order ≤ stop := by
    intro x hx
    have hpos := blockSize_pos x.order
    obtain ⟨w, hw, hin⟩ := h.tiles.within (List.mem_append_left _ (List.mem_map_of_mem hx))
      (x := x.base + blockSize x.order - 1) (by simp only [Within, Block.range]; omega)
    have hle := hstop w hw
    have hlt := hin.2
    omega
  rw [h.canonical_iff]
  intro x hx hlt hm
  obtain ⟨y, hy, ho, hb⟩ := mem_listOf.mp hm
  obtain ⟨n, hn⟩ := x.aligned
  have hxor := xor_two_pow (pageBits + x.order) n
  rw [← blockSize_eq, ← hn, ← hb] at hxor
  have hsize := blockSize_succ x.order
  have hendx := hends x hx
  have hendy := hends y hy
  rw [ho] at hendy
  have hdvd : ∀ m, blockSize (x.order + 1) ∣ blockSize x.order * (2 * m) := by
    intro m
    rw [hsize, ← Nat.mul_two, ← Nat.mul_assoc]
    exact Nat.dvd_mul_right _ _
  by_cases he : n % 2 = 0
  · -- `x` is the lower half of the pair
    rw [if_pos he] at hxor
    have hlow : blockSize (x.order + 1) ∣ x.base := by
      rw [hn, show n = 2 * (n / 2) by omega]
      exact hdvd _
    have := hp x hx hlt hlow
    omega
  · rw [if_neg he] at hxor
    have hge : blockSize x.order ≤ x.base := by
      rw [hn]
      exact Nat.le_mul_of_pos_right _ (by omega)
    have hlow : blockSize (y.order + 1) ∣ y.base := by
      rw [hxor, ho, hn, show n = 2 * (n / 2) + 1 by omega, Nat.mul_succ, Nat.add_sub_cancel]
      exact hdvd _
    have := hp y hy (ho ▸ hlt) hlow
    rw [ho] at this
    omega

theorem Inv.freeRun_end (h : b.Inv L held whole) {order base : Nat} (hr : b.FreeRun order base) :
    base + blockSize order < 2 ^ 64 := by
  obtain ⟨i, rfl⟩ := hr.1
  rw [Nat.mul_comm] at hr ⊢
  have hpos := Nat.two_pow_pos order
  -- the last frame of the run
  have hlast : (i * 2 ^ order + (2 ^ order - 1)) / 2 ^ order = i := by
    rw [Nat.mul_comm, Nat.mul_add_div hpos, Nat.div_eq_of_lt (by omega), Nat.add_zero]
  have hfree := h.freeFrame_iff.mp (hr.2 _ (within_span_iff.mpr hlast))
  have hwhole : 0 < cover whole ((i * 2 ^ order + (2 ^ order - 1)) * pageSize) := by
    rw [← h.tiles]
    simp only [cover_append] at hfree ⊢
    omega
  obtain ⟨w, hw, hin⟩ := cover_pos.mp hwhole
  have hlt := (h.bounds hw hin).2.1
  have hstop : i * blockSize order + blockSize order =
      (i * 2 ^ order + (2 ^ order - 1)) * pageSize + pageSize := by
    have hframes : i * 2 ^ order + 2 ^ order = i * 2 ^ order + (2 ^ order - 1) + 1 := by
      rw [Nat.add_assoc, Nat.sub_add_cancel hpos]
    rw [blockSize_mul, ← Nat.mul_assoc, ← Nat.add_mul, hframes, Nat.succ_mul]
  rw [hstop]
  generalize (i * 2 ^ order + (2 ^ order - 1)) * pageSize = x at hlt
  rw [pageSize] at hlt ⊢
  omega

end Buddy

namespace Pool
variable {S : Pool} {L : List Block}

theorem canonical_insert (mem : Nat → Node Nat) {start stop : Nat} (hr : Rounds (start, stop)) :
    ∃ S L, (init mem).step (.insert start stop) = .ok S ∧ S.Inv L ∧ S.buddy.Canonical ∧
      S.regions = [(start, stop)] ∧ S.tokens = [] ∧
      (Buddy.new mem).insertRegion start stop = .ok S.buddy := by
  obtain ⟨b, L, hb, hinv, htot, hpacked⟩ :=
    (Buddy.inv_new mem).insertRegion hr fun w hw => absurd hw (List.not_mem_nil)
  have hstep : (init mem).step (.insert start stop) = .ok ⟨b, [], [(start, stop)]⟩ := by
    simp only [step, init, hb]
    rfl
  refine ⟨⟨b, [], [(start, stop)]⟩, L, hstep,
    ⟨hinv, (fun _ he => (List.not_mem_nil he).elim), ?_, ?_⟩, ?_, rfl, rfl, hb⟩
  · rw [htot]
    simp [Buddy.new]
  · simpa using hr
  · refine hinv.canonical_of_packed (hpacked (fun _ he => (List.not_mem_nil he).elim)) ?_
    simp

theorem canonical_calls (h : S.Inv L) (hc : S.buddy.Canonical) {acts : List PoolAct}
    (hacts : inserted acts = []) :
    ∃ S' L', acts.foldlM step S = .ok S' ∧ S'.Inv L' ∧ S'.buddy.Canonical ∧
      S'.regions = S.regions := by
  induction acts generalizing S L with
  | nil => exact ⟨S, L, rfl, h, hc, rfl⟩
  | cons a acts ih =>
    have hne : ∀ start stop, a ≠ .insert start stop := by
      rintro start stop rfl
      cases hacts
    have hrest : inserted acts = [] := by
      cases a with
      | insert start stop => cases hacts
      | _ => exact hacts
    obtain ⟨S₁, L₁, hstep, h₁, hc₁⟩ :=
      inv_step h (a := a) fun {start stop} he => absurd he (hne start stop)
    obtain ⟨S₂, L₂, hrun, h₂, hc₂, hreg⟩ := ih h₁ (hc₁ hne hc) hrest
    refine ⟨S₂, L₂, ?_, h₂, hc₂, hreg.trans ?_⟩
    · rw [List.foldlM_cons, hstep]
      exact hrun
    · rw [step_regions hstep]
      cases a with
      | insert start stop => exact absurd rfl (hne start stop)
      | _ => rfl

theorem Inv.freeFrame_iff (h : S.Inv L) {frame : Nat} : S.buddy.FreeFrame frame ↔
    0 < cover (S.regions.map interior) (frame * pageSize) ∧
      cover (S.tokens.map Frames.range) (frame * pageSize) = 0 := by
  have htiles := h.buddy.tiles (frame * pageSize)
  have honce := h.buddy.once (frame * pageSize)
  rw [h.buddy.freeFrame_iff]
  simp only [cover_append] at htiles ⊢
  omega

theorem Inv.alloc_none_iff (h : S.Inv L) (hc : S.buddy.Canonical) {order : Nat}
    (ho : order ≤ maxOrder) :
    ∃ res, S.buddy.alloc order = .ok res ∧
      (res = none ↔ ¬ ∃ base, S.buddy.FreeRun order base) := by
  obtain ⟨res, hres, htook, hserved⟩ := h.buddy.takeBlock order
  refine ⟨_, by rw [Buddy.alloc, hres]; rfl, ?_⟩
  cases res with
  | none =>
    refine iff_of_true rfl ?_
    rintro ⟨base, hr⟩
    have hnone : (fun _ : Nat => true) base = false :=
      h.buddy.served_none hc (fun _ _ => rfl) ho hserved hr
    cases hnone
  | some p =>
    refine iff_of_false (fun he => by cases he) fun hn => hn ⟨p.1, ?_⟩
    exact h.buddy.took_some htook

theorem Inv.allocConstrained_none_iff (h : S.Inv L) (hc : S.buddy.Canonical) {order : Nat}
    (ho : order ≤ maxOrder) (maxPhys : Nat) :
    ∃ res, S.buddy.allocConstrained order maxPhys = .ok res ∧
      (res = none ↔ ¬ ∃ base, S.buddy.FreeRun order base ∧ base + blockSize order ≤ maxPhys) := by
  obtain ⟨res, hres, htook, hserved⟩ := h.buddy.allocConstrained order maxPhys
  refine ⟨_, hres, ?_⟩
  cases res with
  | none =>
    refine iff_of_true rfl ?_
    rintro ⟨base, hr, hle⟩
    have hend := h.buddy.freeRun_end hr
    have hnone := h.buddy.served_none hc (fun hxy hf => ?_) ho hserved hr
    · simp only [Bool.and_eq_false_iff, decide_eq_false_iff_not] at hnone
      omega
    · simp only [Bool.and_eq_true, decide_eq_true_eq] at hf ⊢
      omega
  | some p =>
    refine iff_of_false (by nofun) fun hn => hn ⟨p.1, h.buddy.took_some htook, ?_⟩
    have hfit := hserved.1
    simp only [Bool.and_eq_true, decide_eq_true_eq] at hfit
    exact hfit.2

theorem rounds_of_insert {mem : Nat → Node Nat} {start stop : Nat} {b : Buddy}
    (hb : (Buddy.new mem).insertRegion start stop = .ok b) (hstop : stop < 2 ^ 64) :
    Rounds (start, stop) := by
  refine ⟨Nat.lt_of_not_le fun hover => ?_, hstop⟩
  rw [Buddy.insertRegion] at hb
  simp only [if_pos hover] at hb
  cases hb

theorem alloc_above_top (b : Buddy) {order : Nat} (ho : maxOrder < order) :
    b.alloc order = .ok none ∧ ∀ maxPhys, b.allocConstrained order maxPhys = .ok none := by
  constructor
  · rw [Buddy.alloc, Buddy.takeBlock, if_pos ho]
    rfl
  · intro maxPhys
    rw [Buddy.allocConstrained, if_pos ho]

/-- The free blocks after any calls over one region: canonical, determined by the free frames,
restored when every token is back, and enough for every allocation that some aligned run of free
frames could serve. No order above the top is served. -/
theorem free_blocks_canonical (mem : Nat → Node Nat) {start stop : Nat} (hstop : stop < 2 ^ 64)
    {b₀ : Buddy} (hb₀ : (Buddy.new mem).insertRegion start stop = .ok b₀) (acts : List PoolAct)
    (hacts : inserted acts = []) :
    ∃ S, run mem (.insert start stop :: acts) = .ok S ∧
      (∀ order < maxOrder, ∀ base, S.buddy.FreeBlock order base →
        ¬ S.buddy.FreeBlock order (base ^^^ blockSize order)) ∧
      (∀ order base, S.buddy.FreeBlock order base ↔
        Buddy.Largest S.buddy.FreeFrame order base) ∧
      (S.tokens = [] → ∀ order base, S.buddy.FreeBlock order base ↔ b₀.FreeBlock order base) ∧
      (∀ order ≤ maxOrder, ∃ res, S.buddy.alloc order = .ok res ∧
        (res = none ↔ ¬ ∃ base, S.buddy.FreeRun order base)) ∧
      (∀ order ≤ maxOrder, ∀ maxPhys, ∃ res, S.buddy.allocConstrained order maxPhys = .ok res ∧
        (res = none ↔
          ¬ ∃ base, S.buddy.FreeRun order base ∧ base + blockSize order ≤ maxPhys)) ∧
      ∀ order > maxOrder, S.buddy.alloc order = .ok none ∧
        ∀ maxPhys, S.buddy.allocConstrained order maxPhys = .ok none := by
  obtain ⟨S₀, L₀, hstep, h₀, hc₀, hreg₀, htok₀, hins⟩ :=
    canonical_insert mem (rounds_of_insert hb₀ hstop)
  obtain rfl : S₀.buddy = b₀ := Except.ok.inj (hins.symm.trans hb₀)
  obtain ⟨S, L, hrun, h, hc, hreg⟩ := canonical_calls h₀ hc₀ hacts
  refine ⟨S, ?_, fun order hlt base hf hb => ?_, fun order base => h.buddy.freeBlock_iff_largest hc,
    fun htok order base => ?_, fun order ho => h.alloc_none_iff hc ho,
    fun order ho maxPhys => h.allocConstrained_none_iff hc ho maxPhys,
    fun order ho => alloc_above_top S.buddy ho⟩
  · rw [run, List.foldlM_cons, hstep]
    exact hrun
  · have hlist : ∀ {base}, S.buddy.FreeBlock order base →
        S.buddy.inFreeList base order = .ok true := by
      rintro base (hin | ⟨rfl, -⟩)
      · exact hin
      · exact absurd hlt (Nat.lt_irrefl _)
    exact hc order hlt base (hlist hf) (hlist hb)
  · have hframes : S.buddy.FreeFrame = S₀.buddy.FreeFrame := by
      funext frame
      rw [h.freeFrame_iff, h₀.freeFrame_iff, hreg, htok, htok₀]
    rw [h.buddy.freeBlock_iff_largest hc, h₀.buddy.freeBlock_iff_largest hc₀, hframes]

/-- A page and a pair of pages are taken from a region and given back in the order they were
taken. -/
theorem free_blocks_canonical_returned :
    ∃ b₀ S, (Buddy.new fun _ => ⟨1, 1⟩).insertRegion 0 0x6800 = .ok b₀ ∧
      run (fun _ => ⟨1, 1⟩) [.insert 0 0x6800, .alloc 0, .allocConstrained 1 0x5000, .free 1,
        .free 0] = .ok S ∧
      ∀ order < maxOrder, ∀ base, S.buddy.FreeBlock order base →
        ¬ S.buddy.FreeBlock order (base ^^^ blockSize order) := by
  have hr : Rounds (0, 0x6800) := ⟨by decide, by decide⟩
  obtain ⟨S₀, -, -, -, -, -, -, hins⟩ := canonical_insert (fun _ => ⟨1, 1⟩) hr
  obtain ⟨S, hrun, hcanon, -⟩ := free_blocks_canonical _ (by decide) hins
    [.alloc 0, .allocConstrained 1 0x5000, .free 1, .free 0] rfl
  exact ⟨S₀.buddy, S, hins, hrun, hcanon⟩

/-- An order above the top is refused even when twice a top-order block is free. -/
theorem alloc_above_top_none :
    ∃ S, run (fun _ => ⟨0, 0⟩) [.insert 0x800000 0x1000000] = .ok S ∧
      S.buddy.alloc 11 = .ok none ∧ S.buddy.FreeRun 11 0x800000 := by
  have hr : Rounds (0x800000, 0x1000000) := ⟨by decide, by decide⟩
  obtain ⟨S, L, hstep, h, -, hreg, htok, -⟩ := canonical_insert (fun _ => ⟨0, 0⟩) hr
  refine ⟨S, ?_, (alloc_above_top _ (by decide)).1, by decide, fun frame hw => ?_⟩
  · rw [run, List.foldlM_cons, hstep]
    rfl
  · rw [h.freeFrame_iff, hreg, htok, List.map_singleton, cover_pos]
    refine ⟨⟨_, List.mem_singleton.mpr rfl, ?_⟩, rfl⟩
    rw [within_interior hr, Nat.mul_div_cancel _ (by decide)]
    simp only [Within, span, blockSize, pageSize] at hw ⊢
    omega

end Pool
end VibeOS.Mm
