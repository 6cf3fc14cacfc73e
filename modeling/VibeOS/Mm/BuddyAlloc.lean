import VibeOS.Mm.BuddyInvariant

/-!
Taking blocks out of the allocator: from a list, or from either end of a run, then
split down to the order asked for.
-/
namespace VibeOS.Mm
open Lib

namespace Block

def low (blk : Block) (k : Nat) (h : blk.order = k + 1) : Block where
  base := blk.base
  order := k
  order_le := by
    have := blk.order_le
    omega
  aligned := (blockSize_dvd (by omega)).trans blk.aligned
  pos := blk.pos

def high (blk : Block) (k : Nat) (h : blk.order = k + 1) : Block where
  base := blk.base + blockSize k
  order := k
  order_le := (blk.low k h).order_le
  aligned := Nat.dvd_add (blk.low k h).aligned (Nat.dvd_refl _)
  pos := Nat.add_pos_left blk.pos _

theorem tiles_halves (blk : Block) (k : Nat) (h : blk.order = k + 1)
    (held : List (Nat × Nat)) :
    Tiles ((blk.high k h).range :: (blk.low k h).range :: held) (blk.range :: held) := by
  intro x
  have hsplit := (tiles_split (l := held) (w := blk.range :: held)
    (Nat.le_add_right blk.base (blockSize k))
    (Nat.le_add_right (blk.base + blockSize k) (blockSize k))).mpr
    (by rw [range, h, blockSize_succ, Nat.add_assoc]; exact fun _ => rfl)
  rw [← hsplit x]
  exact cover_perm (List.Perm.swap ..) x

theorem high_xor (blk : Block) (k : Nat) (h : blk.order = k + 1) :
    (blk.high k h).base ^^^ blockSize (blk.high k h).order = blk.base := by
  obtain ⟨n, hn⟩ := blk.aligned
  rw [h, blockSize_succ, ← Nat.mul_two, Nat.mul_assoc] at hn
  have hxor := xor_two_pow (pageBits + k) (2 * n + 1)
  rw [if_neg (by omega), ← blockSize_eq, Nat.mul_succ, Nat.add_sub_cancel, ← hn] at hxor
  exact hxor

end Block

theorem topBlocks_cons (r : Nat × Nat) (runs : List (Nat × Nat)) :
    topBlocks (r :: runs) = (r.2 - r.1) / blockSize maxOrder + topBlocks runs := by
  simp [topBlocks]

theorem topBlocks_perm {runs runs' : List (Nat × Nat)} (h : runs.Perm runs') :
    topBlocks runs = topBlocks runs' :=
  (h.map _).sum_eq

namespace Buddy
variable {b b' : Buddy} {L : List Block} {blk : Block} {held whole : List (Nat × Nat)}

theorem Inv.splitDown {k target : Nat} (h : b.Inv L (blk.range :: held) whole)
    (hk : blk.order = k) (ht : target ≤ k) :
    ∃ (b' : Buddy) (L' : List Block) (blk' : Block), b.splitDown blk.base target k = .ok b' ∧
      blk'.base = blk.base ∧
      blk'.order = target ∧ b'.Inv L' (blk'.range :: held) whole ∧
      b'.totalFrames = b.totalFrames ∧
      ∀ x ∈ L', x ∈ L ∨ x.base ^^^ blockSize x.order = blk.base := by
  induction k generalizing b L blk with
  | zero =>
    obtain rfl := Nat.le_zero.mp ht
    exact ⟨b, L, blk, rfl, rfl, hk, h, rfl, fun _ => .inl⟩
  | succ k ih =>
    by_cases hle : target ≤ k
    · have h' := h.rehold (blk.tiles_halves k hk held)
      have hlt : (blk.high k hk).base < 2 ^ 64 := by
        have := h'.held_bounded (List.mem_cons_self ..) (blk.high k hk).range_nonempty
        have := (blk.high k hk).range_nonempty
        simp only [Block.range, pageSize] at *
        omega
      obtain ⟨b₁, hb₁, hinv₁, htot₁⟩ := h'.pushFree
      obtain ⟨b₂, L₂, blk₂, hb₂, hbase, ho, hinv₂, htot₂, hsub⟩ := ih hinv₁ rfl hle
      have hnew : ∀ x ∈ L₂, x ∈ L ∨ x.base ^^^ blockSize x.order = blk.base := by
        intro x hx
        rcases hsub x hx with hx | hx
        · rcases List.mem_cons.mp hx with rfl | hx
          · exact .inr (blk.high_xor k hk)
          · exact .inl hx
        · exact .inr hx
      refine ⟨b₂, L₂, blk₂, ?_, hbase, ho, hinv₂, htot₂.trans htot₁, hnew⟩
      have hpush : b.pushFree (blk.base + blockSize k) k = .ok b₁ := hb₁
      have hlt' : ¬ 2 ^ 64 ≤ blk.base + blockSize k := Nat.not_le_of_lt hlt
      rw [Buddy.splitDown, if_pos hle]
      simp only [if_neg hlt', hpush]
      exact hb₂
    · obtain rfl : target = k + 1 := by omega
      refine ⟨b, L, blk, ?_, rfl, hk, h, rfl, fun _ => .inl⟩
      rw [Buddy.splitDown, if_neg hle]

/-- Splitting a block of a canonical allocator leaves it canonical: the buddy of each piece that
is linked holds the one handed out. -/
theorem Inv.canonical_split {L' : List Block} {held' : List (Nat × Nat)} (h : b.Inv L held whole)
    (h' : b'.Inv L' (blk.range :: held') whole)
    (hsub : ∀ x ∈ L', x ∈ L ∨ x.base ^^^ blockSize x.order = blk.base) (hc : b.Canonical) :
    b'.Canonical := by
  rw [h.canonical_iff] at hc
  rw [h'.canonical_iff]
  have hheld : ∀ x ∈ L', x.base ≠ blk.base := fun x hx he =>
    h'.linked_apart_held hx (List.mem_cons_self ..) _ x.within_base (he ▸ blk.within_base)
  intro x hx hlt hm
  obtain ⟨y, hy, ho, hb⟩ := mem_listOf.mp hm
  rcases hsub x hx with hx' | hx'
  · rcases hsub y hy with hy' | hy'
    · exact hc x hx' hlt (mem_listOf.mpr ⟨y, hy', ho, hb⟩)
    · rw [hb, ho, Nat.xor_assoc, Nat.xor_self, Nat.xor_zero] at hy'
      exact hheld x hx hy'
  · exact hheld y hy (hb.trans hx')

theorem run_parts {top start stop addr : Nat} (htop : 0 < top) (hlt : start < stop)
    (hstart : top ∣ start) (hstop : top ∣ stop) (hend : addr = start ∨ addr = stop - top)
    {rest : Nat × Nat}
    (hrest : rest = if addr = start then (start + top, stop) else (start, stop - top)) :
    top ∣ addr ∧ start ≤ addr ∧ top ∣ rest.1 ∧ top ∣ rest.2 ∧
      (stop - start) / top = (rest.2 - rest.1) / top + 1 ∧
      ∀ l, Tiles (rest :: (addr, addr + top) :: l) ((start, stop) :: l) := by
  have hlen : start + top ≤ stop := by
    have := Nat.le_of_dvd (by omega) (Nat.dvd_sub hstop hstart)
    omega
  have hdiv : (stop - start) / top = (stop - start - top) / top + 1 := by
    rw [← Nat.add_div_right _ htop]
    congr 1
    omega
  by_cases e : addr = start
  · subst e
    rw [if_pos rfl] at hrest
    subst hrest
    refine ⟨hstart, Nat.le_refl _, Nat.dvd_add hstart (Nat.dvd_refl _), hstop, ?_, fun l => ?_⟩
    · rw [hdiv, Nat.sub_sub]
    · have := (tiles_split (l := l) (w := (addr, stop) :: l) (Nat.le_add_right addr _)
        hlen).mpr fun _ => rfl
      exact this.perm (List.Perm.swap ..)
  · rw [if_neg e] at hrest
    obtain rfl := hend.resolve_left e
    subst hrest
    have hsub : top ∣ stop - top := Nat.dvd_sub hstop (Nat.dvd_refl _)
    refine ⟨hsub, by omega, hstart, hsub, ?_, fun l => ?_⟩
    · rw [hdiv, Nat.sub_right_comm]
    · have := (tiles_split (l := l) (w := (start, stop) :: l)
        (show start ≤ stop - top by omega) (Nat.sub_le _ _)).mpr fun _ => rfl
      rw [Nat.sub_add_cancel (by omega)]
      exact this

/-- A run at index `i` replaced by what is left of it. -/
def cutRun (runs : List (Nat × Nat)) (i : Nat) (rest : Nat × Nat) : List (Nat × Nat) :=
  if rest.1 < rest.2 then runs.set i rest else runs.eraseIdx i

theorem perm_eraseIdx {α : Type} {l : List α} {i : Nat} {x : α} (h : l[i]? = some x) :
    l.Perm (x :: l.eraseIdx i) := by
  obtain ⟨hi, rfl⟩ := List.getElem?_eq_some_iff.mp h
  exact (List.getElem_cons_eraseIdx_perm hi).symm

theorem cutRun_spec {runs : List (Nat × Nat)} {i : Nat} {r : Nat × Nat} (rest : Nat × Nat)
    (h : runs[i]? = some r) :
    (∀ x ∈ cutRun runs i rest, x ∈ runs ∨ x = rest ∧ rest.1 < rest.2) ∧
      topBlocks (cutRun runs i rest) = topBlocks (rest :: runs.eraseIdx i) ∧
      Tiles (cutRun runs i rest) (rest :: runs.eraseIdx i) := by
  obtain ⟨hi, -⟩ := List.getElem?_eq_some_iff.mp h
  unfold cutRun
  split
  · rename_i hlt
    have hp : (runs.set i rest).Perm (rest :: runs.eraseIdx i) := by
      have := perm_eraseIdx (l := runs.set i rest) (List.getElem?_set_self hi)
      rwa [List.eraseIdx_set_eq] at this
    refine ⟨fun x hx => ?_, topBlocks_perm hp, fun x => cover_perm hp x⟩
    rcases List.mem_or_eq_of_mem_set hx with hx | rfl
    · exact .inl hx
    · exact .inr ⟨rfl, hlt⟩
  · rename_i hge
    have hge' : rest.2 ≤ rest.1 := Nat.le_of_not_lt hge
    refine ⟨fun x hx => .inl (List.mem_of_mem_eraseIdx hx), ?_, fun x => ?_⟩
    · rw [topBlocks_cons, Nat.sub_eq_zero_of_le hge', Nat.zero_div, Nat.zero_add]
    · rw [cover_cons, if_neg, Nat.add_zero]
      rintro ⟨h₁, h₂⟩
      omega

theorem Inv.cutRun {i start stop addr : Nat} (h : b.Inv L held whole)
    (hi : b.runs[i]? = some (start, stop))
    (hend : addr = start ∨ addr = stop - blockSize maxOrder) {rest : Nat × Nat}
    (hrest : rest = if addr = start then (start + blockSize maxOrder, stop)
      else (start, stop - blockSize maxOrder)) :
    ∃ (b' : Buddy) (blk : Block),
      { b with runs := Buddy.cutRun b.runs i rest }.uncount maxOrder = .ok b' ∧
        blk.base = addr ∧ blk.order = maxOrder ∧ b'.Inv L (blk.range :: held) whole ∧
        b'.totalFrames = b.totalFrames := by
  have hmem : (start, stop) ∈ b.runs := List.mem_of_getElem? hi
  obtain ⟨hlt, hstart, hstop⟩ := h.runs hmem
  obtain ⟨haddr, hle, hr₁, hr₂, hdiv, htiles⟩ :=
    run_parts (blockSize_pos maxOrder) hlt hstart hstop hend hrest
  obtain ⟨hruns, hblocks, hcover⟩ := cutRun_spec rest hi
  have hpos : pageSize ≤ start :=
    (h.bounded (List.mem_append_right _ (List.mem_append_left _ hmem)) hlt).1
  have htop : topBlocks b.runs = topBlocks (Buddy.cutRun b.runs i rest) + 1 := by
    rw [topBlocks_perm (perm_eraseIdx hi), hblocks, topBlocks_cons, topBlocks_cons, hdiv]
    omega
  have hcount := h.counts (Nat.le_refl maxOrder)
  rw [if_pos rfl, htop] at hcount
  have hfree := h.freeFrames
  rw [htop, Nat.succ_mul] at hfree
  have haddr_pos : 0 < addr := Nat.lt_of_lt_of_le (by decide) (Nat.le_trans hpos hle)
  refine ⟨{ b with
    runs := Buddy.cutRun b.runs i rest
    counts := Function.update b.counts maxOrder (b.counts maxOrder - 1)
    freeFrames := b.freeFrames - 2 ^ maxOrder },
    ⟨addr, maxOrder, Nat.le_refl _, haddr, haddr_pos⟩, ?_, rfl, rfl, ?_, rfl⟩
  · rw [uncount, if_neg]
    simp only [not_or]
    constructor <;> omega
  constructor
  · exact h.lists
  · intro r hr
    rcases hruns r hr with hr | ⟨rfl, hlt⟩
    · exact h.runs hr
    · exact ⟨hlt, hr₁, hr₂⟩
  · intro k hk
    by_cases e : k = maxOrder
    · subst e
      simp only [Function.update_self, if_pos, hcount]
      omega
    · simp only [Function.update_of_ne e, h.counts hk, if_neg e]
  · simp only [hfree]
    omega
  · intro x
    have h₁ := htiles held x
    have h₂ := cover_perm (perm_eraseIdx hi) x
    have h₃ := hcover x
    rw [← h.tiles x]
    simp only [cover_append, cover_cons, Block.range] at h₁ h₂ h₃ ⊢
    omega
  · exact h.once
  · exact h.bounds

theorem Inv.takeRunFrom (h : b.Inv L held whole) (pick : Nat → Nat → Option Nat)
    (hpick : ∀ {start stop addr}, pick start stop = some addr →
      addr = start ∨ addr = stop - blockSize maxOrder) (i : Nat) :
    (b.takeRunFrom pick i = .ok none ∧
        ∀ j < i, ∀ r, b.runs[j]? = some r → pick r.1 r.2 = none) ∨
      ∃ (b' : Buddy) (blk : Block), b.takeRunFrom pick i = .ok (some (blk.base, b')) ∧
        blk.order = maxOrder ∧ b'.Inv L (blk.range :: held) whole ∧
        b'.totalFrames = b.totalFrames ∧ ∃ start stop, pick start stop = some blk.base := by
  induction i with
  | zero => exact .inl ⟨rfl, fun j hj => absurd hj (Nat.not_lt_zero j)⟩
  | succ i ih =>
    rw [Buddy.takeRunFrom]
    cases hi : b.runs[i]? with
    | none =>
      refine ih.imp_left fun ⟨hnone, hpicks⟩ => ⟨hnone, fun j hj r hr => ?_⟩
      rcases Nat.lt_succ_iff_lt_or_eq.mp hj with hlt | rfl
      · exact hpicks j hlt r hr
      · rw [hi] at hr
        cases hr
    | some r =>
      obtain ⟨start, stop⟩ := r
      cases hp : pick start stop with
      | none =>
        simp only [hp]
        refine ih.imp_left fun ⟨hnone, hpicks⟩ => ⟨hnone, fun j hj r hr => ?_⟩
        rcases Nat.lt_succ_iff_lt_or_eq.mp hj with hlt | rfl
        · exact hpicks j hlt r hr
        · rw [hi] at hr
          cases hr
          exact hp
      | some addr =>
        simp only [hp]
        have hend := hpick hp
        obtain ⟨b', blk, hb', rfl, ho, hinv, htot⟩ := h.cutRun hi hend rfl
        have hnot : ¬ (blk.base ≠ start ∧ blk.base ≠ stop - blockSize maxOrder) := by
          omega
        refine .inr ⟨b', blk, ?_, ho, hinv, htot, start, stop, hp⟩
        unfold Buddy.cutRun at hb'
        rw [if_neg hnot, hb']
        rfl

theorem skipEmpty_spec (b : Buddy) {k : Nat} (hk : k ≤ maxOrder) :
    k ≤ b.skipEmpty k ∧ b.skipEmpty k ≤ maxOrder ∧
      (b.heads (b.skipEmpty k) = null → b.skipEmpty k = maxOrder) ∧
      ∀ j, k ≤ j → j < b.skipEmpty k → b.heads j = null := by
  fun_induction skipEmpty b k with
  | case1 k hc ih =>
    obtain ⟨h₁, h₂, h₃, h₄⟩ := ih hc.1
    refine ⟨Nat.le_of_succ_le h₁, h₂, h₃, fun j hkj hj => ?_⟩
    rcases Nat.lt_or_eq_of_le hkj with hlt | rfl
    · exact h₄ j hlt hj
    · exact hc.2
  | case2 k hc =>
    refine ⟨Nat.le_refl _, hk, fun hn => ?_, fun j hkj hj => absurd hj (Nat.not_lt_of_le hkj)⟩
    by_contra hne
    exact hc ⟨by omega, hn⟩

/-- What an allocation of `order` returns: nothing, or a block now held outside. -/
def Took (b : Buddy) (held whole : List (Nat × Nat)) (order : Nat) :
    Option (Nat × Buddy) → Prop
  | none => True
  | some (addr, b') => ∃ (L' : List Block) (blk : Block), blk.base = addr ∧ blk.order = order ∧
      b'.Inv L' (blk.range :: held) whole ∧ b'.totalFrames = b.totalFrames

/-- An allocation of `target` finds nothing only when no free block from that order on starts
where it may; otherwise it takes its block from where one may start, and leaves no new pair of
free buddies. -/
def Served (b : Buddy) (L : List Block) (fits : Nat → Bool) (target : Nat) :
    Option (Nat × Buddy) → Prop
  | none => maxOrder < target ∨
      (∀ x ∈ L, target ≤ x.order → fits x.base = false) ∧ ∀ r ∈ b.runs, fits r.1 = false
  | some (addr, b') => fits addr = true ∧ (b.Canonical → b'.Canonical)

theorem Inv.takeBlock (h : b.Inv L held whole) (target : Nat) :
    ∃ res, b.takeBlock target = .ok res ∧ Took b held whole target res ∧
      Served b L (fun _ => true) target res := by
  unfold Buddy.takeBlock
  by_cases ht : maxOrder < target
  · exact ⟨none, if_pos ht, trivial, .inl ht⟩
  rw [if_neg ht]
  obtain ⟨hle, hmax, hnull, hskip⟩ := b.skipEmpty_spec (Nat.le_of_not_lt ht)
  by_cases hhead : b.heads (b.skipEmpty target) = null
  · have hk := hnull hhead
    simp only [hhead, ne_eq, not_true_eq_false, if_false, takeRunBlock]
    rcases h.takeRunFrom (fun _ stop => some (stop - blockSize maxOrder))
      (fun hp => .inr (Option.some.inj hp).symm) b.runs.length with
      ⟨hr, hpicks⟩ | ⟨b₁, blk, hr, ho, h₁, ht₁, -⟩
    · rw [hr]
      refine ⟨none, rfl, trivial, .inr ⟨fun x hx hxo => ?_, fun r hrun => ?_⟩⟩
      · have hempty : b.heads x.order = null := by
          rcases Nat.lt_or_ge x.order (b.skipEmpty target) with hlt | hge
          · exact hskip x.order hxo hlt
          · have heq : x.order = b.skipEmpty target := by
              have := x.order_le
              omega
            rw [heq]
            exact hhead
        have hin : x.base ∈ listOf L x.order := mem_listOf.mpr ⟨x, hx, rfl, rfl⟩
        rw [(h.lists x.order_le).head_eq_null.mp hempty] at hin
        cases hin
      · obtain ⟨j, hj, hget⟩ := List.getElem_of_mem hrun
        cases hpicks j hj r (by rw [List.getElem?_eq_getElem hj, hget])
    · obtain ⟨b₂, L₂, blk₂, hs, hbase, ho₂, h₂, ht₂, hsub⟩ := h₁.splitDown (ho.trans hk.symm) hle
      rw [hr]
      simp only [bind, Except.bind, hs]
      refine ⟨_, rfl, ⟨L₂, blk₂, hbase, ho₂, h₂, ht₂.trans ht₁⟩, rfl, ?_⟩
      rw [← hbase] at hsub
      exact h.canonical_split h₂ hsub
  · simp only [hhead, ne_eq, not_false_eq_true, if_true]
    obtain ⟨b₁, blk, hp, ho, h₁, ht₁⟩ := h.popHead hmax hhead
    obtain ⟨b₂, L₂, blk₂, hs, hbase, ho₂, h₂, ht₂, hsub⟩ := h₁.splitDown ho hle
    rw [hp]
    simp only [Except.map, bind, Except.bind, hs]
    refine ⟨_, rfl, ⟨L₂, blk₂, hbase, ho₂, h₂, ht₂.trans ht₁⟩, rfl, ?_⟩
    rw [← hbase] at hsub
    exact h.canonical_split h₂ fun x hx => (hsub x hx).imp_left List.mem_of_mem_erase

theorem Inv.findFit (h : b.Inv L held whole) (fits : Nat → Bool) (k : Nat) :
    (b.findFit fits k = .ok none ∧ ∀ x ∈ L, k ≤ x.order → fits x.base = false) ∨
      ∃ blk ∈ L, b.findFit fits k = .ok (some (blk.base, blk.order)) ∧ k ≤ blk.order ∧
        fits blk.base = true := by
  fun_induction Buddy.findFit b fits k with
  | case1 k hk ih =>
    rw [h.findFree_eq hk]
    cases hf : (listOf L k).find? fits with
    | none =>
      simp only [bind, Except.bind]
      refine ih.imp ?_ ?_
      · rintro ⟨hnone, hfits⟩
        refine ⟨hnone, fun x hx hkx => ?_⟩
        rcases Nat.lt_or_eq_of_le hkx with hlt | rfl
        · exact hfits x hx hlt
        · have hmiss := List.find?_eq_none.mp hf x.base (mem_listOf.mpr ⟨x, hx, rfl, rfl⟩)
          exact Bool.eq_false_iff.mpr hmiss
      · rintro ⟨blk, hm, hb, hle, hfit⟩
        exact ⟨blk, hm, hb, Nat.le_of_succ_le hle, hfit⟩
    | some x =>
      obtain ⟨blk, hm, rfl, rfl⟩ := mem_listOf.mp (List.mem_of_find?_eq_some hf)
      exact .inr ⟨blk, hm, rfl, Nat.le_refl _, List.find?_some hf⟩
  | case2 k hk =>
    refine .inl ⟨rfl, fun x _ hkx => ?_⟩
    exact absurd (hkx.trans x.order_le) hk

theorem Inv.allocConstrained (h : b.Inv L held whole) (target maxPhys : Nat) :
    ∃ res, b.allocConstrained target maxPhys =
        .ok (res.map fun (base, b) => (Frames.new base target, b)) ∧
      Took b held whole target res ∧
      Served b L (fun base => base + blockSize target < 2 ^ 64 && base + blockSize target ≤ maxPhys)
        target res := by
  unfold Buddy.allocConstrained
  by_cases ht : maxOrder < target
  · exact ⟨none, if_pos ht, trivial, .inl ht⟩
  rw [if_neg ht]
  generalize (fun base => decide (base + blockSize target < 2 ^ 64) &&
    decide (base + blockSize target ≤ maxPhys)) = fits
  rcases h.findFit fits target with ⟨hf, hlists⟩ | ⟨blk, hm, hf, hle, hfit⟩
  · simp only [hf, bind, Except.bind, takeRunBlock]
    rcases h.takeRunFrom (fun start _ => if fits start then some start else none)
      (by
        intro start stop addr hp
        split at hp
        · exact .inl (Option.some.inj hp).symm
        · cases hp) b.runs.length with
      ⟨hr, hpicks⟩ | ⟨b₁, blk, hr, ho, h₁, ht₁, start, stop, hp⟩
    · rw [hr]
      refine ⟨none, rfl, trivial, .inr ⟨hlists, fun r hrun => ?_⟩⟩
      obtain ⟨j, hj, hget⟩ := List.getElem_of_mem hrun
      have hpick := hpicks j hj r (by rw [List.getElem?_eq_getElem hj, hget])
      simpa using hpick
    · obtain ⟨b₂, L₂, blk₂, hs, hbase, ho₂, h₂, ht₂, hsub⟩ := h₁.splitDown ho (Nat.le_of_not_lt ht)
      rw [hr]
      simp only [hs]
      refine ⟨some (blk.base, b₂), rfl, ⟨L₂, blk₂, hbase, ho₂, h₂, ht₂.trans ht₁⟩, ?_, ?_⟩
      · split at hp
        · rename_i hfit
          cases hp
          exact hfit
        · cases hp
      · rw [← hbase] at hsub
        exact h.canonical_split h₂ hsub
  · obtain ⟨b₁, hu, h₁, ht₁⟩ := h.unlink hm
    obtain ⟨b₂, L₂, blk₂, hs, hbase, ho₂, h₂, ht₂, hsub⟩ := h₁.splitDown rfl hle
    simp only [hf, bind, Except.bind, hu, hs]
    refine ⟨some (blk.base, b₂), rfl, ⟨L₂, blk₂, hbase, ho₂, h₂, ht₂.trans ht₁⟩, hfit, ?_⟩
    rw [← hbase] at hsub
    exact h.canonical_split h₂ fun x hx => (hsub x hx).imp_left List.mem_of_mem_erase

end Buddy
end VibeOS.Mm
