import VibeOS.Mm.BuddyRegion

/-!
Runs of the allocator. Callers insert regions, allocate and free blocks, and write as
they like to the memory they hold and to memory the allocator was not given. In every
run over disjoint regions no fault occurs, and the free blocks and the tokens handed
out partition the pages of the regions.
-/
namespace VibeOS.Mm
open Lib

/-- The allocator, the tokens its callers hold and the regions it was given. -/
structure Pool where
  buddy : Buddy
  tokens : List Frames
  regions : List (Nat × Nat)

inductive PoolAct where
  | insert (start stop : Nat)
  | alloc (order : Nat)
  | allocConstrained (order maxPhys : Nat)
  | free (token : Nat)
  | write (addr : Nat) (node : Node Nat)

def Frames.range (f : Frames) : Nat × Nat :=
  (f.base, f.base + blockSize f.order)

/-- The whole pages of a range, without frame 0. -/
def interior (r : Nat × Nat) : Nat × Nat :=
  (alignUp (max r.1 pageSize) pageSize, alignDown r.2 pageSize)

namespace Pool

def init (mem : Nat → Node Nat) : Pool :=
  ⟨Buddy.new mem, [], []⟩

def hand (S : Pool) : Option (Frames × Buddy) → Pool
  | none => S
  | some (f, b) => { S with buddy := b, tokens := f :: S.tokens }

def step (S : Pool) : PoolAct → Except Fault Pool
  | .insert start stop => do
    return { S with
      buddy := ← S.buddy.insertRegion start stop, regions := (start, stop) :: S.regions }
  | .alloc order => return S.hand (← S.buddy.alloc order)
  | .allocConstrained order maxPhys => return S.hand (← S.buddy.allocConstrained order maxPhys)
  | .free i =>
    match S.tokens[i]? with
    | none => return S
    | some f => return { S with buddy := ← S.buddy.free f, tokens := S.tokens.eraseIdx i }
  | .write addr node =>
    -- a caller writes where it holds a token, anyone where no region is
    if (∃ f ∈ S.tokens, Within f.range addr) ∨ ∀ r ∈ S.regions, ¬ Within r addr then
      return { S with buddy := { S.buddy with mem := Function.update S.buddy.mem addr node } }
    else return S

def run (mem : Nat → Node Nat) (acts : List PoolAct) : Except Fault Pool :=
  acts.foldlM step (init mem)

end Pool

def inserted (acts : List PoolAct) : List (Nat × Nat) :=
  acts.filterMap fun
    | .insert start stop => some (start, stop)
    | _ => none

/-- Rounding the ends of the range does not overflow. -/
def Rounds (r : Nat × Nat) : Prop :=
  max r.1 pageSize + pageSize - 1 < 2 ^ 64 ∧ r.2 < 2 ^ 64

theorem interior_eq {r : Nat × Nat} (h : Rounds r) :
    interior r =
      ((max r.1 pageSize + pageSize - 1) / pageSize * pageSize, r.2 / pageSize * pageSize) := by
  have hdown : ∀ {x}, x < 2 ^ 64 → alignDown x pageSize = x / pageSize * pageSize := fun hx =>
    alignDown_eq (k := 0) hx (Nat.zero_le _)
  rw [interior, alignUp, hdown h.1, hdown h.2]

theorem interior_dvd {r : Nat × Nat} (h : Rounds r) :
    pageSize ∣ (interior r).1 ∧ pageSize ∣ (interior r).2 := by
  rw [interior_eq h]
  exact ⟨Nat.dvd_mul_left _ _, Nat.dvd_mul_left _ _⟩

theorem within_interior {r : Nat × Nat} (h : Rounds r) {x : Nat} :
    Within (interior r) x ↔ x / pageSize ≠ 0 ∧ r.1 ≤ x / pageSize * pageSize ∧
      (x / pageSize + 1) * pageSize ≤ r.2 := by
  rw [interior_eq h]
  obtain ⟨h₁, h₂⟩ := h
  simp only [Within, pageSize] at *
  omega

theorem interior_bounded {r : Nat × Nat} (h : Rounds r) {x : Nat} (hx : Within (interior r) x) :
    pageSize ≤ x ∧ x < 2 ^ 64 - pageSize ∧ Within r x := by
  rw [within_interior h] at hx
  obtain ⟨h₁, h₂⟩ := h
  simp only [Within, pageSize] at *
  omega

theorem frames_new {blk : Block} (h : blk.base < 2 ^ 64) :
    (Frames.new blk.base blk.order).base = blk.base ∧
      (Frames.new blk.base blk.order).order = blk.order := by
  have hdvd := (pageSize_dvd_blockSize _).trans blk.aligned
  obtain ⟨n, hn⟩ := hdvd
  have ho := blk.order_le
  have hor : blk.base ||| blk.order = pageSize * n + blk.order := by
    rw [hn]
    exact (Nat.two_pow_add_eq_or_of_lt (i := 12)
      (Nat.lt_of_le_of_lt ho (by decide)) n).symm
  have hraw : pageSize * n + blk.order < 2 ^ 64 := by
    simp only [pageSize, maxOrder] at *
    omega
  constructor
  · have hmask := and_high_mask (w := 64) (k := 12) (by decide) hraw
    rw [Frames.base, Frames.new, hor, hn]
    refine hmask.trans ?_
    simp only [pageSize, maxOrder] at *
    omega
  · rw [Frames.order, Frames.new, hor]
    rw [show pageSize - 1 = 2 ^ 12 - 1 from rfl, Nat.and_two_pow_sub_one_eq_mod]
    simp only [pageSize, maxOrder] at *
    omega

namespace Buddy
variable {b b' : Buddy} {L : List Block} {held whole : List (Nat × Nat)}

theorem inv_new (mem : Nat → Node Nat) : (Buddy.new mem).Inv [] [] [] := by
  constructor
  · exact fun _ => rfl
  · exact fun hr => by cases hr
  · exact fun _ => by simp [Buddy.new, topBlocks]
  · simp [Buddy.new, topBlocks]
  · exact fun _ => rfl
  · exact fun _ => Nat.zero_le _
  · exact fun hr => by cases hr

theorem Inv.insertRegion (h : b.Inv L held whole) {start stop : Nat} (hr : Rounds (start, stop))
    (hapart : ∀ w ∈ whole, Apart (interior (start, stop)) w) :
    ∃ (b' : Buddy) (L' : List Block), b.insertRegion start stop = .ok b' ∧
      b'.Inv L' held (interior (start, stop) :: whole) ∧
      b'.totalFrames = b.totalFrames +
        ((interior (start, stop)).2 - (interior (start, stop)).1) / pageSize ∧
      (Packed L (interior (start, stop)).2 → Packed L' (interior (start, stop)).2) := by
  have hover : ¬ 2 ^ 64 ≤ max start pageSize + pageSize - 1 := Nat.not_le_of_lt hr.1
  have hdvd := interior_dvd hr
  have hbound := fun {x} => interior_bounded hr (x := x)
  rw [Buddy.insertRegion]
  simp only [if_neg hover]
  rw [show alignUp (max start pageSize) pageSize = (interior (start, stop)).1 from rfl,
    show alignDown stop pageSize = (interior (start, stop)).2 from rfl]
  have hpos : 0 < (interior (start, stop)).1 := by
    rw [interior_eq hr]
    simp only [pageSize]
    omega
  generalize interior (start, stop) = r at *
  obtain ⟨a, e⟩ := r
  generalize hb₁ : (if a < e then { b with spanLo := min b.spanLo a, spanHi := max b.spanHi e }
    else b) = b₁
  have hspan : b₁.spanLo ≤ b.spanLo ∧ b.spanHi ≤ b₁.spanHi ∧
      (a < e → b₁.spanLo ≤ a ∧ e ≤ b₁.spanHi) := by
    subst hb₁
    split
    · refine ⟨Nat.min_le_left _ _, Nat.le_max_left _ _, fun _ => ⟨Nat.min_le_right _ _, ?_⟩⟩
      exact Nat.le_max_right _ _
    · exact ⟨Nat.le_refl _, Nat.le_refl _, fun hlt => absurd hlt ‹_›⟩
  have hsame : b₁ = { b with spanLo := b₁.spanLo, spanHi := b₁.spanHi } := by
    subst hb₁
    split <;> rfl
  have hinv : b₁.Inv L ((a, e) :: held) ((a, e) :: whole) := by
    rw [hsame]
    constructor
    · exact h.lists
    · exact h.runs
    · exact h.counts
    · exact h.freeFrames
    · intro x
      have := h.tiles x
      simp only [cover_append, cover_cons] at this ⊢
      omega
    · intro x
      rw [cover_cons]
      split
      · rename_i hx
        have : ¬ 0 < cover whole x := by
          rw [cover_pos]
          rintro ⟨w, hw, hwx⟩
          exact hapart w hw x hx hwx
        omega
      · exact h.once x
    · intro r hr x hx
      rcases List.mem_cons.mp hr with rfl | hr
      · have h₁ := hbound hx
        have h₂ := hspan.2.2 (Nat.lt_of_le_of_lt hx.1 hx.2)
        obtain ⟨hx₁, hx₂⟩ := hx
        exact ⟨h₁.1, h₁.2.1, Nat.le_trans h₂.1 hx₁, Nat.lt_of_lt_of_le hx₂ h₂.2⟩
      · obtain ⟨h₁, h₂, h₃, h₄⟩ := h.bounds hr hx
        exact ⟨h₁, h₂, Nat.le_trans hspan.1 h₃, Nat.lt_of_lt_of_le h₄ hspan.2.1⟩
  obtain ⟨b₂, L₂, hb₂, h₂, ht₂, hp₂⟩ := hinv.insertBlocks hdvd.1 hdvd.2 hpos
  refine ⟨b₂, L₂, hb₂, h₂, ?_, hp₂⟩
  rw [ht₂, hsame]

theorem Inv.write (h : b.Inv L held whole) {addr : Nat} {node : Node Nat}
    (hne : ∀ x ∈ L, x.base ≠ addr) :
    { b with mem := Function.update b.mem addr node }.Inv L held whole :=
  { h with
    lists := by
      intro k hk
      refine (h.lists hk).frame fun y hy => ?_
      obtain ⟨x, hx, -, rfl⟩ := mem_listOf.mp hy
      exact Function.update_of_ne (hne x hx) .. }

end Buddy

namespace Pool

/-- The allocator's invariant, with the tokens held and the regions' pages as the whole. -/
structure Inv (S : Pool) (L : List Block) : Prop where
  buddy : S.buddy.Inv L (S.tokens.map Frames.range) (S.regions.map interior)
  tokens : ∀ f ∈ S.tokens, ∃ blk : Block, f = Frames.new blk.base blk.order ∧
    f.base = blk.base ∧ f.order = blk.order
  total : S.buddy.totalFrames =
    (S.regions.map fun r => ((interior r).2 - (interior r).1) / pageSize).sum
  rounds : ∀ r ∈ S.regions, Rounds r

theorem inv_init (mem : Nat → Node Nat) : (init mem).Inv [] :=
  ⟨Buddy.inv_new mem, fun f hf => (by cases hf), rfl, fun r hr => (by cases hr)⟩

variable {S : Pool} {L : List Block}

theorem Inv.hand (h : S.Inv L) {order : Nat} {res : Option (Nat × Buddy)}
    (ht : Buddy.Took S.buddy (S.tokens.map Frames.range) (S.regions.map interior) order res) :
    ∃ L', (S.hand (res.map fun (base, b) => (Frames.new base order, b))).Inv L' := by
  cases res with
  | none => exact ⟨L, h⟩
  | some p =>
    obtain ⟨addr, b⟩ := p
    obtain ⟨L', blk, rfl, rfl, hinv, htot⟩ := ht
    have hlt : blk.base < 2 ^ 64 := by
      have h₁ := hinv.held_bounded (List.mem_cons_self ..) blk.range_nonempty
      have h₂ := blk.range_nonempty
      simp only [Block.range, pageSize] at h₁ h₂
      omega
    obtain ⟨hbase, horder⟩ := frames_new hlt
    refine ⟨L', ?_, ?_, htot.trans h.total, h.rounds⟩
    · simp only [Option.map, Pool.hand, List.map_cons, Frames.range, hbase, horder]
      exact hinv
    · intro f hf
      rcases List.mem_cons.mp hf with rfl | hf
      · exact ⟨blk, rfl, hbase, horder⟩
      · exact h.tokens f hf

theorem canonical_hand {fits : Nat → Bool} {order : Nat} {res : Option (Nat × Buddy)}
    (hserved : Buddy.Served S.buddy L fits order res) (hc : S.buddy.Canonical) :
    (S.hand (res.map fun (base, b) => (Frames.new base order, b))).buddy.Canonical := by
  cases res with
  | none => exact hc
  | some p => exact hserved.2 hc

theorem inv_step (h : S.Inv L) {a : PoolAct}
    (ha : ∀ {start stop}, a = .insert start stop →
      Rounds (start, stop) ∧ ∀ r ∈ S.regions, Apart (start, stop) r) :
    ∃ S' L', S.step a = .ok S' ∧ S'.Inv L' ∧
      ((∀ start stop, a ≠ .insert start stop) → S.buddy.Canonical → S'.buddy.Canonical) := by
  cases a with
  | insert start stop =>
    obtain ⟨hr, hapart⟩ := ha rfl
    obtain ⟨b', L', hb', hinv, htot, -⟩ := h.buddy.insertRegion hr fun w hw x hx hwx => by
      obtain ⟨r, hr', rfl⟩ := List.mem_map.mp hw
      exact hapart r hr' x (interior_bounded hr hx).2.2
        (interior_bounded (h.rounds r hr') hwx).2.2
    refine ⟨⟨b', S.tokens, (start, stop) :: S.regions⟩, L', by simp only [step, hb']; rfl,
      ⟨hinv, h.tokens, ?_, ?_⟩, fun hne => absurd rfl (hne start stop)⟩
    · rw [htot, h.total, List.map_cons, List.sum_cons, Nat.add_comm]
    · intro r hr'
      rcases List.mem_cons.mp hr' with rfl | hr'
      · exact hr
      · exact h.rounds r hr'
  | alloc order =>
    obtain ⟨res, hb, htook, hserved⟩ := h.buddy.takeBlock order
    obtain ⟨L', hL'⟩ := h.hand htook
    refine ⟨_, L', ?_, hL', fun _ => canonical_hand hserved⟩
    simp only [step, Buddy.alloc, hb]
    rfl
  | allocConstrained order maxPhys =>
    obtain ⟨res, hb, htook, hserved⟩ := h.buddy.allocConstrained order maxPhys
    obtain ⟨L', hL'⟩ := h.hand htook
    refine ⟨_, L', ?_, hL', fun _ => canonical_hand hserved⟩
    simp only [step, hb]
    rfl
  | free i =>
    cases hi : S.tokens[i]? with
    | none => exact ⟨S, L, by simp only [step, hi]; rfl, h, fun _ => id⟩
    | some f =>
      obtain ⟨blk, -, hbase, horder⟩ := h.tokens f (List.mem_of_getElem? hi)
      have hperm : (S.tokens.map Frames.range).Perm
          (blk.range :: (S.tokens.eraseIdx i).map Frames.range) := by
        have := (Buddy.perm_eraseIdx hi).map Frames.range
        rwa [List.map_cons, show f.range = blk.range by
          rw [Frames.range, hbase, horder]; rfl] at this
      obtain ⟨b', L', hb', hinv, htot, hcanon⟩ :=
        (h.buddy.rehold fun x => (cover_perm hperm x).symm).free hbase horder
      refine ⟨⟨b', S.tokens.eraseIdx i, S.regions⟩, L', by simp only [step, hi, hb']; rfl,
        ⟨hinv, ?_, htot.trans h.total, h.rounds⟩, fun _ => hcanon⟩
      exact fun g hg => h.tokens g (List.mem_of_mem_eraseIdx hg)
  | write addr node =>
    simp only [step]
    split
    · rename_i hw
      have hinv : Inv { S with buddy := { S.buddy with
          mem := Function.update S.buddy.mem addr node } } L := by
        refine ⟨h.buddy.write fun x hx e => ?_, h.tokens, h.total, h.rounds⟩
        subst e
        rcases hw with ⟨f, hf, hin⟩ | hout
        · exact h.buddy.linked_apart_held hx (List.mem_map_of_mem hf) _ x.within_base hin
        · obtain ⟨w, hw, hin⟩ := h.buddy.tiles.within
            (List.mem_append_left _ (List.mem_map_of_mem hx)) x.within_base
          obtain ⟨r, hr, rfl⟩ := List.mem_map.mp hw
          exact hout r hr (interior_bounded (h.rounds r hr) hin).2.2
      refine ⟨_, L, rfl, hinv, fun _ hc => ?_⟩
      exact hinv.buddy.canonical_iff.mpr (h.buddy.canonical_iff.mp hc)
    · exact ⟨S, L, rfl, h, fun _ => id⟩

end Pool
end VibeOS.Mm
