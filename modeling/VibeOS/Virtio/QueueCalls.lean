import Mathlib.Data.List.Perm.Subperm
import VibeOS.Virtio.ChainSpec

/-!
One specification for each call of the queue: which fields of the shared memory it stores to,
what it does to the free list, and what it returns.
-/
namespace VibeOS.Virtio

variable {n : Nat} {q : SplitQueue n}

theorem RingSize.availRing (hn : RingSize n) (i : Nat) :
    q.layout.availRing i = Field.off n (.avail (i % n)) := by
  simp [SplitQueue.layout, SplitLayout.availRing, SplitLayout.ofSize, hn.ring, Field.off]

theorem RingSize.usedElem (hn : RingSize n) (i : Nat) :
    q.layout.usedElem i = Field.off n (.usedId (i % n)) := by
  simp [SplitQueue.layout, SplitLayout.usedElem, SplitLayout.ofSize, hn.ring, Field.off]

theorem SplitQueue.rd_availIdx : q.rd 2 q.layout.availIdx = q.at .availIdx := rfl

theorem SplitQueue.rd_usedIdx : q.rd 2 q.layout.usedIdx = q.at .usedIdx := rfl

theorem foldl_next_lt {h : Nat} (hh : h < 2 ^ 16) (xs : List Nat) :
    xs.foldl (fun _ i => q.at (.next i)) h < 2 ^ 16 := by
  induction xs generalizing h with
  | nil => exact hh
  | cons i xs ih => exact ih (q.at_lt (.next i))

def Field.isDesc : Field → Bool
  | .addrLo _ | .addrHi _ | .len _ | .flags _ | .next _ => true
  | _ => false

theorem Field.ofDesc_isDesc {i : Nat} {f : Field} (h : f.ofDesc i) : f.isDesc = true := by
  rcases h with rfl | rfl | rfl | rfl | rfl <;> rfl

theorem Field.not_ofDesc {i : Nat} {f : Field} (h : f.isDesc = false) : ¬ f.ofDesc i := fun hi => by
  rw [ofDesc_isDesc hi] at h
  cases h

/-- What a call leaves of the queue: the free list, and the memory apart from the fields
where `p`. -/
structure Leaves (p : Field → Prop) (q q' : SplitQueue n) (xs : List Nat) : Prop where
  follows : Follows q' q'.freeHead xs
  count : q'.numFree = xs.length
  head_lt : q'.freeHead < 2 ^ 16
  same : SameBut p q q'
  eventIdx : q'.eventIdx = q.eventIdx

theorem Leaves.freeIds {p : Field → Prop} {q' : SplitQueue n} {xs : List Nat} (h : Leaves p q q' xs)
    (hn : RingSize n) (hlt : ∀ i ∈ xs, i < n) : q'.freeIds = xs := by
  rw [SplitQueue.freeIds, h.count]
  exact h.follows.walk hn hlt

/-- `add_chain` takes the first descriptors of the free list, writes the chain into them and
its head into the next entry of the avail ring. -/
theorem RingSize.addChain (hn : RingSize n) {ids ys : List Nat} {bufs : List DescBuf}
    (hx : Follows q q.freeHead (ids ++ ys)) (hcount : q.numFree = (ids ++ ys).length)
    (hh : q.freeHead < 2 ^ 16) (hnd : (ids ++ ys).Nodup) (hlt : ∀ i ∈ ids ++ ys, i < n)
    (hlen : ids.length = bufs.length) (hpos : bufs.length ≠ 0) (hmax : bufs.length ≤ maxChain)
    (hfit : ∀ b ∈ bufs, b.Fits) :
    ∃ q', q.addChain bufs = (.ok (ids.headD 0), q') ∧
      Leaves (fun f => (∃ i ∈ ids, f.ofDesc i) ∨ f = .avail (q.at .availIdx % n)) q q' ys ∧
      q'.lastUsed = q.lastUsed ∧ Holds q' ids bufs ∧
      q'.at (.avail (q.at .availIdx % n)) = ids.headD 0 := by
  have hne : ids ≠ [] := by
    rintro rfl
    exact hpos hlen.symm
  have hltIds : ∀ i ∈ ids, i < n := fun i hi => hlt i (List.mem_append_left _ hi)
  have hfew : ids.length ≤ q.numFree := by
    rw [hcount, List.length_append]
    omega
  have hpop := hn.popMany hx hltIds hfew
  rw [hlen] at hpop
  -- The queue once the descriptors are popped, its memory still the old one, and once they
  -- are written.
  obtain ⟨q₁, hq₁⟩ : ∃ q₁ : SplitQueue n, q₁ =
      { q with freeHead := ids.foldl (fun _ i => q.at (.next i)) q.freeHead,
               numFree := q.numFree - bufs.length } := ⟨_, rfl⟩
  obtain ⟨q₂, hq₂⟩ : ∃ q₂ : SplitQueue n, q₂ = q₁.writeChain ids bufs := ⟨_, rfl⟩
  rw [← hq₁] at hpop
  have hmem : ∀ f, q₁.at f = q.at f := fun f => by rw [hq₁]; rfl
  obtain ⟨hholds, hsame, hnum⟩ :=
    hn.writeChain (q := q₁) hlen hne (List.nodup_append.mp hnd).1 hltIds hfit
  rw [← hq₂] at hholds hsame hnum
  have haidx : q₂.at .availIdx = q.at .availIdx := by
    rw [hsame .availIdx trivial, hmem]
    rintro ⟨i, -, hi⟩
    exact Field.not_ofDesc rfl hi
  have hhead : ids.headD 0 < 2 ^ 16 := by
    obtain ⟨i, is, rfl⟩ := List.exists_cons_of_ne_nil hne
    exact (hltIds i (by simp)).trans_le (hn.le.trans (by omega))
  have hslot : Field.Valid n (.avail (q.at .availIdx % n)) := Nat.mod_lt _ hn.pos
  have hstore : ∀ f, f.Valid n →
      (q₂.wr 2 (q₂.layout.availRing (q.at .availIdx)) (ids.headD 0)).at f =
      if f = .avail (q.at .availIdx % n) then ids.headD 0 else q₂.at f :=
    fun f hf => SplitQueue.at_wr2 (hn.availRing _) rfl hf hslot hhead
  have hrun : q.addChain bufs =
      (.ok (ids.headD 0), q₂.wr 2 (q₂.layout.availRing (q.at .availIdx)) (ids.headD 0)) := by
    have h1 : ¬ (bufs.length = 0 ∨ bufs.length > maxChain) := by omega
    have h2 : ¬ q.numFree < bufs.length := by omega
    simp only [SplitQueue.addChain, if_neg h1, if_neg h2, hpop, SplitQueue.rd_availIdx, ← hq₂,
      haidx]
  refine ⟨_, hrun, ⟨?_, ?_, ?_, ?_, ?_⟩, ?_, ?_, ?_⟩
  · change Follows _ q₂.freeHead ys
    rw [hnum.freeHead, hq₁]
    refine hx.drop.congr fun i hi => ?_
    have hin : i < n := hlt i (List.mem_append_right _ hi)
    rw [hstore (.next i) hin, if_neg (by nofun), hsame (.next i) hin, hmem]
    rintro ⟨j, hj, hij⟩
    have heq : i = j := by simpa [Field.ofDesc] using hij
    exact (List.nodup_append.mp hnd).2.2 j hj i hi heq.symm
  · change q₂.numFree = ys.length
    rw [hnum.numFree, hq₁]
    change q.numFree - bufs.length = ys.length
    rw [hcount, List.length_append]
    omega
  · change q₂.freeHead < 2 ^ 16
    rw [hnum.freeHead, hq₁]
    exact foldl_next_lt hh ids
  · intro f hf hp
    rw [not_or] at hp
    rw [hstore f hf, if_neg hp.2, hsame f hf hp.1, hmem]
  · change q₂.eventIdx = q.eventIdx
    rw [hnum.eventIdx, hq₁]
  · change q₂.lastUsed = q.lastUsed
    rw [hnum.lastUsed, hq₁]
  · refine hholds.congr fun i hi f hf => ?_
    rw [hstore f (Field.ofDesc_valid hf (hltIds i hi)), if_neg]
    rintro rfl
    exact Field.not_ofDesc rfl hf
  · rw [hstore _ hslot, if_pos rfl]

theorem SplitQueue.addChain_noDesc {bufs : List DescBuf}
    (h : bufs.length = 0 ∨ maxChain < bufs.length ∨ q.numFree < bufs.length) :
    q.addChain bufs = (.error .noDesc, q) := by
  rw [addChain]
  dsimp only
  split
  · rfl
  · rename_i hlen
    rw [if_pos (by omega)]

theorem RingSize.initDescs (hn : RingSize n) {m : Nat} (hm : m ≤ n) :
    ∀ j < m, ((List.range m).foldl SplitQueue.initDesc q).at (.next j) =
      if j + 1 < n then j + 1 else 0 := by
  induction m with
  | zero => exact fun j hj => absurd hj (Nat.not_lt_zero j)
  | succ m ih =>
    intro j hj
    have hlast : (if m + 1 < n then m + 1 else 0) < 2 ^ 16 := by
      have := hn.le
      split <;> omega
    have hstore := hn.at_writeDesc (q := (List.range m).foldl SplitQueue.initDesc q)
      (f := .next j) hm (Nat.two_pow_pos 64) (Nat.two_pow_pos 32) (Nat.two_pow_pos 16) hlast
      (Nat.lt_of_lt_of_le hj hm)
    rw [List.range_succ, List.foldl_append]
    refine hstore.trans ?_
    by_cases hjm : j = m
    · rw [if_pos (by rw [hjm]), hjm]
    · simp only [Field.next.injEq, hjm, if_false, reduceCtorEq]
      exact ih (by omega) j (by omega)

theorem follows_range (hnext : ∀ j < n, q.at (.next j) = if j + 1 < n then j + 1 else 0) {m i : Nat}
    (hi : i + m = n) : Follows q (if i < n then i else 0) (List.range' i m) := by
  induction m generalizing i with
  | zero => trivial
  | succ m ih =>
    refine ⟨if_pos (by omega), ?_⟩
    rw [hnext i (by omega)]
    exact ih (by omega)

theorem RingSize.init (hn : RingSize n) :
    Follows q.init q.init.freeHead (List.range n) ∧ q.init.numFree = n ∧ q.init.freeHead = 0 ∧
      q.init.lastUsed = 0 ∧ q.init.at .availIdx = 0 ∧ q.init.at .usedIdx = 0 ∧
      q.init.at .availEvent = 0 ∧ q.init.at .usedEvent = 0 := by
  obtain ⟨q₁, hq₁⟩ : ∃ q₁ : SplitQueue n, q₁ = (List.range n).foldl SplitQueue.initDesc q :=
    ⟨_, rfl⟩
  have hat : ∀ f, f.Valid n → q.init.at f =
      if f = .availEvent then 0 else if f = .usedEvent then 0 else if f = .usedIdx then 0
      else if f = .usedFlags then 0 else if f = .availIdx then 0 else if f = .availFlags then 0
      else q₁.at f := by
    intro f hf
    have hzero : ∀ (p : SplitQueue n) (g : Field), g.width = 2 → g.Valid n →
        (p.wr 2 (g.off n) 0).at f = if f = g then 0 else p.at f :=
      fun p g hw hg => SplitQueue.at_wr2 rfl hw hf hg (by omega)
    change ((((((((List.range n).foldl SplitQueue.initDesc q).wr 2 (Field.off n .availFlags) 0).wr 2
      (Field.off n .availIdx) 0).wr 2 (Field.off n .usedFlags) 0).wr 2
        (Field.off n .usedIdx) 0).wr 2
      (Field.off n .usedEvent) 0).wr 2 (Field.off n .availEvent) 0).at f = _
    rw [← hq₁, hzero _ .availEvent rfl trivial, hzero _ .usedEvent rfl trivial,
      hzero _ .usedIdx rfl trivial, hzero _ .usedFlags rfl trivial, hzero _ .availIdx rfl trivial,
      hzero _ .availFlags rfl trivial]
  have hnext : ∀ j < n, q.init.at (.next j) = if j + 1 < n then j + 1 else 0 := by
    intro j hj
    rw [hat (.next j) hj]
    simp only [reduceCtorEq, if_false]
    rw [hq₁]
    exact hn.initDescs (Nat.le_refl n) j hj
  refine ⟨?_, rfl, rfl, rfl, ?_, ?_, hat .availEvent trivial, hat .usedEvent trivial⟩
  · have hfollow := follows_range hnext (Nat.zero_add n)
    rw [if_pos hn.pos, ← List.range_eq_range'] at hfollow
    exact hfollow
  · rw [hat .availIdx trivial]
    rfl
  · rw [hat .usedIdx trivial]
    rfl

theorem SplitQueue.init_eventIdx (q : SplitQueue n) : q.init.eventIdx = q.eventIdx := by
  have hloop : ∀ is : List Nat, (is.foldl initDesc q).eventIdx = q.eventIdx := by
    intro is
    induction is generalizing q with
    | nil => rfl
    | cons i is ih => exact ih (q.initDesc i)
  exact hloop (List.range n)

theorem SplitQueue.at_publish {f : Field} (hf : f.Valid n) :
    q.publish.at f = if f = .availIdx then (q.at .availIdx + 1) % 2 ^ 16 else q.at f :=
  SplitQueue.at_wr2 (q := q) (g := .availIdx) rfl rfl hf trivial (Nat.mod_lt _ (by omega))

/-- What `get_used` reads at its place in the used ring. -/
def SplitQueue.usedAt (q : SplitQueue n) (i : Nat) : UsedElem :=
  { id := q.at (.usedId i), len := q.at (.usedLen i) }

theorem RingSize.at_writeUsed (hn : RingSize n) {i id len : Nat} (hid : id < 2 ^ 32)
    (hlen : len < 2 ^ 32) {f : Field} (hf : f.Valid n) :
    ((q.wr 4 (q.layout.usedElem i) id).wr 4 (q.layout.usedElem i + 4) len).at f =
      if f = .usedLen (i % n) then len else if f = .usedId (i % n) then id else q.at f := by
  have hslot : i % n < n := Nat.mod_lt _ hn.pos
  have hoff : q.layout.usedElem i + 4 = Field.off n (.usedLen (i % n)) := by
    rw [hn.usedElem]
    rfl
  rw [SplitQueue.at_wr4 hoff rfl hf hslot hlen,
    SplitQueue.at_wr4 (hn.usedElem i) rfl hf hslot hid]

theorem SplitQueue.getUsed_none (h : q.pending = 0) : q.getUsed = (none, q) := by
  rw [getUsed, if_pos h]

theorem Leaves.event {p : Field → Prop} {q' : SplitQueue n} {xs : List Nat} (h : Leaves p q q' xs)
    (hlast : q'.lastUsed < 2 ^ 16) (hlt : ∀ j ∈ xs, j < n) :
    Leaves (fun f => p f ∨ f = .usedEvent) q
      (if q'.eventIdx then q'.wr 2 q'.layout.usedEvent q'.lastUsed else q') xs := by
  have hevent : ∀ f, f.Valid n → f ≠ .usedEvent →
      (q'.wr 2 q'.layout.usedEvent q'.lastUsed).at f = q'.at f := by
    intro f hf hne
    have ho : q'.layout.usedEvent = Field.off n .usedEvent := rfl
    rw [SplitQueue.at_wr2 ho rfl hf trivial hlast, if_neg hne]
  split
  · refine ⟨h.follows.congr fun j hj => hevent _ (hlt j hj) (by nofun), h.count, h.head_lt,
      fun f hf hp => ?_, h.eventIdx⟩
    rw [not_or] at hp
    rw [hevent f hf hp.2, h.same f hf hp.1]
  · exact ⟨h.follows, h.count, h.head_lt, fun f hf hp => h.same f hf fun hpf => hp (.inl hpf),
      h.eventIdx⟩

theorem RingSize.getUsed (hn : RingSize n) {ids xs : List Nat} {i : Nat} (hp : q.pending ≠ 0)
    (hi : (q.usedAt (q.lastUsed % n)).id = i) (hl : Leads q (i :: ids))
    (hx : Follows q q.freeHead xs) (hcount : q.numFree = xs.length) (hh : q.freeHead < 2 ^ 16)
    (hnd : (i :: ids ++ xs).Nodup) (hlt : ∀ j ∈ i :: ids ++ xs, j < n) :
    ∃ q', q.getUsed = (some (q.usedAt (q.lastUsed % n)), q') ∧
      Leaves (fun f => (∃ j ∈ i :: ids, f = .flags j ∨ f = .next j) ∨ f = .usedEvent) q q'
        ((i :: ids).reverse ++ xs) ∧
      q'.lastUsed = (q.lastUsed + 1) % 2 ^ 16 ∧
      (q.eventIdx = true → q'.at .usedEvent = (q.lastUsed + 1) % 2 ^ 16) := by
  obtain ⟨hnd1, hnd2, hdis⟩ := List.nodup_append.mp hnd
  have hltIds : ∀ j ∈ i :: ids, j < n := fun j hj => hlt j (List.mem_append_left _ hj)
  have hltXs : ∀ j ∈ xs, j < n := fun j hj => hlt j (List.mem_append_right _ hj)
  have hlen : (i :: ids).length + xs.length ≤ n := by
    have hsub : i :: ids ++ xs ⊆ List.range n := fun j hj => List.mem_range.mpr (hlt j hj)
    have hle := (hnd.subperm hsub).length_le
    rwa [List.length_append, List.length_range] at hle
  have hid : i < 2 ^ 16 := (hltIds i (by simp)).trans_le (hn.le.trans (by omega))
  have hrd : q.rd 4 (q.layout.usedElem q.lastUsed) % 2 ^ 16 = i := by
    rw [hn.usedElem]
    exact (congrArg (· % 2 ^ 16) hi).trans (Nat.mod_eq_of_lt hid)
  have hrdLen : q.rd 4 (q.layout.usedElem q.lastUsed + 4) = (q.usedAt (q.lastUsed % n)).len := by
    rw [hn.usedElem]
    rfl
  -- The queue with its place moved on; its memory and its free list are the old ones.
  obtain ⟨q₁, hq₁⟩ : ∃ q₁ : SplitQueue n, q₁ =
      { q with lastUsed := (q.lastUsed + 1) % 2 ^ 16 } := ⟨_, rfl⟩
  have hmem : ∀ f, q₁.at f = q.at f := fun f => by rw [hq₁]; rfl
  have hhead : q₁.freeHead = q.freeHead := by rw [hq₁]
  obtain ⟨h1, h2, h3, h4, h5, h6, -⟩ := hn.freeLoop (q := q₁) (m := n)
    (hl.congr fun j _ => ⟨hmem _, hmem _⟩)
    (by rw [hhead]; exact hx.congr fun j _ => hmem _) hltXs hnd1
    (fun j hj hjx => hdis j hj j hjx rfl) hltIds (by rw [hhead]; exact hh) (by omega)
    (by rw [hq₁]; change q.numFree + _ < _; have := hn.le; omega)
  obtain ⟨q₂, hq₂⟩ : ∃ q₂ : SplitQueue n, q₂ = q₁.freeLoop n i := ⟨_, rfl⟩
  rw [← hq₂] at h1 h2 h3 h4 h5 h6
  have hrun : q.getUsed = (some (q.usedAt (q.lastUsed % n)),
      if q₂.eventIdx then q₂.wr 2 q₂.layout.usedEvent q₂.lastUsed else q₂) := by
    rw [SplitQueue.getUsed, if_neg hp]
    simp only [hrd, hrdLen, SplitQueue.freeChain, ← hq₁, ← hq₂]
    rw [← hi]
  have hlast : q₂.lastUsed = (q.lastUsed + 1) % 2 ^ 16 := by
    rw [h5, hq₁]
  have hleaves : Leaves (fun f => ∃ j ∈ i :: ids, f = .flags j ∨ f = .next j) q q₂
      ((i :: ids).reverse ++ xs) := by
    refine ⟨h1, ?_, h3, fun f hf hp => (h4 f hf hp).trans (hmem f), ?_⟩
    · rw [h2, hq₁, List.length_append, List.length_reverse]
      change q.numFree + _ = _
      omega
    · rw [h6, hq₁]
  have hlast_lt : q₂.lastUsed < 2 ^ 16 := by
    rw [hlast]
    exact Nat.mod_lt _ (by omega)
  refine ⟨_, hrun, hleaves.event hlast_lt ?_, ?_, fun hon => ?_⟩
  · intro j hj
    rw [List.mem_append, List.mem_reverse] at hj
    exact hlt j (List.mem_append.mpr hj)
  · split <;> exact hlast
  · rw [if_pos (hleaves.eventIdx.trans hon)]
    have ho : q₂.layout.usedEvent = Field.off n .usedEvent := rfl
    rw [SplitQueue.at_wr2 (f := .usedEvent) ho rfl trivial trivial hlast_lt, if_pos rfl, hlast]

end VibeOS.Virtio
