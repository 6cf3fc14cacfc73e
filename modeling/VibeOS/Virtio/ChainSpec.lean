import VibeOS.Virtio.SplitQueue

/-!
What each operation of the queue does to the fields of the shared memory, for a queue whose size
is a power of two: the free list that `pop_free` and `push_free` work on, the chain that `add_chain`
writes, and the loop of `free_chain` that follows a chain back onto the free list.
-/
namespace VibeOS.Virtio

open Lib

/-- The size is a power of two that a 16-bit index can wrap around. -/
structure RingSize (n : Nat) : Prop where
  ring : ∀ i, ringIndex i n = i % n
  pos : 0 < n
  dvd : n ∣ 2 ^ 16
  le : n ≤ 2 ^ 15

theorem RingSize.two_pow {k : Nat} (hk : k ≤ 15) : RingSize (2 ^ k) where
  ring i := ringIndex_two_pow i k
  pos := Nat.two_pow_pos k
  dvd := Nat.pow_dvd_pow 2 (by omega)
  le := Nat.pow_le_pow_right (by omega) hk

variable {n : Nat} {q : SplitQueue n} {i : Nat}

/-- The number in a field of the queue's memory. -/
def SplitQueue.at (q : SplitQueue n) (f : Field) : Nat := q.mem.view f

/-- `q'` has `q`'s memory but for the fields where `p`. -/
def SameBut (p : Field → Prop) (q q' : SplitQueue n) : Prop :=
  ∀ f, f.Valid n → ¬ p f → q'.at f = q.at f

def Field.ofDesc (i : Nat) (f : Field) : Prop :=
  f = .addrLo i ∨ f = .addrHi i ∨ f = .len i ∨ f = .flags i ∨ f = .next i

theorem RingSize.desc (h : RingSize n) (hi : i < n) : (SplitLayout.ofSize n).desc i = i * 16 := by
  simp [SplitLayout.desc, SplitLayout.ofSize, h.ring, Nat.mod_eq_of_lt hi]

variable {f g : Field}

theorem SplitQueue.at_wr {v : Nat} (hf : f.Valid n) (hg : g.Valid n) (hv : v < 256 ^ g.width) :
    (q.wr g.width (g.off n) v).at f = if f = g then v else q.at f :=
  RingMem.view_putLE hf hg hv

theorem SplitQueue.at_wr2 {v off : Nat} (ho : off = g.off n) (hw : g.width = 2) (hf : f.Valid n)
    (hg : g.Valid n) (hv : v < 2 ^ 16) :
    (q.wr 2 off v).at f = if f = g then v else q.at f := by
  subst ho
  rw [← hw]
  exact at_wr hf hg (by rw [hw]; exact hv)

theorem SplitQueue.at_wr4 {v off : Nat} (ho : off = g.off n) (hw : g.width = 4) (hf : f.Valid n)
    (hg : g.Valid n) (hv : v < 2 ^ 32) :
    (q.wr 4 off v).at f = if f = g then v else q.at f := by
  subst ho
  rw [← hw]
  exact at_wr hf hg (by rw [hw]; exact hv)

theorem SplitQueue.at_lt (q : SplitQueue n) (f : Field) : q.at f < 256 ^ f.width :=
  Buf.getLE_lt ..

theorem RingSize.rd_next (h : RingSize n) (hi : i < n) :
    q.rd 2 (q.layout.desc i + 14) = q.at (.next i) := by
  rw [SplitQueue.layout, h.desc hi]
  rfl

theorem RingSize.rd_flags (h : RingSize n) (hi : i < n) :
    q.rd 2 (q.layout.desc i + 12) = q.at (.flags i) := by
  rw [SplitQueue.layout, h.desc hi]
  rfl

theorem RingSize.at_pushFree (h : RingSize n) (hi : i < n) (hh : q.freeHead < 2 ^ 16)
    (hf : f.Valid n) :
    (q.pushFree i).at f = if f = .flags i then 0 else if f =
    .next i then q.freeHead else q.at f := by
  have h2 : ((q.wr 2 (q.layout.desc i + 14) q.freeHead).wr 2 (q.layout.desc i + 12) 0).at f =
      if f = .flags i then 0 else (q.wr 2 (q.layout.desc i + 14) q.freeHead).at f :=
    SplitQueue.at_wr2 (by rw [SplitQueue.layout, h.desc hi]; rfl) rfl hf hi (by omega)
  have h1 : (q.wr 2 (q.layout.desc i + 14) q.freeHead).at f =
      if f = .next i then q.freeHead else q.at f :=
    SplitQueue.at_wr2 (by rw [SplitQueue.layout, h.desc hi]; rfl) rfl hf hi hh
  rw [h1] at h2
  exact h2

/-- The buffer's fields fit their words. -/
structure DescBuf.Fits (b : DescBuf) : Prop where
  addr : b.addr < 2 ^ 64
  len : b.len < 2 ^ 32
  flags : b.flags < 2 ^ 16

/-- The descriptor is as `write_desc` left it. -/
structure DescAt (q : SplitQueue n) (i addr len flags next : Nat) : Prop where
  addrLo : q.at (.addrLo i) = addr % 2 ^ 32
  addrHi : q.at (.addrHi i) = addr / 2 ^ 32
  len : q.at (.len i) = len
  flags : q.at (.flags i) = flags
  next : q.at (.next i) = next

variable {addr len flags next : Nat}

theorem DescAt.congr {q' : SplitQueue n} (h : DescAt q i addr len flags next)
    (hsame : ∀ f, f.ofDesc i → q'.at f = q.at f) :
    DescAt q' i addr len flags next := by
  refine ⟨?_, ?_, ?_, ?_, ?_⟩
  · rw [hsame _ (.inl rfl)]
    exact h.addrLo
  · rw [hsame _ (.inr (.inl rfl))]
    exact h.addrHi
  · rw [hsame _ (.inr (.inr (.inl rfl)))]
    exact h.len
  · rw [hsame _ (.inr (.inr (.inr (.inl rfl))))]
    exact h.flags
  · rw [hsame _ (.inr (.inr (.inr (.inr rfl))))]
    exact h.next

theorem RingSize.at_writeDesc (h : RingSize n) (hi : i < n) (ha : addr < 2 ^ 64)
    (hl : len < 2 ^ 32) (hg : flags < 2 ^ 16) (hx : next < 2 ^ 16) (hf : f.Valid n) :
    (q.writeDesc i addr len flags next).at f =
      if f = .next i then next else if f = .flags i then flags else if f = .len i then len
      else if f = .addrHi i then addr / 2 ^ 32 else if f = .addrLo i then addr % 2 ^ 32
      else q.at f := by
  have hd : q.layout.desc i = i * 16 := h.desc hi
  unfold SplitQueue.writeDesc SplitQueue.wr64
  dsimp only
  rw [SplitQueue.at_wr2 (g := .next i) (by rw [hd]; rfl) rfl hf hi hx,
    SplitQueue.at_wr2 (g := .flags i) (by rw [hd]; rfl) rfl hf hi hg,
    SplitQueue.at_wr4 (g := .len i) (by rw [hd]; rfl) rfl hf hi hl,
    SplitQueue.at_wr4 (g := .addrHi i) (by rw [hd]; rfl) rfl hf hi (by omega),
    SplitQueue.at_wr4 (g := .addrLo i) (by rw [hd]; rfl) rfl hf hi (by omega)]

variable {q' : SplitQueue n} {h : Nat} {xs ids : List Nat} {bufs : List DescBuf}

/-- The list from `h` through the `next` fields. Its last `next` field leads nowhere in
particular. -/
def Follows (q : SplitQueue n) (h : Nat) : List Nat → Prop
  | [] => True
  | i :: is => h = i ∧ Follows q (q.at (.next i)) is

theorem Follows.congr (hx : Follows q h xs) (hsame : ∀ i ∈ xs, q'.at (.next i) = q.at (.next i)) :
    Follows q' h xs := by
  induction xs generalizing h with
  | nil => trivial
  | cons i xs ih =>
    rw [List.forall_mem_cons] at hsame
    refine ⟨hx.1, ?_⟩
    rw [hsame.1]
    exact ih hx.2 hsame.2

theorem Follows.walk (hn : RingSize n) (hx : Follows q h xs) (hlt : ∀ i ∈ xs, i < n) :
    q.walk xs.length h = xs := by
  induction xs generalizing h with
  | nil => rfl
  | cons i xs ih =>
    rw [List.forall_mem_cons] at hlt
    obtain ⟨rfl, hx⟩ := hx
    rw [List.length_cons, SplitQueue.walk, hn.rd_next hlt.1, ih hx hlt.2]

theorem Follows.drop {xs ys : List Nat} (hx : Follows q h (xs ++ ys)) :
    Follows q (xs.foldl (fun _ i => q.at (.next i)) h) ys := by
  induction xs generalizing h with
  | nil => exact hx
  | cons i xs ih => exact ih hx.2

theorem RingSize.popMany (hn : RingSize n) {xs ys : List Nat}
    (hx : Follows q q.freeHead (xs ++ ys)) (hlt : ∀ i ∈ xs, i < n) (hm : xs.length ≤ q.numFree) :
    q.popMany xs.length = (some xs,
      { q with freeHead := xs.foldl (fun _ i => q.at (.next i)) q.freeHead,
               numFree := q.numFree - xs.length }) := by
  induction xs generalizing q with
  | nil => rfl
  | cons i xs ih =>
    rw [List.forall_mem_cons] at hlt
    obtain ⟨hhead, hx⟩ := hx
    have hpos : q.numFree ≠ 0 := by
      rw [List.length_cons] at hm
      omega
    have hpop : q.popFree = (some i,
        { q with freeHead := q.at (.next i), numFree := q.numFree - 1 }) := by
      simp only [SplitQueue.popFree, if_neg hpos, hhead, hn.rd_next hlt.1]
    have hrest := ih (q := { q with freeHead := q.at (.next i), numFree := q.numFree - 1 })
      (Follows.congr hx fun _ _ => rfl) hlt.2
      (by rw [List.length_cons] at hm; change xs.length ≤ q.numFree - 1; omega)
    rw [List.length_cons, SplitQueue.popMany, hpop]
    dsimp only
    rw [hrest]
    dsimp only
    rw [Nat.sub_sub, Nat.add_comm 1]
    rfl

/-- The descriptors `ids` are as `add_chain` wrote them for `bufs`. -/
def Holds (q : SplitQueue n) : List Nat → List DescBuf → Prop
  | [i], [b] => DescAt q i b.addr b.len b.flags 0
  | i :: j :: ids, b :: bufs =>
    DescAt q i b.addr b.len (b.flags ||| descFNext) j ∧ Holds q (j :: ids) bufs
  | _, _ => False

theorem Holds.congr (h : Holds q ids bufs) (hsame : ∀ i ∈ ids, ∀ f, f.ofDesc i → q'.at f = q.at f) :
    Holds q' ids bufs := by
  induction ids generalizing bufs with
  | nil => exact h
  | cons i ids ih =>
    rw [List.forall_mem_cons] at hsame
    match ids, bufs, h with
    | [], [b], h => exact DescAt.congr h hsame.1
    | j :: ids, b :: bufs, h => exact ⟨h.1.congr hsame.1, ih h.2 hsame.2⟩

theorem Field.ofDesc_ne {i j : Nat} (h : f.ofDesc i) (hne : i ≠ j) : ¬ f.ofDesc j := by
  rcases h with rfl | rfl | rfl | rfl | rfl <;> simp [Field.ofDesc, hne]

theorem Field.ofDesc_valid (h : f.ofDesc i) (hi : i < n) : f.Valid n := by
  rcases h with rfl | rfl | rfl | rfl | rfl <;> exact hi

theorem RingSize.writeDesc (hn : RingSize n) (hi : i < n) (ha : addr < 2 ^ 64) (hl : len < 2 ^ 32)
    (hg : flags < 2 ^ 16) (hx : next < 2 ^ 16) :
    DescAt (q.writeDesc i addr len flags next) i addr len flags next ∧
      SameBut (Field.ofDesc i) q (q.writeDesc i addr len flags next) := by
  refine ⟨⟨?_, ?_, ?_, ?_, ?_⟩, fun f hf hp => ?_⟩
  · rw [hn.at_writeDesc (f := .addrLo i) hi ha hl hg hx hi]
    simp
  · rw [hn.at_writeDesc (f := .addrHi i) hi ha hl hg hx hi]
    simp
  · rw [hn.at_writeDesc (f := .len i) hi ha hl hg hx hi]
    simp
  · rw [hn.at_writeDesc (f := .flags i) hi ha hl hg hx hi]
    simp
  · rw [hn.at_writeDesc (f := .next i) hi ha hl hg hx hi]
    simp
  · unfold Field.ofDesc at hp
    push Not at hp
    rw [hn.at_writeDesc hi ha hl hg hx hf]
    simp [hp]

/-- The queue's own numbers, which a store leaves alone. -/
structure SameNumbers (q q' : SplitQueue n) : Prop where
  lastUsed : q'.lastUsed = q.lastUsed
  freeHead : q'.freeHead = q.freeHead
  numFree : q'.numFree = q.numFree
  eventIdx : q'.eventIdx = q.eventIdx
  lastAvail : q'.lastAvail = q.lastAvail

theorem SameNumbers.trans {q'' : SplitQueue n} (h : SameNumbers q q') (h' : SameNumbers q' q'') :
    SameNumbers q q'' :=
  ⟨h'.1.trans h.1, h'.2.trans h.2, h'.3.trans h.3, h'.4.trans h.4, h'.5.trans h.5⟩

theorem RingSize.writeChain (hn : RingSize n) (hlen : ids.length = bufs.length) (hne : ids ≠ [])
    (hnd : ids.Nodup) (hlt : ∀ i ∈ ids, i < n) (hfit : ∀ b ∈ bufs, b.Fits) :
    Holds (q.writeChain ids bufs) ids bufs ∧
      SameBut (fun f => ∃ i ∈ ids, f.ofDesc i) q (q.writeChain ids bufs) ∧
      SameNumbers q (q.writeChain ids bufs) := by
  induction ids generalizing bufs q with
  | nil => exact absurd rfl hne
  | cons i ids ih =>
    rw [List.forall_mem_cons] at hlt
    match ids, bufs with
    | [], [b] =>
      have hb := hfit b (by simp)
      obtain ⟨hd, hsame⟩ :=
        hn.writeDesc (q := q) hlt.1 hb.addr hb.len hb.flags (Nat.zero_lt_of_lt hb.flags)
      refine ⟨hd, fun f hf hp => hsame f hf fun hi => hp ⟨i, by simp, hi⟩,
        ⟨rfl, rfl, rfl, rfl, rfl⟩⟩
    | j :: ids, b :: bufs =>
      rw [List.forall_mem_cons] at hfit
      rw [List.nodup_cons] at hnd
      have hj : j < 2 ^ 16 := (hlt.2 j (by simp)).trans_le (hn.le.trans (by omega))
      have hflags : b.flags ||| descFNext < 2 ^ 16 :=
        Nat.or_lt_two_pow hfit.1.flags (by unfold descFNext; omega)
      obtain ⟨hd, hsame⟩ :=
        hn.writeDesc (q := q) hlt.1 hfit.1.addr hfit.1.len hflags hj
      obtain ⟨hh, hrest, hnum⟩ :=
        ih (q := q.writeDesc i b.addr b.len (b.flags ||| descFNext) j) 
          (by simpa using hlen) (by simp) hnd.2 hlt.2 hfit.2
      have hstore : SameNumbers q (q.writeDesc i b.addr b.len (b.flags ||| descFNext) j) :=
        ⟨rfl, rfl, rfl, rfl, rfl⟩
      have hkeep : ∀ f, f.Valid n → f.ofDesc i →
          (SplitQueue.writeChain (j :: ids) bufs
            (q.writeDesc i b.addr b.len (b.flags ||| descFNext) j)).at f =
          (q.writeDesc i b.addr b.len (b.flags ||| descFNext) j).at f := by
        refine fun f hf hi => hrest f hf ?_
        rintro ⟨k, hk, hfk⟩
        exact Field.ofDesc_ne hi (fun he => hnd.1 (he ▸ hk)) hfk
      refine ⟨⟨hd.congr fun f hf => hkeep f (Field.ofDesc_valid hf hlt.1) hf, hh⟩,
        fun f hf hp => ?_, hstore.trans hnum⟩
      have h1 : ¬ f.ofDesc i := fun hi => hp ⟨i, by simp, hi⟩
      have h2 : ¬ ∃ k ∈ j :: ids, f.ofDesc k :=
        fun ⟨k, hk, hfk⟩ => hp ⟨k, List.mem_cons_of_mem _ hk, hfk⟩
      exact (hrest f hf h2).trans (hsame f hf h1)

/-- The flags of a chain say where it ends. -/
def Leads (q : SplitQueue n) : List Nat → Prop
  | [] => False
  | [i] => q.at (.flags i) &&& descFNext = 0
  | i :: j :: ids =>
    q.at (.flags i) &&& descFNext ≠ 0 ∧ q.at (.next i) = j ∧ Leads q (j :: ids)

theorem Leads.congr (h : Leads q ids)
    (hsame : ∀ i ∈ ids, q'.at (.flags i) = q.at (.flags i) ∧ q'.at (.next i) = q.at (.next i)) :
    Leads q' ids := by
  induction ids with
  | nil => exact h
  | cons i ids ih =>
    rw [List.forall_mem_cons] at hsame
    match ids, h with
    | [], h =>
      change q'.at (.flags i) &&& descFNext = 0
      rw [hsame.1.1]
      exact h
    | j :: ids, h =>
      refine ⟨?_, ?_, ih h.2.2 hsame.2⟩
      · rw [hsame.1.1]
        exact h.1
      · rw [hsame.1.2]
        exact h.2.1

theorem Holds.leads (h : Holds q ids bufs) (hb : ∀ b ∈ bufs, b.flags &&& descFNext = 0) :
    Leads q ids := by
  induction ids generalizing bufs with
  | nil => exact h
  | cons i ids ih =>
    match ids, bufs, h with
    | [], [b], h =>
      change q.at (.flags i) &&& descFNext = 0
      rw [h.flags]
      exact hb b (by simp)
    | j :: ids, b :: bufs, h =>
      rw [List.forall_mem_cons] at hb
      refine ⟨?_, h.1.next, ih h.2 hb.2⟩
      rw [h.1.flags, Nat.and_or_distrib_right, hb.1, Nat.zero_or]
      decide

theorem RingSize.pushFree (hn : RingSize n) (hi : i < n) (hx : Follows q q.freeHead xs)
    (hxlt : ∀ j ∈ xs, j < n) (hdis : i ∉ xs) (hh : q.freeHead < 2 ^ 16) :
    Follows (q.pushFree i) (q.pushFree i).freeHead (i :: xs) ∧
      SameBut (fun f => f = .flags i ∨ f = .next i) q (q.pushFree i) := by
  refine ⟨⟨rfl, ?_⟩, fun f hf hp => ?_⟩
  · have hnext : (q.pushFree i).at (.next i) = q.freeHead := by
      rw [hn.at_pushFree (f := .next i) hi hh hi]
      simp
    rw [hnext]
    refine hx.congr fun j hj => ?_
    have hji : j ≠ i := fun he => hdis (he ▸ hj)
    rw [hn.at_pushFree (f := .next j) hi hh (hxlt j hj), if_neg (by nofun),
      if_neg (by simpa using hji)]
  · rw [not_or] at hp
    rw [hn.at_pushFree hi hh hf, if_neg hp.1, if_neg hp.2]

theorem RingSize.freeLoop (hn : RingSize n) {ids xs : List Nat} {i m : Nat}
    (hl : Leads q (i :: ids)) (hx : Follows q q.freeHead xs) (hxlt : ∀ j ∈ xs, j < n)
    (hnd : (i :: ids).Nodup) (hdis : ∀ j ∈ i :: ids, j ∉ xs) (hlt : ∀ j ∈ i :: ids, j < n)
    (hh : q.freeHead < 2 ^ 16) (hfuel : (i :: ids).length ≤ m)
    (hnum : q.numFree + (i :: ids).length < 2 ^ 16) :
    Follows (q.freeLoop m i) (q.freeLoop m i).freeHead ((i :: ids).reverse ++ xs) ∧
      (q.freeLoop m i).numFree = q.numFree + (i :: ids).length ∧
      (q.freeLoop m i).freeHead < 2 ^ 16 ∧
      SameBut (fun f => ∃ j ∈ i :: ids, f = .flags j ∨ f = .next j) q (q.freeLoop m i) ∧
      (q.freeLoop m i).lastUsed = q.lastUsed ∧ (q.freeLoop m i).eventIdx = q.eventIdx ∧
      (q.freeLoop m i).lastAvail = q.lastAvail := by
  induction ids generalizing q i m xs with
  | nil =>
    obtain ⟨m, rfl⟩ := Nat.exists_eq_succ_of_ne_zero (Nat.ne_of_gt hfuel)
    have hi : i < n := hlt i (by simp)
    have hrun : q.freeLoop (m + 1) i = q.pushFree i := by
      rw [SplitQueue.freeLoop]
      simp only [hn.rd_flags hi]
      exact if_pos hl
    obtain ⟨hfollow, hsame⟩ := hn.pushFree hi hx hxlt (hdis i (by simp)) hh
    rw [hrun]
    refine ⟨hfollow, ?_, ?_, fun f hf hp => hsame f hf fun he => hp ⟨i, by simp, he⟩, rfl, rfl, rfl⟩
    · change min (q.numFree + 1) 65535 = q.numFree + 1
      simp only [List.length_cons, List.length_nil] at hnum
      omega
    · exact hi.trans_le (hn.le.trans (by omega))
  | cons j ids ih =>
    obtain ⟨m, rfl⟩ := Nat.exists_eq_succ_of_ne_zero (Nat.ne_of_gt (Nat.zero_lt_of_lt hfuel))
    have hi : i < n := hlt i (by simp)
    obtain ⟨hflag, hnext, hl⟩ := hl
    have hrun : q.freeLoop (m + 1) i = (q.pushFree i).freeLoop m j := by
      rw [SplitQueue.freeLoop]
      simp only [hn.rd_flags hi, hn.rd_next hi, hnext]
      exact if_neg hflag
    obtain ⟨hfollow, hsame⟩ := hn.pushFree hi hx hxlt (hdis i (by simp)) hh
    rw [List.nodup_cons] at hnd
    rw [List.forall_mem_cons] at hdis hlt
    have hpush : (q.pushFree i).numFree = q.numFree + 1 := by
      change min (q.numFree + 1) 65535 = q.numFree + 1
      simp only [List.length_cons] at hnum
      omega
    have hlead : Leads (q.pushFree i) (j :: ids) := by
      refine hl.congr fun k hk => ?_
      have hki : k ≠ i := fun he => hnd.1 (he ▸ hk)
      exact ⟨hsame _ (hlt.2 k hk) (by simp [hki]), hsame _ (hlt.2 k hk) (by simp [hki])⟩
    have hnotMem : ∀ k ∈ j :: ids, k ∉ i :: xs := by
      intro k hk hmem
      rcases List.mem_cons.mp hmem with rfl | hmem
      · exact hnd.1 hk
      · exact hdis.2 k hk hmem
    obtain ⟨h1, h2, h3, h4, h5⟩ := ih hlead hfollow
      (List.forall_mem_cons.mpr ⟨hi, hxlt⟩) hnd.2 hnotMem hlt.2
      (hi.trans_le (hn.le.trans (by omega))) (by simpa using hfuel)
      (by rw [hpush]; simp only [List.length_cons] at hnum ⊢; omega)
    rw [hrun]
    refine ⟨?_, ?_, h3, fun f hf hp => ?_, h5⟩
    · rw [List.reverse_cons (a := i), List.append_assoc]
      exact h1
    · rw [h2, hpush]
      simp only [List.length_cons]
      omega
    · have hp1 : ¬ ∃ k ∈ j :: ids, f = .flags k ∨ f = .next k :=
        fun ⟨k, hk, he⟩ => hp ⟨k, List.mem_cons_of_mem _ hk, he⟩
      have hp2 : ¬ (f = .flags i ∨ f = .next i) := fun he => hp ⟨i, by simp, he⟩
      exact (h4 f hf hp1).trans (hsame f hf hp2)

end VibeOS.Virtio
