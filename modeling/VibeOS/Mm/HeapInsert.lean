import VibeOS.Mm.Heap

/-!
Inserting a block into the free list. The block is joined with the free nodes it meets, in the
order of the code: first the node before, then the one after, then the node is written and linked.
The block goes from those held by others to the free ones, and no byte of any other held block is
written.
-/
namespace VibeOS.Mm.Heap
open Lib

variable {h h' : Heap} {B : Nat × Nat} {fs l₁ l₂ held : List (Nat × Nat)}

theorem addUsize_extent {a b : Nat} {r : Nat × Nat} (h : extent r = a + b) (hr : r.2 < 2 ^ 64) :
    addUsize a b = .ok (extent r) := by
  rw [addUsize, ← h]
  exact if_pos (Nat.lt_of_le_of_lt (Nat.sub_le ..) hr)

section
variable (hsize : ∀ f ∈ l₁, h.sizeAt f.1 = extent f) (hblock : ∀ f ∈ l₁, IsBlock f) (hB : IsBlock B)
  (hBlt : B.2 < 2 ^ 64) (hle : ∀ f ∈ l₁, f.2 ≤ B.1) (hbytes : total extent l₁ ≤ h.freeBytes)
include hsize hblock hB hBlt hle hbytes

theorem mergePrev_cases :
    (mergePrev h (l₁.getLast?.map Prod.fst) B.1 (extent B) = .ok (h, B.1, extent B, false) ∧
        joinPrev l₁ B = (l₁, B)) ∨
      ∃ m p, l₁ = m ++ [p] ∧ p.2 = B.1 ∧ joinPrev l₁ B = (m, (p.1, B.2)) ∧
        mergePrev h (l₁.getLast?.map Prod.fst) B.1 (extent B) =
          .ok ({ h with freeBytes := h.freeBytes - extent p }, p.1, extent (p.1, B.2), true) := by
  rcases List.eq_nil_or_concat' l₁ with rfl | ⟨m, p, rfl⟩
  · exact .inl ⟨rfl, rfl⟩
  · have hp := hblock p (by simp)
    have hend : p.2 < 2 ^ 64 := Nat.lt_trans (Nat.lt_of_le_of_lt (hle p (by simp)) hB.lt) hBlt
    rw [joinPrev_concat, List.getLast?_concat, Option.map_some, mergePrev]
    simp only [hsize p (by simp), hp.end_eq hend, bind, Except.bind]
    by_cases hmeet : p.2 = B.1
    · have hgrow : addUsize (extent B) (extent p) = .ok (extent (p.1, B.2)) :=
        addUsize_extent ((hp.extent_join hB hmeet).trans (Nat.add_comm ..)) hBlt
      have hsub : subUsize h.freeBytes (extent p) = .ok (h.freeBytes - extent p) :=
        if_pos (Nat.le_trans (le_total extent (by simp)) hbytes)
      refine .inr ⟨m, p, rfl, hmeet, if_pos hmeet, ?_⟩
      rw [if_pos hmeet]
      simp only [hgrow, hsub, pure, Except.pure]
    · exact .inl ⟨by rw [if_neg hmeet]; rfl, if_neg hmeet⟩

theorem mergePrev_spec :
    ∃ n reusePrev, mergePrev h (l₁.getLast?.map Prod.fst) B.1 (extent B) =
        .ok ({ h with freeBytes := n }, (joinPrev l₁ B).2.1, extent (joinPrev l₁ B).2, reusePrev) ∧
      n + extent (joinPrev l₁ B).2 = h.freeBytes + extent B ∧
      n + total extent l₁ = h.freeBytes + total extent (joinPrev l₁ B).1 ∧
      (reusePrev = true ↔ l₁.getLast?.map Prod.fst = some (joinPrev l₁ B).2.1) ∧
      (((joinPrev l₁ B).1 = l₁ ∧ (joinPrev l₁ B).2.1 = B.1) ∨
        ∃ p, l₁ = (joinPrev l₁ B).1 ++ [p] ∧ p.1 = (joinPrev l₁ B).2.1) := by
  rcases mergePrev_cases hsize hblock hB hBlt hle hbytes with
    ⟨hrun, hj⟩ | ⟨m, p, rfl, hmeet, hj, hrun⟩
  · rw [hj]
    refine ⟨h.freeBytes, false, hrun, rfl, rfl,
      ⟨fun hf => (Bool.false_ne_true hf).elim, fun he => ?_⟩, .inl ⟨rfl, rfl⟩⟩
    obtain ⟨p, hp, hpB⟩ : ∃ p, l₁.getLast? = some p ∧ p.1 = B.1 := Option.map_eq_some_iff.mp he
    have h₁ := hle p (List.mem_of_getLast? hp)
    have h₂ := (hblock p (List.mem_of_getLast? hp)).lt
    omega
  · have hjoin := (hblock p (by simp)).extent_join hB hmeet
    rw [total_append, total_cons, total_nil] at hbytes
    rw [hj]
    refine ⟨_, true, hrun, ?_, ?_, ⟨fun _ => ?_, fun _ => rfl⟩, .inr ⟨p, rfl, rfl⟩⟩
    · dsimp only
      omega
    · rw [total_append, total_cons, total_nil]
      dsimp only
      omega
    · rw [List.getLast?_concat]
      rfl

end

theorem mergeNext_cases (prev : Option Nat) (hsize : ∀ f ∈ l₂, h.sizeAt f.1 = extent f)
    (hblock : ∀ f ∈ l₂, IsBlock f ∧ f.2 < 2 ^ 64) (hB : IsBlock B) (hle : ∀ f ∈ l₂, B.2 ≤ f.1)
    (hBlt : B.2 < 2 ^ 64) (hbytes : total extent l₂ ≤ h.freeBytes) :
    (mergeNext h prev (l₂.head?.map Prod.fst) B.1 (extent B) =
        .ok (h, extent B, l₂.head?.map Prod.fst) ∧ joinNext B l₂ = (B, l₂)) ∨
      ∃ n l, l₂ = n :: l ∧ B.2 = n.1 ∧ joinNext B l₂ = ((B.1, n.2), l) ∧
        mergeNext h prev (l₂.head?.map Prod.fst) B.1 (extent B) =
          .ok (unlink { h with freeBytes := h.freeBytes - extent n } prev (h.nextAt n.1),
            extent (B.1, n.2), h.nextAt n.1) := by
  cases l₂ with
  | nil => exact .inl ⟨rfl, rfl⟩
  | cons n l =>
    obtain ⟨hn, hnlt⟩ := hblock n (List.mem_cons_self ..)
    rw [joinNext, List.head?_cons, Option.map_some, mergeNext]
    simp only [hsize n (List.mem_cons_self ..), hB.end_eq hBlt, bind, Except.bind]
    by_cases hmeet : B.2 = n.1
    · have hgrow := addUsize_extent (hB.extent_join hn hmeet) hnlt
      have hsub : subUsize h.freeBytes (extent n) = .ok (h.freeBytes - extent n) :=
        if_pos (Nat.le_trans (le_total extent (List.mem_cons_self ..)) hbytes)
      refine .inr ⟨n, l, rfl, hmeet, if_pos hmeet, ?_⟩
      rw [if_pos hmeet]
      simp only [hgrow, hsub, pure, Except.pure]
    · exact .inl ⟨by rw [if_neg hmeet]; rfl, if_neg hmeet⟩

/-- `h'` is `h` but for the link that leads on from `prev`, or the head, and the count. -/
structure Touched (h h' : Heap) (prev : Option Nat) : Prop where
  size : ∀ y, 16 ∣ y → h'.sizeAt y = h.sizeAt y
  next : ∀ y, 16 ∣ y → prev ≠ some y → h'.nextAt y = h.nextAt y
  head : prev ≠ none → h'.freeHead = h.freeHead
  mem : ∀ i, (∀ p, prev = some p → i < p + 8 ∨ p + 16 ≤ i) → h'.mem i = h.mem i
  window : h'.base = h.base ∧ h'.mapped = h.mapped ∧ h'.cap = h.cap

theorem Touched.refl (h : Heap) (prev : Option Nat) (n : Nat) :
    Touched h { h with freeBytes := n } prev :=
  ⟨fun _ _ => rfl, fun _ _ _ => rfl, fun _ => rfl, fun _ _ => rfl, rfl, rfl, rfl⟩

theorem Touched.unlink {prev : Option Nat} (ht : Touched h h' prev) {v : Option Nat}
    (hprev : ∀ p, prev = some p → 16 ∣ p) (hv : ∀ n, v = some n → 0 < n ∧ n < 2 ^ 64) :
    Touched h (unlink h' prev v) prev ∧ (∀ p, prev = some p → (unlink h' prev v).nextAt p = v) ∧
      (prev = none → (unlink h' prev v).freeHead = v) ∧
      (unlink h' prev v).freeBytes = h'.freeBytes := by
  cases prev with
  | none =>
    refine ⟨⟨ht.size, ht.next, fun hn => absurd rfl hn, ht.mem, ht.window⟩, fun p hp => ?_,
      fun _ => rfl, rfl⟩
    cases hp
  | some p =>
    have hp := hprev p rfl
    refine ⟨⟨fun y hy => ?_, fun y hy hne => ?_, ht.head, fun i hi => ?_, ht.window⟩,
      fun q hq => ?_, fun hn => ?_, rfl⟩
    · exact (sizeAt_setNext h' hp hy v).trans (ht.size y hy)
    · have hyp : y ≠ p := fun e => hne (congrArg some e.symm)
      exact ((nextAt_setNext h' hp hy hv).trans (if_neg hyp)).trans (ht.next y hy hne)
    · have hi' := hi p rfl
      exact (Memory.writeLE_of_ne (by omega)).trans (ht.mem i hi)
    · obtain rfl := Option.some.inj hq
      exact (nextAt_setNext h' hp hp hv).trans (if_pos rfl)
    · cases hn

theorem mergeNext_spec {prev : Option Nat} {n : Nat} (hprev : ∀ p, prev = some p → 16 ∣ p)
    (hchain : Chained h.nextAt (l₂.head?.map Prod.fst) (l₂.map Prod.fst))
    (hsize : ∀ f ∈ l₂, h.sizeAt f.1 = extent f)
    (hblock : ∀ f ∈ l₂, IsBlock f ∧ 0 < f.1 ∧ f.2 < 2 ^ 64) (hB : IsBlock B)
    (hle : ∀ f ∈ l₂, B.2 ≤ f.1) (hBlt : B.2 < 2 ^ 64) (hbytes : total extent l₂ ≤ n) :
    ∃ g', mergeNext { h with freeBytes := n } prev (l₂.head?.map Prod.fst) B.1 (extent B) =
        .ok (g', extent (joinNext B l₂).1, (joinNext B l₂).2.head?.map Prod.fst) ∧
      Touched h g' prev ∧ g'.freeBytes + extent (joinNext B l₂).1 = n + extent B ∧
      Chained h.nextAt ((joinNext B l₂).2.head?.map Prod.fst) ((joinNext B l₂).2.map Prod.fst) ∧
      (∀ f ∈ (joinNext B l₂).2, f ∈ l₂) ∧ (joinNext B l₂).1.1 = B.1 := by
  rcases mergeNext_cases (h := { h with freeBytes := n }) prev hsize
    (fun f hf => ⟨(hblock f hf).1, (hblock f hf).2.2⟩) hB hle hBlt hbytes with
    ⟨hrun, hj⟩ | ⟨f, l, rfl, hmeet, hj, hrun⟩
  · rw [hj]
    exact ⟨_, hrun, .refl h prev n, rfl, hchain, fun _ => id, rfl⟩
  · obtain ⟨hfb, hf0, hflt⟩ := hblock f (List.mem_cons_self ..)
    have hrest : Chained h.nextAt (h.nextAt f.1) (l.map Prod.fst) := hchain.2
    have hcur : h.nextAt f.1 = l.head?.map Prod.fst := by
      rw [hrest.head, List.head?_map]
    have hv : ∀ n, l.head?.map Prod.fst = some n → 0 < n ∧ n < 2 ^ 64 := by
      intro n hn
      obtain ⟨q, hq, rfl⟩ := Option.map_eq_some_iff.mp hn
      obtain ⟨hqb, hq0, hqlt⟩ := hblock q (List.mem_cons_of_mem _ (List.mem_of_mem_head? hq))
      exact ⟨hq0, Nat.lt_trans hqb.lt hqlt⟩
    rw [show nextAt { h with freeBytes := n } f.1 = _ from hcur] at hrun
    obtain ⟨hu, -, -, hub⟩ := (Touched.refl h prev (n - extent f)).unlink hprev hv
    rw [hj]
    refine ⟨_, hrun, hu, ?_, hcur ▸ hrest, fun q hq => List.mem_cons_of_mem _ hq, rfl⟩
    have hjoin := hB.extent_join hfb hmeet
    rw [total_cons] at hbytes
    rw [hub]
    dsimp only
    omega

/-- `h'` is `h` with the node `start`, behind `prev` and in front of `cur`. -/
structure Placed (h h' : Heap) (prev cur : Option Nat) (start size : Nat) : Prop where
  size_self : h'.sizeAt start = size
  size : ∀ y, 16 ∣ y → y ≠ start → h'.sizeAt y = h.sizeAt y
  next_self : h'.nextAt start = cur
  next : ∀ y, 16 ∣ y → y ≠ start → prev ≠ some y → h'.nextAt y = h.nextAt y
  next_prev : ∀ p, prev = some p → p ≠ start → h'.nextAt p = some start
  head : prev ≠ none → h'.freeHead = h.freeHead
  head_self : prev = none → h'.freeHead = some start
  mem : ∀ i, (i < start ∨ start + 16 ≤ i) → (∀ p, prev = some p → i < p + 8 ∨ p + 16 ≤ i) →
    h'.mem i = h.mem i
  window : h'.base = h.base ∧ h'.mapped = h.mapped ∧ h'.cap = h.cap

theorem placeNode_spec {g : Heap} {prev cur : Option Nat} {start size : Nat} {reusePrev : Bool}
    (ht : Touched h g prev) (hprev : ∀ p, prev = some p → 16 ∣ p) (hdvd : 16 ∣ start)
    (hstart : 0 < start ∧ start < 2 ^ 64) (hsize : size < 2 ^ 64)
    (hcur : ∀ n, cur = some n → 0 < n ∧ n < 2 ^ 64) (hsum : g.freeBytes + size < 2 ^ 64)
    (hreuse : reusePrev = true ↔ prev = some start) :
    ∃ h', placeNode g prev cur start size reusePrev = .ok h' ∧ Placed h h' prev cur start size ∧
      h'.freeBytes = g.freeBytes + size := by
  -- the node written over `g`
  obtain ⟨k, hk⟩ : ∃ k, k = (g.setSize start size).setNext start cur := ⟨_, rfl⟩
  have hsizes : ∀ y, 16 ∣ y → k.sizeAt y = if y = start then size else h.sizeAt y := by
    intro y hy
    rw [hk, sizeAt_setNext _ hdvd hy, sizeAt_setSize _ hdvd hy hsize, ht.size y hy]
  have hnexts : ∀ y, 16 ∣ y → k.nextAt y = if y = start then cur else g.nextAt y := by
    intro y hy
    rw [hk, nextAt_setNext _ hdvd hy hcur, nextAt_setSize _ hdvd hy]
  have hmem : ∀ i, (i < start ∨ start + 16 ≤ i) → k.mem i = g.mem i := by
    intro i hi
    rw [hk]
    exact (Memory.writeLE_of_ne (by omega)).trans (Memory.writeLE_of_ne (by omega))
  have hhead : k.freeHead = g.freeHead := by rw [hk]; rfl
  have hwin : k.base = g.base ∧ k.mapped = g.mapped ∧
    k.cap = g.cap := by rw [hk]; exact ⟨rfl, rfl, rfl⟩
  have hbytes : k.freeBytes = g.freeBytes := by rw [hk]; rfl
  have hadd : addUsize k.freeBytes size = .ok (g.freeBytes + size) := by
    rw [hbytes]
    exact if_pos hsum
  cases reusePrev with
  | true =>
    obtain rfl := hreuse.mp rfl
    refine ⟨{ k with freeBytes := g.freeBytes + size }, ?_, ⟨?_, fun y hy hne => ?_, ?_,
      fun y hy hne hp => ?_, fun p hp hne => ?_, fun hn => hhead.trans (ht.head hn),
      (fun hn => by cases hn), fun i hi hp => ?_, ?_⟩, rfl⟩
    · rw [hk] at hadd ⊢
      simp only [placeNode, if_pos, hadd, bind, Except.bind, pure, Except.pure]
    · exact (hsizes start hdvd).trans (if_pos rfl)
    · exact (hsizes y hy).trans (if_neg hne)
    · exact (hnexts start hdvd).trans (if_pos rfl)
    · exact ((hnexts y hy).trans (if_neg hne)).trans (ht.next y hy hp)
    · exact absurd (Option.some.inj hp).symm hne
    · exact (hmem i hi).trans (ht.mem i hp)
    · exact ⟨hwin.1.trans ht.window.1, hwin.2.1.trans ht.window.2.1, hwin.2.2.trans ht.window.2.2⟩
  | false =>
    have hps : prev ≠ some start := fun e => Bool.false_ne_true (hreuse.mpr e)
    have hnew : ∀ n, some start = some n → 0 < n ∧ n < 2 ^ 64 := by
      rintro n hn
      cases hn
      exact hstart
    obtain ⟨hu, hlink, huhead, hubytes⟩ := (Touched.refl k prev k.freeBytes).unlink hprev hnew
    obtain ⟨k', hk'⟩ : ∃ k', k' = unlink k prev (some start) := ⟨_, rfl⟩
    have hadd' : addUsize k'.freeBytes size = .ok (g.freeBytes + size) := by
      rw [hk']
      exact (congrArg (addUsize · size) hubytes).trans hadd
    rw [show unlink { k with freeBytes := k.freeBytes } prev (some start) = k' from hk'.symm]
      at hu hlink huhead
    refine ⟨{ k' with freeBytes := g.freeBytes + size }, ?_, ⟨?_, fun y hy hne => ?_, ?_,
      fun y hy hne hp => ?_, fun p hp hne => hlink p hp, fun hn => ?_, huhead, fun i hi hp => ?_,
      ?_⟩, rfl⟩
    · rw [hk', hk] at hadd' ⊢
      simp only [placeNode, Bool.false_eq_true, if_false, hadd', bind, Except.bind, pure,
        Except.pure]
    · exact (hu.size start hdvd).trans ((hsizes start hdvd).trans (if_pos rfl))
    · exact (hu.size y hy).trans ((hsizes y hy).trans (if_neg hne))
    · exact (hu.next start hdvd hps).trans ((hnexts start hdvd).trans (if_pos rfl))
    · exact (hu.next y hy hp).trans (((hnexts y hy).trans (if_neg hne)).trans (ht.next y hy hp))
    · exact (hu.head hn).trans (hhead.trans (ht.head hn))
    · exact (hu.mem i hp).trans ((hmem i hi).trans (ht.mem i hp))
    · exact ⟨hu.window.1.trans (hwin.1.trans ht.window.1),
        hu.window.2.1.trans (hwin.2.1.trans ht.window.2.1),
        hu.window.2.2.trans (hwin.2.2.trans ht.window.2.2)⟩

theorem Placed.chain {m post : List (Nat × Nat)}
    (hp : Placed h h' (l₁.getLast?.map Prod.fst) (post.head?.map Prod.fst) B.1 (extent B))
    (hchain : Chained h.nextAt h.freeHead ((l₁ ++ l₂).map Prod.fst))
    (hpost : Chained h.nextAt (post.head?.map Prod.fst) (post.map Prod.fst))
    (hblock : ∀ f ∈ m ++ B :: post, IsBlock f) (hl₁ : ∀ f ∈ l₁, IsBlock f)
    (hsep : Separated (m ++ B :: post)) (hsep₁ : Separated l₁)
    (hcase : m = l₁ ∨ ∃ p, l₁ = m ++ [p] ∧ p.1 = B.1) :
    Chained h'.nextAt h'.freeHead ((m ++ B :: post).map Prod.fst) := by
  obtain ⟨-, hBpost, hmB⟩ := List.pairwise_append.mp hsep
  obtain ⟨hBlt, -⟩ := List.pairwise_cons.mp hBpost
  have hB := (hblock B (by simp)).lt
  have hmlt : ∀ f ∈ m, f.1 < B.1 := fun f hf =>
    Nat.lt_trans (hblock f (by simp [hf])).lt (hmB f hf B (List.mem_cons_self ..))
  have hpostlt : ∀ f ∈ post, B.1 < f.1 := fun f hf => Nat.lt_trans hB (hBlt f hf)
  -- the links behind the new node are as they were
  have hprev : ∀ p, l₁.getLast?.map Prod.fst = some p → p ≤ B.1 := by
    intro p hl
    obtain ⟨f, hf, rfl⟩ := Option.map_eq_some_iff.mp hl
    rcases hcase with rfl | ⟨q, rfl, hq⟩
    · exact Nat.le_of_lt (hmlt f (List.mem_of_getLast? hf))
    · rw [List.getLast?_concat] at hf
      obtain rfl := Option.some.inj hf
      exact Nat.le_of_eq hq
  have htail : Chained h'.nextAt (h'.nextAt B.1) (post.map Prod.fst) := by
    rw [hp.next_self]
    refine hpost.frame fun y hy => ?_
    obtain ⟨f, hf, rfl⟩ := List.mem_map.mp hy
    have hlt := hpostlt f hf
    refine hp.next _ (hblock f (by simp [hf])).start_dvd (Nat.ne_of_gt hlt) fun he => ?_
    have := hprev _ he
    omega
  rw [List.map_append] at hchain
  rw [List.map_append, List.map_cons]
  rcases hcase with rfl | ⟨p, rfl, hpB⟩
  · rcases List.eq_nil_or_concat' m with rfl | ⟨l, p, rfl⟩
    · exact ⟨hp.head_self rfl, htail⟩
    · have hlast : ((l ++ [p]).getLast?.map Prod.fst) = some p.1 := by
        rw [List.getLast?_concat]
        rfl
      have hpB : p.1 ≠ B.1 := Nat.ne_of_lt (hmlt p (by simp))
      rw [hp.head (by simp)]
      rw [List.map_append, List.map_singleton, List.append_assoc] at hchain ⊢
      refine hchain.replace (fun y hy => ?_) ?_
      · obtain ⟨f, hf, rfl⟩ := List.mem_map.mp hy
        have h₁ := (List.pairwise_append.mp hsep₁).2.2 f hf p (List.mem_singleton_self p)
        have h₂ := (hl₁ f (by simp [hf])).lt
        have h₃ := hmlt f (by simp [hf])
        refine hp.next _ (hl₁ f (by simp [hf])).start_dvd (Nat.ne_of_lt h₃) fun he => ?_
        rw [hlast] at he
        have := Option.some.inj he
        omega
      · exact ⟨hp.next_prev _ hlast hpB, htail⟩
  · have hlast : ((m ++ [p]).getLast?.map Prod.fst) = some p.1 := by
      rw [List.getLast?_concat]
      rfl
    rw [hp.head (by simp)]
    rw [List.map_append, List.map_singleton, List.append_assoc] at hchain
    rw [← hpB] at htail ⊢
    refine hchain.replace (fun y hy => ?_) htail
    obtain ⟨f, hf, rfl⟩ := List.mem_map.mp hy
    have hlt := hmlt f hf
    refine hp.next _ (hblock f (by simp [hf])).start_dvd (Nat.ne_of_lt hlt) fun he => ?_
    rw [hlast] at he
    have := Option.some.inj he
    omega

theorem Free.node_bounds (hf : Free h fs held) {f : Nat × Nat} (hm : f ∈ fs) :
    IsBlock f ∧ 0 < f.1 ∧ f.2 < 2 ^ 64 := by
  have h₁ := hf.inside (List.mem_append_left _ hm)
  have h₂ := hf.base_pos
  have h₃ := hf.stop_lt
  exact ⟨hf.block f (List.mem_append_left _ hm), by omega, by omega⟩

section
variable (hf : Free h (l₁ ++ l₂) (B :: held)) (hl₁ : ∀ f ∈ l₁, f.2 ≤ B.1)
  (hl₂ : ∀ f ∈ l₂, B.2 ≤ f.1)
include hf

theorem Free.joined_all : ∀ r ∈ insertJoining l₁ B l₂,
    IsBlock r ∧ h.base ≤ r.1 ∧ r.2 ≤ h.base + h.mapped := by
  have hin : ∀ f ∈ l₁ ++ l₂, IsBlock f ∧ h.base ≤ f.1 ∧ f.2 ≤ h.base + h.mapped := fun f hm =>
    ⟨(hf.node_bounds hm).1, hf.inside (List.mem_append_left _ hm)⟩
  obtain ⟨hin₁, hin₂⟩ := List.forall_mem_append.mp hin
  exact insertJoining_all (fun r s hr hs hmeet => ⟨hr.1.join hs.1 hmeet, hr.2.1, hs.2.2⟩)
    ⟨hf.block B (by simp), hf.inside (by simp)⟩ hin₁ hin₂

/-- A byte of another held block is in the header of no node and of no block being freed. -/
theorem Free.off_header {r : Nat × Nat} (hr : r ∈ held) {i : Nat} (hi : Within r i)
    {f : Nat × Nat} (hm : f = B ∨ f ∈ l₁ ++ l₂) : i < f.1 ∨ f.1 + 16 ≤ i := by
  obtain ⟨hapart, hle⟩ : (f.2 ≤ r.1 ∨ r.2 ≤ f.1) ∧ f.1 + 16 ≤ f.2 := by
    rcases hm with rfl | hm
    · exact ⟨hf.held_apart hr, (hf.block f (by simp)).le⟩
    · exact ⟨hf.apart hm (List.mem_cons_of_mem _ hr), (hf.node_bounds hm).1.le⟩
  obtain ⟨h₁, h₂⟩ := hi
  omega

include hl₁ hl₂

/-- The list with the block joined into it, once its node is placed. -/
theorem Free.placed {m post : List (Nat × Nat)} {C : Nat × Nat}
    (hlist : insertJoining l₁ B l₂ = m ++ C :: post)
    (hpost : Chained h.nextAt (post.head?.map Prod.fst) (post.map Prod.fst))
    (hsub : ∀ f ∈ post, f ∈ l₂)
    (hcase : m = l₁ ∧ C.1 = B.1 ∨ ∃ p, l₁ = m ++ [p] ∧ p.1 = C.1)
    (hp : Placed h h' (l₁.getLast?.map Prod.fst) (post.head?.map Prod.fst) C.1 (extent C))
    (hbytes : h'.freeBytes = total extent (m ++ C :: post)) :
    Free h' (m ++ C :: post) held ∧ ∀ r ∈ held, ∀ i, Within r i → h'.mem i = h.mem i := by
  have hB : IsBlock B := hf.block B (by simp)
  have hall := hf.joined_all
  obtain ⟨hfin₁, hfin₂⟩ := List.forall_mem_append.mp fun f => hf.node_bounds (f := f)
  have hsep : Separated (insertJoining l₁ B l₂) :=
    separated_insertJoining hf.separated hl₁ hl₂ (fun f hm => (hf.node_bounds hm).1.lt) hB.lt
  have hcover : ∀ x, cover (insertJoining l₁ B l₂) x = cover [B] x + cover (l₁ ++ l₂) x :=
    cover_insertJoining (Nat.le_of_lt hB.lt) (fun f hm => Nat.le_of_lt (hfin₁ f hm).1.lt)
      fun f hm => Nat.le_of_lt (hfin₂ f hm).1.lt
  rw [hlist] at hall hsep hcover
  have hne : ∀ f ∈ m ++ post, f.1 ≠ C.1 := by
    obtain ⟨-, hCpost, hmC⟩ := List.pairwise_append.mp hsep
    have hClt := (hall C (by simp)).1.lt
    refine List.forall_mem_append.mpr ⟨fun f hm => ?_, fun f hm => ?_⟩
    · have h₁ := hmC f hm C (List.mem_cons_self ..)
      have h₂ := (hall f (by simp [hm])).1.lt
      omega
    · have h₁ := (List.pairwise_cons.mp hCpost).1 f hm
      omega
  have hold : ∀ f ∈ m ++ post, f ∈ l₁ ++ l₂ := by
    refine List.forall_mem_append.mpr ⟨fun f hm => ?_, fun f hm =>
      List.mem_append_right _ (hsub f hm)⟩
    rcases hcase with ⟨rfl, -⟩ | ⟨p, rfl, -⟩
    · exact List.mem_append_left _ hm
    · simp [hm]
  obtain ⟨hbase, hmapped, -⟩ := hp.window
  refine ⟨⟨?_, fun f hm => ?_, hsep, fun x => ?_, fun r hr => ?_, hbytes, ?_, ?_⟩,
    fun r hr i hi => hp.mem i ?_ fun p hl => ?_⟩
  · exact hp.chain hf.chain hpost (fun f hm => (hall f hm).1) (fun f hm => (hfin₁ f hm).1) hsep
      (List.pairwise_append.mp hf.separated).1 (hcase.imp_left And.left)
  · by_cases he : f = C
    · rw [he]
      exact hp.size_self
    · have hm : f ∈ m ++ post := by simpa [he] using hm
      rw [hp.size _ (hf.node_bounds (hold f hm)).1.start_dvd (hne f hm)]
      exact hf.size f (hold f hm)
  · have hcons : cover (B :: held) x = cover [B] x + cover held x := by
      rw [← cover_append, List.singleton_append]
    have htiles := hf.tiles x
    rw [cover_append, hcons] at htiles
    rw [hbase, hmapped, ← htiles, cover_append, hcover]
    omega
  · rcases List.mem_append.mp hr with hr | hr
    · exact (hall r hr).1
    · exact hf.block r (by simp [hr])
  · rw [hbase]
    exact hf.base_pos
  · rw [hbase, hmapped]
    exact hf.stop_lt
  · rcases hcase with ⟨-, he⟩ | ⟨p, rfl, he⟩
    · exact he ▸ hf.off_header hr hi (.inl rfl)
    · exact he ▸ hf.off_header hr hi (f := p) (.inr (by simp))
  · obtain ⟨f, hl', rfl⟩ := Option.map_eq_some_iff.mp hl
    have := hf.off_header hr hi (.inr (List.mem_append_left _ (List.mem_of_getLast? hl')))
    omega

end

theorem Free.insertFree (hf : Free h fs (B :: held)) :
    ∃ h' fs', insertFree h B.1 (extent B) = .ok h' ∧ Free h' fs' held ∧
      (∀ r ∈ held, ∀ i, Within r i → h'.mem i = h.mem i) ∧
      h'.base = h.base ∧ h'.mapped = h.mapped ∧ h'.cap = h.cap := by
  have hB : IsBlock B := hf.block B (by simp)
  have hBin := hf.inside (r := B) (by simp)
  have hstop := hf.stop_lt
  have hpos := hf.base_pos
  have hBsize := hB.le
  have hguard : ¬ extent B < header := by
    simp only [extent, header]
    omega
  have hend := hB.end_eq (by omega)
  obtain ⟨l₁, l₂, rfl, hl₁, hl₂, hspot⟩ := findSpot_spec (p := none) hf.chain hf.size hf.separated
    (fun f hm => ⟨(hf.node_bounds hm).1, (hf.node_bounds hm).2.2⟩)
    (fun f hm => hf.apart hm (List.mem_cons_self ..)) hB.lt (Nat.lt_succ_of_le hf.length_le)
  rw [Option.or_none] at hspot
  obtain ⟨hfin₁, hfin₂⟩ := List.forall_mem_append.mp fun f => hf.node_bounds (f := f)
  obtain ⟨hsize₁, hsize₂⟩ := List.forall_mem_append.mp hf.size
  have hbytes := hf.bytes
  rw [total_append] at hbytes
  obtain ⟨n, reusePrev, hprev, hn, hn', hreuse, hcase⟩ := mergePrev_spec hsize₁
    (fun f hm => (hfin₁ f hm).1) hB (by omega) hl₁ (by omega)
  obtain ⟨-, hmid⟩ := joinPrev_all (P := IsBlock) (fun _ _ => IsBlock.join) hB
    fun f hm => (hfin₁ f hm).1
  obtain ⟨hmidle, hmidend⟩ := joinPrev_snd_le (b := B) fun f hm => Nat.le_of_lt (hfin₁ f hm).1.lt
  have hprevdvd : ∀ p, l₁.getLast?.map Prod.fst = some p → 16 ∣ p := by
    intro p hp
    obtain ⟨f, hm, rfl⟩ := Option.map_eq_some_iff.mp hp
    exact (hfin₁ f (List.mem_of_getLast? hm)).1.start_dvd
  have hchain₂ : Chained h.nextAt (l₂.head?.map Prod.fst) (l₂.map Prod.fst) := by
    have := hf.chain
    rw [List.map_append] at this
    rw [← List.head?_map]
    exact this.suffix
  obtain ⟨g, hnext, ht, hg, hpost, hsub, hfst⟩ := mergeNext_spec (n := n) hprevdvd hchain₂ hsize₂
    hfin₂ hmid (fun f hm => hmidend ▸ hl₂ f hm) (by omega) (by omega)
  have htotal : total extent (insertJoining l₁ B l₂) = extent B + total extent (l₁ ++ l₂) :=
    total_insertJoining (P := IsBlock) (fun _ _ => IsBlock.extent_join) (fun _ _ => IsBlock.join) hB
      (fun f hm => (hfin₁ f hm).1) fun f hm => (hfin₂ f hm).1
  have hlist : insertJoining l₁ B l₂ = (joinPrev l₁ B).1 ++ _ :: _ := rfl
  generalize joinNext (joinPrev l₁ B).2 l₂ = r at hnext hg hpost hsub hfst hlist
  obtain ⟨C, post⟩ := r
  dsimp only at hnext hg hpost hsub hfst hlist
  rw [← hfst] at hreuse hcase hnext
  have hCall := hf.joined_all C (by simp [hlist])
  have hClt := hCall.1.lt
  have htot := hf.total_le
  rw [total_cons, total_append] at htot
  obtain ⟨h', hplace, hp, hbytes'⟩ : ∃ h',
      placeNode _ _ (post.head?.map Prod.fst) _ (extent C) _ = .ok h' ∧ _ ∧ _ :=
      placeNode_spec ht hprevdvd hCall.1.start_dvd ⟨by omega, by omega⟩
    (by simp only [extent]; omega)
    (fun k hk => by
      obtain ⟨f, hm, rfl⟩ := Option.map_eq_some_iff.mp hk
      have hin := hf.joined_all f (by simp [hlist, List.mem_of_mem_head? hm])
      have := hin.1.lt
      omega)
    (by omega) hreuse
  have hrun : insertFree h B.1 (extent B) = .ok h' := by
    rw [insertFree, if_neg hguard]
    simp only [hend, bind, Except.bind, hspot, hprev, ← hfst, hnext, hplace]
  rw [total_append] at htotal
  obtain ⟨hfree, hframe⟩ := hf.placed hl₁ hl₂ hlist hpost hsub hcase hp (by
    rw [hbytes', ← hlist, htotal]
    omega)
  exact ⟨h', _, hrun, hfree, hframe, hp.window⟩

end VibeOS.Mm.Heap
