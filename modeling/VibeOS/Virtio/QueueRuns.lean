import VibeOS.Virtio.QueueSystem

/-!
Taking a used element keeps the invariant too, so it holds after every run, whatever the order of
completions and however often the indexes have wrapped.
-/
namespace VibeOS.Virtio

variable {n : Nat} {s : QueueSys n} {xs : List Nat}

theorem flatMap_middle (cs ds : List Chain) (c : Chain) :
    ((cs ++ c :: ds).flatMap Chain.ids).Perm (c.ids ++ (cs ++ ds).flatMap Chain.ids) :=
  List.perm_middle.flatMap_right Chain.ids

namespace Inv

theorem pending_iff (h : Inv s xs) (hn : RingSize n) :
    s.q.pending = 0 ↔ s.got.length = s.seen := by
  have hgot := h.got_le
  have hseen := h.seen_le
  have hplaces := h.places
  have hsize := h.chains_le
  have hle := hn.le
  rw [SplitQueue.pending, SplitQueue.rd_usedIdx, h.usedIdx, h.lastUsed]
  omega

theorem parts_free (h : Inv s xs) {cs ds : List Chain} {c : Chain}
    (hcs : s.chains = cs ++ c :: ds) :
    (c.ids.reverse ++ xs ++ (cs ++ ds).flatMap Chain.ids).Perm (List.range n) := by
  refine List.Perm.trans ?_ h.parts
  rw [hcs]
  have hback : (c.ids.reverse ++ xs).Perm (xs ++ c.ids) :=
    (List.perm_append_comm).trans ((List.reverse_perm _).append_left xs)
  refine (hback.append_right _).trans ?_
  rw [List.append_assoc]
  exact (flatMap_middle cs ds c).symm.append_left xs

theorem getUsed_next (h : Inv s xs) (hn : RingSize n) (hp : s.got.length < s.seen) :
    ∃ e c q' cs ds, s.done[s.got.length]? = some e ∧ s.q.getUsed = (some e, q') ∧
      s.chains = cs ++ c :: ds ∧ c.head = e.id ∧
      s.chains.eraseP (fun c => c.head = e.id) = cs ++ ds ∧
      Leaves (fun f => (∃ j ∈ c.ids, f = .flags j ∨ f = .next j) ∨ f = .usedEvent) s.q q'
        (c.ids.reverse ++ xs) ∧
      q'.lastUsed = (s.q.lastUsed + 1) % 2 ^ 16 ∧
      (s.q.eventIdx = true → q'.at .usedEvent = (s.q.lastUsed + 1) % 2 ^ 16) := by
  have hlt : s.got.length < s.done.length := Nat.lt_of_lt_of_le hp h.seen_le
  obtain ⟨e, he⟩ : ∃ e, s.done[s.got.length]? = some e := ⟨_, List.getElem?_eq_getElem hlt⟩
  have hslot : s.q.lastUsed % n = s.got.length % n := by
    rw [h.lastUsed, Nat.mod_mod_of_dvd _ hn.dvd]
  have hused : s.q.usedAt (s.q.lastUsed % n) = e := by
    rw [hslot]
    exact h.used _ e (Nat.le_refl _) he
  have hmem : e.id ∈ s.chains.map Chain.head := by
    rw [h.owners.mem_iff]
    refine List.mem_append_right _ (List.mem_map_of_mem ?_)
    rw [List.drop_eq_getElem_cons hlt, ← (List.getElem?_eq_some_iff.mp he).2]
    exact List.mem_cons_self
  obtain ⟨a, ha, hae⟩ := List.mem_map.mp hmem
  obtain ⟨c, cs, ds, -, hce, hcs, herase⟩ :=
    List.exists_of_eraseP (p := fun c => decide (c.head = e.id)) ha (by simpa using hae)
  have hc : c ∈ s.chains := by
    rw [hcs]
    simp
  have hcid : c.head = e.id := by simpa using hce
  obtain ⟨i, ids, hids⟩ := List.exists_cons_of_ne_nil (h.holds c hc).ids_ne
  have hi : i = e.id := by
    rw [← hcid, Chain.head, hids]
    rfl
  have hnd := (h.parts_free hcs).nodup_iff.mpr List.nodup_range
  have hfree : (c.ids ++ xs).Nodup :=
    (((List.reverse_perm _).append_right xs).nodup_iff).mp (List.nodup_append.mp hnd).1
  have hpend : s.q.pending ≠ 0 := fun hz => Nat.ne_of_lt hp ((h.pending_iff hn).mp hz)
  have hleads := (h.holds c hc).leads (h.plain c hc)
  have hmemlt : ∀ j ∈ c.ids ++ xs, j < n := fun j hj =>
    (List.mem_append.mp hj).elim (h.ids_lt hc) h.free_lt
  rw [hids] at hleads hfree hmemlt
  obtain ⟨q', hrun, hleaves, hlast, hevent⟩ :=
    hn.getUsed hpend (by rw [hused, hi]) hleads h.follows h.count
    h.head_lt hfree hmemlt
  rw [hused] at hrun
  rw [← hids] at hleaves
  exact ⟨e, c, q', cs, ds, he, hrun, hcs, hcid, herase, hleaves, hlast, hevent⟩

theorem getUsed (h : Inv s xs) (hn : RingSize n) : ∃ xs', Inv (s.step .getUsed) xs' := by
  rw [QueueSys.step]
  by_cases hp : s.q.pending = 0
  · rw [SplitQueue.getUsed_none hp]
    exact ⟨xs, h⟩
  rw [h.pending_iff hn] at hp
  have hlt : s.got.length < s.seen := Nat.lt_of_le_of_ne h.got_le hp
  obtain ⟨e, c, q', cs, ds, he, hrun, hcs, hcid, herase, hleaves, hlast, -⟩ := h.getUsed_next hn hlt
  have hkeep : ∀ f, f.Valid n → f.isDesc = false → f ≠ .usedEvent → q'.at f = s.q.at f := by
    refine fun f hf hd hne => hleaves.same f hf ?_
    rintro (⟨j, -, rfl | rfl⟩ | heq)
    · cases hd
    · cases hd
    · exact hne heq
  have hsub : ∀ d ∈ cs ++ ds, d ∈ s.chains := fun d hd => by
    rw [hcs]
    exact List.mem_append.mpr ((List.mem_append.mp hd).imp_right (List.mem_cons_of_mem c))
  have hparts := h.parts_free hcs
  have hslot : ∀ k, k % n < n := fun k => Nat.mod_lt _ hn.pos
  have hdone : s.got.length < s.done.length := Nat.lt_of_lt_of_le hlt h.seen_le
  have hget := (List.getElem?_eq_some_iff.mp he).2
  rw [hrun]
  dsimp only
  rw [herase]
  refine ⟨c.ids.reverse ++ xs, hleaves.follows, hleaves.count, hleaves.head_lt, hparts,
    fun d hd => (h.holds d (hsub d hd)).congr fun i hi f hf => ?_, fun d hd =>
    h.plain d (hsub d hd), (hkeep .availIdx trivial rfl (fun he => by cases he)).trans h.availIdx,
      h.sent_le, h.added_le, h.consumed_le,
    fun k head hk hget =>
      (hkeep (.avail _) (hslot k) rfl (fun he => by cases he)).trans (h.entries k head hk hget),
    (hkeep .usedIdx trivial rfl (fun he => by cases he)).trans h.usedIdx, h.seen_le, ?_, ?_, ?_,
    fun k e hk hget => ?_, ?_⟩
  · -- The freed descriptors are in no other chain.
    refine hleaves.same f (Field.ofDesc_valid hf (h.ids_lt (hsub d hd) hi)) ?_
    rintro (⟨j, hj, hfj⟩ | rfl)
    · have hne : j ≠ i := by
        have hnd := hparts.nodup_iff.mpr List.nodup_range
        refine (List.nodup_append.mp hnd).2.2 j ?_ i (List.mem_flatMap.mpr ⟨d, hd, hi⟩)
        exact List.mem_append_left _ (List.mem_reverse.mpr hj)
      refine Field.ofDesc_ne hf hne.symm ?_
      rcases hfj with rfl | rfl <;> simp [Field.ofDesc]
    · exact Field.not_ofDesc rfl hf
  · rw [hlast, h.lastUsed, List.length_append, List.length_singleton]
    omega
  · rw [List.length_append, List.length_singleton]
    exact hlt
  · rw [List.length_append, List.length_singleton, List.take_add_one, he, ← h.got_eq]
    rfl
  · rw [List.length_append, List.length_singleton] at hk
    exact h.used_congr (Nat.le_of_succ_le hk) hget
      (hkeep (.usedId _) (hslot k) rfl (fun he => by cases he))
      (hkeep (.usedLen _) (hslot k) rfl (fun he => by cases he))
  · have howners := h.owners
    rw [hcs, List.drop_eq_getElem_cons hdone, hget, List.map_cons, ← hcid] at howners
    rw [List.length_append, List.length_singleton]
    have hfront : ((cs ++ c :: ds).map Chain.head).Perm (c.head :: (cs ++ ds).map Chain.head) :=
      List.perm_middle.map Chain.head
    exact (hfront.symm.trans (howners.trans List.perm_middle)).cons_inv

theorem step (h : Inv s xs) (hn : RingSize n) (l : Label) : ∃ xs', Inv (s.step l) xs' := by
  cases l with
  | addChain bufs => exact h.addChain hn bufs
  | publish => exact ⟨xs, h.publish hn⟩
  | getUsed => exact h.getUsed hn
  | consume => exact ⟨xs, h.consume hn⟩
  | complete i len => exact ⟨xs, h.complete hn i len⟩
  | announce m => exact ⟨xs, h.announce hn m⟩
  | notify flags event => exact ⟨xs, h.notify hn flags event⟩

theorem run (h : Inv s xs) (hn : RingSize n) (ls : List Label) : ∃ xs', Inv (s.run ls) xs' := by
  induction ls generalizing s xs with
  | nil => exact ⟨xs, h⟩
  | cons l ls ih =>
    obtain ⟨xs', h'⟩ := h.step hn l
    exact ih h'

end Inv

/-- Who owns what in a queue and its rings. -/
structure Owned (s : QueueSys n) : Prop where
  /-- The free list and the chains in flight share the descriptors out. -/
  parts : (s.q.freeIds ++ s.chains.flatMap Chain.ids).Perm (List.range n)
  numFree : s.q.numFree + (s.chains.flatMap Chain.ids).length = n
  /-- The descriptors of a chain in flight are as `add_chain` wrote them. -/
  chains : ∀ c ∈ s.chains, Holds s.q c.ids c.bufs
  /-- So are the entries of the avail ring that the device has not read. -/
  entries : ∀ k h, s.consumed ≤ k → s.heads[k]? = some h →
    s.q.rd 2 (s.q.layout.availRing (k % 2 ^ 16)) = h
  /-- A chain in flight is with the device, still to be read by it, or completed and not yet
  returned. -/
  places : (s.chains.map Chain.head).Perm
    (s.taken ++ s.heads.drop s.consumed ++ (s.done.drop s.got.length).map UsedElem.id)
  /-- `get_used` has returned the completed elements in the order of the used ring, and returns
  the next one that the used index covers. -/
  inOrder : s.got = s.done.take s.got.length
  returns : s.q.getUsed.1 = (s.done.take s.seen)[s.got.length]?
  /-- It frees the descriptors of the element's chain and no others. -/
  frees : ∀ e, s.q.getUsed.1 = some e → ∃ c, c.head = e.id ∧
    s.chains.Perm (c :: (s.step .getUsed).chains) ∧
    (s.step .getUsed).q.freeIds = c.ids.reverse ++ s.q.freeIds

theorem Inv.owned (h : Inv s xs) (hn : RingSize n) : Owned s := by
  have hfree := h.freeIds hn
  refine ⟨hfree ▸ h.parts, ?_, h.holds, fun k head hk hget => ?_, h.owners, h.got_eq, ?_,
    fun e he => ?_⟩
  · have hlen := h.parts.length_eq
    rw [List.length_append, List.length_range, ← h.count] at hlen
    exact hlen
  · rw [hn.availRing, Nat.mod_mod_of_dvd _ hn.dvd]
    exact h.entries k head hk hget
  · by_cases hp : s.got.length = s.seen
    · rw [SplitQueue.getUsed_none ((h.pending_iff hn).mpr hp), hp]
      exact (List.getElem?_eq_none (by rw [List.length_take]; omega)).symm
    · obtain ⟨e, c, q', cs, ds, he, hrun, -⟩ :=
        h.getUsed_next hn (Nat.lt_of_le_of_ne h.got_le hp)
      rw [hrun, List.getElem?_take_of_lt (Nat.lt_of_le_of_ne h.got_le hp), he]
  · by_cases hp : s.got.length = s.seen
    · rw [SplitQueue.getUsed_none ((h.pending_iff hn).mpr hp)] at he
      cases he
    · obtain ⟨e', c, q', cs, ds, -, hrun, hcs, hcid, herase, hleaves, -⟩ :=
        h.getUsed_next hn (Nat.lt_of_le_of_ne h.got_le hp)
      rw [hrun] at he
      cases he
      refine ⟨c, hcid, ?_, ?_⟩
      · rw [QueueSys.step, hrun]
        dsimp only
        rw [herase, hcs]
        exact List.perm_middle
      · rw [QueueSys.step, hrun, hfree]
        refine hleaves.freeIds hn fun i hi => ?_
        exact List.mem_range.mp ((h.parts_free hcs).mem_iff.mp (List.mem_append_left _ hi))

/-- The free list and the chains in flight partition the descriptors after every run, what is in
flight or unread is left alone, and every completed chain comes back once and in order. -/
theorem queue_owned {k : Nat} (hk : k ≤ 15) (q : SplitQueue (2 ^ k)) (ls : List Label) :
    SplitLayout.new (2 ^ k) = some q.layout ∧ Owned ((QueueSys.start q).run ls) := by
  have hn := RingSize.two_pow hk
  obtain ⟨xs, h⟩ := (Inv.start hn q).run hn ls
  exact ⟨if_pos (isPow2U16_two_pow k), h.owned hn⟩

/-- Two chains completed in the other order, over a ring of four descriptors. -/
theorem queue_owned_outOfOrder :
    let q : SplitQueue (2 ^ 2) := ⟨Lib.Buf.zero, 0, 0, 0, true, 0⟩
    let ls := [.addChain [⟨4096, 16, 0⟩, ⟨8192, 512, 2⟩], .publish, .addChain [⟨12288, 8, 0⟩],
      .publish, .consume, .consume, .complete 1 8, .complete 0 512, .announce 2, .getUsed]
    Owned ((QueueSys.start q).run ls) ∧ ((QueueSys.start q).run ls).got = [⟨2, 8⟩] :=
  ⟨(queue_owned (by decide) _ _).2, by decide +kernel⟩

end VibeOS.Virtio
