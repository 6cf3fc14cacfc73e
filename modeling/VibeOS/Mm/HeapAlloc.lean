import VibeOS.Lib.Bits
import VibeOS.Mm.HeapInsert

/-!
Handing out blocks. A free block is unlinked and becomes held, the payload is placed in it behind
a header and a back pointer, and the rest goes back to the free list when it is large enough.
-/
namespace VibeOS.Mm.Heap
open Lib

variable {h h' : Heap} {f r : Nat × Nat} {fs l₁ l₂ held held' : List (Nat × Nat)} {x a : Nat}
  {layout : Layout}

theorem alignUp_spec (ha : ∃ e, a = 2 ^ e) (hx : x + a < 2 ^ 64) :
    ∃ u, alignUp x a = .ok u ∧ a ∣ u ∧ x ≤ u ∧ u < x + a := by
  obtain ⟨e, rfl⟩ := ha
  have hpos := Nat.two_pow_pos e
  have he : e ≤ 64 := by
    by_contra hgt
    have := Nat.pow_le_pow_right (show 0 < 2 by decide) (Nat.le_of_lt (Nat.lt_of_not_le hgt))
    omega
  have hadd : addUsize x (2 ^ e) = .ok (x + 2 ^ e) := if_pos hx
  have hsub : subUsize (x + 2 ^ e) 1 = .ok (x + 2 ^ e - 1) := if_pos (by omega)
  refine ⟨(x + 2 ^ e - 1) / 2 ^ e * 2 ^ e, ?_, Nat.dvd_mul_left _ _, ?_, ?_⟩
  · simp only [alignUp, hadd, bind, Except.bind, hsub, pure, Except.pure]
    rw [and_high_mask he (by omega)]
  · have := Nat.div_add_mod (x + 2 ^ e - 1) (2 ^ e)
    have := Nat.mod_lt (x + 2 ^ e - 1) hpos
    rw [Nat.mul_comm]
    omega
  · have := Nat.div_mul_le_self (x + 2 ^ e - 1) (2 ^ e)
    omega

/-- What `Layout` guarantees: the alignment is a power of two, and the size rounded up to it fits
`isize`. -/
structure Layout.Valid (layout : Layout) : Prop where
  pow : ∃ e, layout.align = 2 ^ e
  fits : layout.size + layout.align ≤ 2 ^ 63

theorem blockBytes_spec (hv : layout.Valid) (hpos : 0 < layout.size) :
    ∃ need, blockBytes layout = .ok need ∧ header + backptr + layout.size + layout.align ≤
      need := by
  have hfits := hv.fits
  have h₁ : addUsize (header + backptr) layout.size = .ok (header + backptr + layout.size) := by
    refine if_pos ?_
    simp only [header, backptr]
    omega
  have h₂ : addUsize (header + backptr + layout.size) layout.align =
      .ok (header + backptr + layout.size + layout.align) := by
    refine if_pos ?_
    simp only [header, backptr]
    omega
  obtain ⟨u, hu, -, hle, -⟩ := alignUp_spec (x := header + backptr + layout.size + layout.align)
    (a := headerAlign) ⟨4, rfl⟩ (by simp only [header, backptr, headerAlign]; omega)
  refine ⟨u, ?_, hle⟩
  rw [blockBytes, if_neg (Nat.ne_of_gt hpos)]
  simp only [h₁, h₂, bind, Except.bind, hu]

namespace Free

theorem perm (hf : Free h fs held) (hp : held'.Perm held) : Free h fs held' :=
  ⟨hf.chain, hf.size, hf.separated, hf.tiles.perm (hp.append_left fs),
    fun r hr => hf.block r ((hp.append_left fs).subset hr), hf.bytes, hf.base_pos, hf.stop_lt⟩

theorem write {m : Memory} (hf : Free h fs held)
    (hm : ∀ i, (∀ r ∈ held, ¬ Within r i) → m i = h.mem i) : Free { h with mem := m } fs held := by
  have hbytes : ∀ f ∈ fs, ∀ i, f.1 ≤ i → i < f.1 + 16 → m i = h.mem i := by
    intro f hfs i h₁ h₂
    refine hm i fun r hr hi => ?_
    have hle := (hf.block f (List.mem_append_left _ hfs)).le
    have hap := hf.apart hfs hr
    obtain ⟨h₃, h₄⟩ := hi
    omega
  have hsize : ∀ f ∈ fs, m.readLE 8 f.1 = h.mem.readLE 8 f.1 := fun f hfs =>
    Memory.readLE_congr fun i hi => hbytes f hfs _ (by omega) (by omega)
  have hnext : ∀ f ∈ fs, m.readLE 8 (f.1 + 8) = h.mem.readLE 8 (f.1 + 8) := fun f hfs =>
    Memory.readLE_congr fun i hi => hbytes f hfs _ (by omega) (by omega)
  refine ⟨hf.chain.frame fun y hy => ?_, fun f hfs => ?_, hf.separated, hf.tiles, hf.block,
    hf.bytes, hf.base_pos, hf.stop_lt⟩
  · obtain ⟨f, hfs, rfl⟩ := List.mem_map.mp hy
    change (if m.readLE 8 (f.1 + 8) = 0 then none else some (m.readLE 8 (f.1 + 8))) = _
    rw [hnext f hfs]
    rfl
  · exact (hsize f hfs).trans (hf.size f hfs)

theorem split {a b c : Nat} (hf : Free h fs ((a, c) :: held)) (hab : a < b) (hbc : b < c)
    (hb : 16 ∣ b) : Free h fs ((b, c) :: (a, b) :: held) := by
  have hblock : IsBlock (a, c) := hf.block (a, c) (by simp)
  refine ⟨hf.chain, hf.size, hf.separated, fun x => ?_, fun r hr => ?_, hf.bytes, hf.base_pos,
    hf.stop_lt⟩
  · rw [← hf.tiles x, cover_append, cover_append]
    have hsplit := within_split (Nat.le_of_lt hab) (Nat.le_of_lt hbc) x
    simp only [cover_cons]
    omega
  · simp only [List.mem_append, List.mem_cons] at hr
    rcases hr with hr | rfl | rfl | hr
    · exact hf.block r (by simp [hr])
    · exact ⟨hbc, hb, hblock.stop_dvd⟩
    · exact ⟨hab, hblock.start_dvd, hb⟩
    · exact hf.block r (by simp [hr])

theorem unlinked {g : Heap} (hf : Free h (l₁ ++ f :: l₂) held)
    (ht : Touched h g (l₁.getLast?.map Prod.fst))
    (hlink : ∀ p, l₁.getLast?.map Prod.fst = some p → g.nextAt p = h.nextAt f.1)
    (hhead : l₁.getLast?.map Prod.fst = none → g.freeHead = h.nextAt f.1) :
    Chained g.nextAt g.freeHead ((l₁ ++ l₂).map Prod.fst) := by
  have hblock : ∀ q ∈ l₁ ++ f :: l₂, IsBlock q := fun q hq => hf.block q (List.mem_append_left _ hq)
  obtain ⟨hsep₁, -, hsep₁₂⟩ := List.pairwise_append.mp hf.separated
  have hchain := hf.chain
  rw [List.map_append, List.map_cons] at hchain
  have htail : Chained g.nextAt (h.nextAt f.1) (l₂.map Prod.fst) := by
    refine hchain.drop.frame fun y hy => ?_
    obtain ⟨q, hq, rfl⟩ := List.mem_map.mp hy
    refine ht.next _ (hblock q (by simp [hq])).start_dvd fun he => ?_
    obtain ⟨s, hs, hsq⟩ := Option.map_eq_some_iff.mp he
    have hsm := List.mem_of_getLast? hs
    have h₁ := hsep₁₂ s hsm q (List.mem_cons_of_mem _ hq)
    have h₂ := (hblock s (List.mem_append_left _ hsm)).lt
    omega
  rw [List.map_append]
  rcases List.eq_nil_or_concat' l₁ with rfl | ⟨m, p, rfl⟩
  · rw [hhead rfl]
    exact htail
  · have hlast : (m ++ [p]).getLast?.map Prod.fst = some p.1 := by
      rw [List.getLast?_concat]
      rfl
    have htail' : Chained g.nextAt (g.nextAt p.1) (l₂.map Prod.fst) := by
      rw [hlink p.1 hlast]
      exact htail
    rw [ht.head (by simp)]
    rw [List.map_append, List.map_singleton, List.append_assoc] at hchain ⊢
    refine hchain.replace (fun y hy => ?_) htail'
    obtain ⟨q, hq, rfl⟩ := List.mem_map.mp hy
    have h₁ := (List.pairwise_append.mp hsep₁).2.2 q hq p (List.mem_singleton_self p)
    have h₂ := (hblock q (by simp [hq])).lt
    refine ht.next _ (hblock q (by simp [hq])).start_dvd fun he => ?_
    rw [hlast] at he
    have := Option.some.inj he
    omega

theorem grab (hf : Free h (l₁ ++ f :: l₂) held) :
    ∃ g, unlink h (l₁.getLast?.map Prod.fst) (h.nextAt f.1) = g ∧ g.freeBytes = h.freeBytes ∧
      Free { g with freeBytes := h.freeBytes - extent f } (l₁ ++ l₂) (f :: held) ∧
      (∀ r ∈ held, ∀ i, Within r i → g.mem i = h.mem i) ∧
      g.base = h.base ∧ g.mapped = h.mapped ∧ g.cap = h.cap := by
  have hblock : ∀ q ∈ l₁ ++ f :: l₂, IsBlock q := fun q hq => hf.block q (List.mem_append_left _ hq)
  have hsub : ∀ q ∈ l₁ ++ l₂, q ∈ l₁ ++ f :: l₂ := by
    intro q hq
    rw [List.mem_append] at hq ⊢
    exact hq.imp_right (List.mem_cons_of_mem _)
  have hperm : (l₁ ++ l₂ ++ f :: held).Perm (l₁ ++ f :: l₂ ++ held) := by
    rw [List.append_assoc, List.append_assoc, List.cons_append]
    exact List.perm_middle.append_left l₁
  obtain ⟨hsep₁, hsep₂, hsep₁₂⟩ := List.pairwise_append.mp hf.separated
  have hprev : ∀ p, l₁.getLast?.map Prod.fst = some p → 16 ∣ p := by
    intro p hp
    obtain ⟨q, hq, rfl⟩ := Option.map_eq_some_iff.mp hp
    exact (hblock q (List.mem_append_left _ (List.mem_of_getLast? hq))).start_dvd
  have hv : ∀ n, h.nextAt f.1 = some n → 0 < n ∧ n < 2 ^ 64 := by
    intro n hn
    have hchain := hf.chain
    rw [List.map_append, List.map_cons] at hchain
    rw [hchain.drop.head, List.head?_map] at hn
    obtain ⟨q, hq, rfl⟩ := Option.map_eq_some_iff.mp hn
    have hq' : q ∈ l₁ ++ f :: l₂ := by simp [List.mem_of_mem_head? hq]
    have h₁ := hf.inside (List.mem_append_left _ hq')
    have h₂ := (hblock q hq').lt
    have h₃ := hf.base_pos
    have h₄ := hf.stop_lt
    omega
  have hself : Touched h h (l₁.getLast?.map Prod.fst) := Touched.refl h _ h.freeBytes
  obtain ⟨ht, hlink, hhead, hbytes⟩ := hself.unlink hprev hv
  obtain ⟨g, hg⟩ : ∃ g, unlink h (l₁.getLast?.map Prod.fst) (h.nextAt f.1) = g := ⟨_, rfl⟩
  rw [hg] at ht hlink hhead hbytes
  obtain ⟨hbase, hmapped, hcap⟩ := ht.window
  have hchain := hf.unlinked ht hlink hhead
  refine ⟨g, hg, hbytes, ⟨hchain, fun q hq => ?_, ?_, fun x => ?_,
    fun q hq => hf.block q (hperm.subset hq), ?_, ?_, ?_⟩, fun r hr i hi => ?_, hbase,
    hmapped, hcap⟩
  · exact (ht.size _ (hblock q (hsub q hq)).start_dvd).trans (hf.size q (hsub q hq))
  · exact List.pairwise_append.mpr ⟨hsep₁, (List.pairwise_cons.mp hsep₂).2,
      fun q hq s hs => hsep₁₂ q hq s (List.mem_cons_of_mem _ hs)⟩
  · change _ = cover [(g.base, g.base + g.mapped)] x
    rw [hbase, hmapped, ← hf.tiles x]
    exact cover_perm hperm x
  · change h.freeBytes - extent f = _
    have := hf.bytes
    rw [total_append, total_cons] at this
    rw [total_append]
    omega
  · change 0 < g.base
    rw [hbase]
    exact hf.base_pos
  · change g.base + g.mapped < _
    rw [hbase, hmapped]
    exact hf.stop_lt
  · refine ht.mem i fun p hp => ?_
    obtain ⟨s, hs, rfl⟩ := Option.map_eq_some_iff.mp hp
    have hsm : s ∈ l₁ ++ f :: l₂ := List.mem_append_left _ (List.mem_of_getLast? hs)
    have h₁ := hf.apart hsm hr
    have h₂ := (hblock s hsm).le
    obtain ⟨h₃, h₄⟩ := hi
    omega

theorem search (hf : Free h fs held) (need : Nat) :
    (searchChain h.nextAt (fun n => decide (need ≤ h.sizeAt n)) (h.mapped + 1) none h.freeHead =
        some none ∧ ∀ f ∈ fs, extent f < need) ∨
      ∃ l₁ f l₂, fs = l₁ ++ f :: l₂ ∧ need ≤ extent f ∧
        searchChain h.nextAt (fun n => decide (need ≤ h.sizeAt n)) (h.mapped + 1) none h.freeHead =
          some (some (l₁.getLast?.map Prod.fst, f.1)) := by
  have hfuel : (fs.map Prod.fst).length < h.mapped + 1 := by
    rw [List.length_map]
    exact Nat.lt_succ_of_le hf.length_le
  rcases searchChain_eq (p := fun n => decide (need ≤ h.sizeAt n)) hf.chain hfuel with
    ⟨hs, hnone⟩ | ⟨m₁, y, m₂, hsplit, hy, -, hs⟩
  · refine .inl ⟨hs, fun f hm => ?_⟩
    rw [← hf.size f hm]
    exact Nat.lt_of_not_le (of_decide_eq_false (hnone _ (List.mem_map_of_mem hm)))
  · obtain ⟨l₁, q, rfl, hl₁, hq⟩ := List.map_eq_append_iff.mp hsplit
    obtain ⟨f, l₂, rfl, rfl, -⟩ := List.map_eq_cons_iff.mp hq
    refine .inr ⟨l₁, f, l₂, rfl, ?_, ?_⟩
    · have := of_decide_eq_true hy
      rwa [hf.size f (by simp)] at this
    · rw [hs, ← hl₁, Option.or_none, List.getLast?_map]

theorem writeHeader {user n : Nat} (hf : Free h fs (f :: held)) (hlo : f.1 + 24 ≤ user)
    (hhi : user ≤ f.2) (hn : n < 2 ^ 64) :
    Free ({ h with mem := h.mem.writeLE 8 (user - 8) (user - f.1) }.setSize f.1 n) fs (f :: held) ∧
      ({ h with mem := h.mem.writeLE 8 (user - 8) (user - f.1) }.setSize f.1 n).mem.readLE 8 f.1 =
      n ∧
      ({ h with mem := h.mem.writeLE 8 (user - 8) (user - f.1) }.setSize f.1 n).mem.readLE 8
        (user - 8) = user - f.1 ∧
      ∀ r ∈ held, ∀ i, Within r i →
        ({ h with mem := h.mem.writeLE 8 (user - 8) (user - f.1) }.setSize f.1 n).mem i =
        h.mem i := by
  have hin := hf.inside (r := f) (by simp)
  have hstop := hf.stop_lt
  have hout : ∀ i, i < f.1 ∨ f.2 ≤ i →
      ((h.mem.writeLE 8 (user - 8) (user - f.1)).writeLE 8 f.1 n) i = h.mem i := fun i hi =>
    (Memory.writeLE_of_ne (by omega)).trans (Memory.writeLE_of_ne (by omega))
  refine ⟨hf.write fun i hi => hout i ?_, Memory.readLE_writeLE hn, ?_, fun r hr i hi => hout i ?_⟩
  · have := hi f (List.mem_cons_self ..)
    unfold Within at this
    omega
  · refine (Memory.readLE_writeLE_of_ne (by omega)).trans (Memory.readLE_writeLE ?_)
    have : (256 : Nat) ^ 8 = 2 ^ 64 := by decide
    omega
  · have := hf.held_apart hr
    obtain ⟨h₁, h₂⟩ := hi
    omega

theorem writeSize {n : Nat} (hf : Free h fs (f :: held)) :
    Free (h.setSize f.1 n) fs (f :: held) ∧
      ∀ i, (i < f.1 ∨ f.1 + 8 ≤ i) → (h.setSize f.1 n).mem i = h.mem i := by
  have hle := (hf.block f (by simp)).le
  refine ⟨hf.write fun i hi => Memory.writeLE_of_ne ?_, fun i hi => Memory.writeLE_of_ne hi⟩
  have := hi f (List.mem_cons_self ..)
  unfold Within at this
  omega

theorem giveTail {used : Nat} (hf : Free h fs (f :: held)) (hpos : 0 < used) (hdvd : 16 ∣ used)
    (hlt : used < extent f) :
    ∃ h' fs', Heap.insertFree h (f.1 + used) (extent f - used) = .ok h' ∧
      Free h' fs' ((f.1, f.1 + used) :: held) ∧
      (∀ r ∈ (f.1, f.1 + used) :: held, ∀ i, Within r i → h'.mem i = h.mem i) ∧
      h'.base = h.base ∧ h'.mapped = h.mapped ∧ h'.cap = h.cap := by
  have hfb := hf.block f (by simp)
  have hmid : f.1 + used < f.2 := by
    unfold extent at hlt
    omega
  have hcut : Free h fs ((f.1 + used, f.2) :: (f.1, f.1 + used) :: held) :=
    Free.split (c := f.2) hf (by omega) hmid ((Nat.dvd_add_right hfb.start_dvd).mpr hdvd)
  obtain ⟨h', fs', hrun, hfree, hframe, hwin⟩ := hcut.insertFree
  have hext : extent (f.1 + used, f.2) = extent f - used := by
    simp only [extent]
    omega
  rw [hext] at hrun
  exact ⟨h', fs', hrun, hfree, hframe, hwin⟩

/-- A payload placed in a held block: the block keeps what the payload needs, and the rest is free
again when it is worth a block. -/
theorem carve (hf : Free h fs (f :: held)) (hv : layout.Valid) (hpos : 0 < layout.size)
    (hroom : header + backptr + layout.size + layout.align ≤ extent f) :
    ∃ user stop h' fs', Heap.carve h f.1 (extent f) layout = .ok (user, h') ∧
      Free h' fs' ((f.1, stop) :: held) ∧ layout.align ∣ user ∧ f.1 + 24 ≤ user ∧
      user + layout.size ≤ stop ∧ h'.mem.readLE 8 f.1 = stop - f.1 ∧
      h'.mem.readLE 8 (user - 8) = user - f.1 ∧
      (∀ r ∈ held, ∀ i, Within r i → h'.mem i = h.mem i) ∧
      h'.base = h.base ∧ h'.mapped = h.mapped ∧ h'.cap = h.cap := by
  have hfb := hf.block f (by simp)
  have hin := hf.inside (r := f) (by simp)
  have hstop := hf.stop_lt
  have hbase := hf.base_pos
  have hflt := hfb.lt
  have hf16 : 16 ≤ f.1 := Nat.le_of_dvd (by omega) hfb.start_dvd
  have hext : extent f = f.2 - f.1 := rfl
  simp only [header, backptr] at hroom
  have hfirst : addUsize f.1 (header + backptr) = .ok (f.1 + 24) := if_pos (by
    simp only [header, backptr]
    omega)
  obtain ⟨user, huser, halign, hge, hlt⟩ := alignUp_spec (x := f.1 + 24) hv.pow (by omega)
  have hpay : addUsize user layout.size = .ok (user + layout.size) := if_pos (by omega)
  have hend := hfb.end_eq (by omega)
  have hback : subUsize user backptr = .ok (user - 8) := if_pos (by
    simp only [backptr]
    omega)
  obtain ⟨used, hused, hdvd, hule, hult⟩ := alignUp_spec (x := user + layout.size - f.1)
    (a := headerAlign) ⟨4, rfl⟩ (by simp only [headerAlign]; omega)
  have hused_le : used ≤ extent f := by
    obtain ⟨m, hm⟩ := hfb.start_dvd
    obtain ⟨n, hn⟩ := hfb.stop_dvd
    obtain ⟨q, hq⟩ := hdvd
    simp only [headerAlign] at hult hq
    omega
  have htail : subUsize (extent f) used = .ok (extent f - used) := if_pos hused_le
  have hpast : ¬ f.2 < user + layout.size := by omega
  have hback' : ¬ user - 8 < f.1 + header := by
    simp only [header]
    omega
  by_cases hsplit : minSplit ≤ extent f - used
  · have hused_lt : used < extent f := by
      simp only [minSplit, header, backptr] at hsplit
      omega
    obtain ⟨hw, hsize, hbk, hkeep⟩ := hf.writeHeader (n := used) hge (by omega) (by omega)
    obtain ⟨h', fs', hrun, hfree, hframe, hwin⟩ := hw.giveTail (by omega) hdvd hused_lt
    have hown : ∀ i, f.1 ≤ i → i < f.1 + used → h'.mem i = _ := fun i h₁ h₂ =>
      hframe (f.1, f.1 + used) (List.mem_cons_self ..) i ⟨h₁, h₂⟩
    refine ⟨user, f.1 + used, h', fs', ?_, hfree, halign, hge, by omega, ?_, ?_,
      fun r hr i hi => ?_, hwin⟩
    · simp only [Heap.carve, hfirst, huser, hpay, hend, hback, bind, Except.bind, if_neg hpast,
        if_neg hback', hused, htail, if_pos hsplit, hrun, pure, Except.pure]
    · rw [Memory.readLE_congr fun i hi => hown _ (by omega) (by omega), hsize]
      omega
    · rw [Memory.readLE_congr fun i hi => hown _ (by omega) (by omega), hbk]
    · exact (hframe r (List.mem_cons_of_mem _ hr) i hi).trans (hkeep r hr i hi)
  · obtain ⟨hw, hsize, hbk, hkeep⟩ := hf.writeHeader (n := extent f) hge (by omega) (by omega)
    refine ⟨user, f.2, _, fs, ?_, hw, halign, hge, by omega, hsize, hbk, hkeep, rfl, rfl, rfl⟩
    simp only [Heap.carve, hfirst, huser, hpay, hend, hback, bind, Except.bind, if_neg hpast,
      if_neg hback', hused, htail, if_neg hsplit, pure, Except.pure]

end Free
end VibeOS.Mm.Heap
