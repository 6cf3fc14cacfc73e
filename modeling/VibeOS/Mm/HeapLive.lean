import VibeOS.Mm.HeapAlloc

/-!
Live payloads. Each payload a caller holds lies in a block of its own, which its back pointer
leads to and whose size is at its start; the blocks of the live payloads are the ones that are not
free. Allocation adds a payload, deallocation takes one away and reallocation exchanges one, and
none of them touches the block of another.
-/
namespace VibeOS.Mm.Heap
open Lib

variable {h h' : Heap} {m m' : Memory} {fs : List (Nat × Nat)} {ptr : Nat} {layout : Layout}

/-- A payload in the hands of a caller. -/
structure Live where
  ptr : Nat
  layout : Layout
  deriving DecidableEq, Repr

/-- The block the back pointer of a payload leads to. -/
def blockOf (m : Memory) (ptr : Nat) : Nat × Nat :=
  (ptr - m.readLE 8 (ptr - 8),
    ptr - m.readLE 8 (ptr - 8) + m.readLE 8 (ptr - m.readLE 8 (ptr - 8)))

variable {L : Live} {live : List Live}

/-- A payload inside its block, aligned, behind the header and the back pointer. -/
structure Kept (m : Memory) (L : Live) : Prop where
  pos : 0 < L.layout.size
  valid : L.layout.Valid
  aligned : L.layout.align ∣ L.ptr
  back : m.readLE 8 (L.ptr - 8) ≤ L.ptr
  room : (blockOf m L.ptr).1 + 24 ≤ L.ptr
  fits : L.ptr + L.layout.size ≤ (blockOf m L.ptr).2

theorem Kept.of_block {start stop : Nat} (hpos : 0 < L.layout.size) (hv : L.layout.Valid)
    (ha : L.layout.align ∣ L.ptr) (hroom : start + 24 ≤ L.ptr)
    (hfits : L.ptr + L.layout.size ≤ stop) (hsize : m.readLE 8 start = stop - start)
    (hback : m.readLE 8 (L.ptr - 8) = L.ptr - start) :
    blockOf m L.ptr = (start, stop) ∧ Kept m L := by
  have hblock : blockOf m L.ptr = (start, stop) := by
    have hstart : L.ptr - (L.ptr - start) = start := by omega
    have hstop : start + (stop - start) = stop := by omega
    rw [blockOf, hback, hstart, hsize, hstop]
  refine ⟨hblock, hpos, hv, ha, ?_, ?_, ?_⟩
  · rw [hback]
    exact Nat.sub_le _ _
  · rw [hblock]
    exact hroom
  · rw [hblock]
    exact hfits

namespace Kept

theorem words (hk : Kept m L) :
    ∃ start stop, blockOf m L.ptr = (start, stop) ∧ start + 24 ≤ L.ptr ∧
      L.ptr + L.layout.size ≤ stop ∧ m.readLE 8 start = stop - start ∧
      m.readLE 8 (L.ptr - 8) = L.ptr - start := by
  refine ⟨_, _, rfl, hk.room, hk.fits, ?_, ?_⟩
  · rw [Nat.add_sub_cancel_left]
  · have := hk.back
    omega

theorem frame (hk : Kept m L) (hm : ∀ i, Within (blockOf m L.ptr) i → i < L.ptr → m' i = m i) :
    blockOf m' L.ptr = blockOf m L.ptr ∧ Kept m' L := by
  obtain ⟨start, stop, hblock, hroom, hfits, hsize, hback⟩ := hk.words
  rw [hblock] at hm ⊢
  have hpos := hk.pos
  have hword : ∀ a, start ≤ a → a + 8 ≤ L.ptr → m'.readLE 8 a = m.readLE 8 a := fun a h₁ h₂ =>
    Memory.readLE_congr fun i hi => hm _ ⟨by simp only; omega, by simp only; omega⟩ (by omega)
  refine of_block hpos hk.valid hk.aligned hroom hfits ?_ ?_
  · rw [hword start (by omega) (by omega), hsize]
  · rw [hword (L.ptr - 8) (by omega) (by omega), hback]

end Kept

/-- The free blocks and the blocks of the live payloads make up the window. -/
structure Inv (h : Heap) (fs : List (Nat × Nat)) (live : List Live) : Prop where
  free : Free h fs (live.map fun L => blockOf h.mem L.ptr)
  kept : ∀ L ∈ live, Kept h.mem L

namespace Inv

theorem perm {live' : List Live} (hi : Inv h fs live) (hp : live'.Perm live) : Inv h fs live' :=
  ⟨hi.free.perm (hp.map _), fun L hL => hi.kept L (hp.subset hL)⟩

theorem kept_frame (hkept : ∀ L ∈ live, Kept m L)
    (hm : ∀ L ∈ live, ∀ i, Within (blockOf m L.ptr) i → m' i = m i) :
    (live.map fun L => blockOf m' L.ptr) = (live.map fun L => blockOf m L.ptr) ∧
      ∀ L ∈ live, Kept m' L :=
  ⟨List.map_congr_left fun L hL => ((hkept L hL).frame fun i hw _ => hm L hL i hw).1,
    fun L hL => ((hkept L hL).frame fun i hw _ => hm L hL i hw).2⟩

theorem blocks_apart {M : Live} (hi : Inv h fs live) (hL : L ∈ live) (hM : M ∈ live) (hne : L ≠ M) :
    (blockOf h.mem L.ptr).2 ≤ (blockOf h.mem M.ptr).1 ∨
      (blockOf h.mem M.ptr).2 ≤ (blockOf h.mem L.ptr).1 := by
  have hperm : live.Perm (L :: live.erase L) := List.perm_cons_erase hL
  have hM' : M ∈ live.erase L := (List.mem_erase_of_ne hne.symm).mpr hM
  have hfree := (hi.perm hperm.symm).free
  rw [List.map_cons] at hfree
  exact hfree.held_apart (List.mem_map.mpr ⟨M, hM', rfl⟩)

theorem block_mem (hL : L ∈ live) :
    blockOf h.mem L.ptr ∈ live.map fun L => blockOf h.mem L.ptr :=
  List.mem_map.mpr ⟨L, hL, rfl⟩

theorem recover (hi : Inv h fs live) (hL : L ∈ live) :
    recover h L.ptr = .ok ((blockOf h.mem L.ptr).1, extent (blockOf h.mem L.ptr)) := by
  obtain ⟨start, stop, hblock, hroom, hfits, hsize, hback⟩ := (hi.kept L hL).words
  rw [hblock]
  have hsub : subUsize L.ptr backptr = .ok (L.ptr - 8) := if_pos (by
    simp only [backptr]
    omega)
  have hstart : subUsize L.ptr (L.ptr - start) = .ok start := by
    have he : L.ptr - (L.ptr - start) = start := by omega
    rw [subUsize, if_pos (Nat.sub_le _ _), he]
  have hoff : ¬ L.ptr - start < header + backptr := by
    simp only [header, backptr]
    omega
  have hlong : ¬ stop - start < L.ptr - start := by omega
  simp only [Heap.recover, hsub, bind, Except.bind, hback, if_neg hoff, hstart, hsize, if_neg hlong,
    pure, Except.pure]
  rfl

theorem alloc (hi : Inv h fs live) (hv : layout.Valid) (hpos : 0 < layout.size) :
    ∃ need, blockBytes layout = .ok need ∧
      ((alloc h layout = .ok (0, h) ∧ ∀ f ∈ fs, extent f < need) ∨
        (∃ f ∈ fs, need ≤ extent f) ∧
        ∃ p h' fs', alloc h layout = .ok (p, h') ∧ p ≠ 0 ∧ Inv h' fs' (⟨p, layout⟩ :: live) ∧
          (∀ L ∈ live, ∀ i, Within (blockOf h.mem L.ptr) i → h'.mem i = h.mem i) ∧
          h'.base = h.base ∧ h'.mapped = h.mapped ∧ h'.cap = h.cap) := by
  obtain ⟨need, hneed, hge⟩ := blockBytes_spec hv hpos
  refine ⟨need, hneed, ?_⟩
  have hbody : Heap.alloc h layout = _ := if_neg (Nat.ne_of_gt hpos)
  simp only [hneed, bind, Except.bind] at hbody
  rcases hi.free.search need with ⟨hs, hnone⟩ | ⟨l₁, f, l₂, rfl, hf, hs⟩
  · exact .inl ⟨by rw [hbody, hs]; rfl, hnone⟩
  · obtain ⟨g, hg, hbytes, hgrab, hframe, hwin⟩ := hi.free.grab
    obtain ⟨user, stop, h', fs', hcarve, hfree, halign, hroom, hfits, hsize, hback, hkeep, hwin'⟩ :=
      hgrab.carve hv hpos (Nat.le_trans hge hf)
    have hmem : ∀ L ∈ live, ∀ i, Within (blockOf h.mem L.ptr) i → h'.mem i = h.mem i := by
      intro L hL i hw
      exact (hkeep _ (block_mem hL) i hw).trans (hframe _ (block_mem hL) i hw)
    obtain ⟨hmap, hkept⟩ := kept_frame hi.kept hmem
    obtain ⟨hblock, hnew⟩ :=
      Kept.of_block (L := ⟨user, layout⟩) hpos hv halign hroom hfits hsize hback
    have hsizef : h.sizeAt f.1 = extent f := hi.free.size f (by simp)
    have hsub : subUsize g.freeBytes (extent f) = .ok (h.freeBytes - extent f) := by
      rw [hbytes]
      refine if_pos ?_
      rw [hi.free.bytes]
      exact le_total extent (by simp)
    refine .inr ⟨⟨f, by simp, hf⟩, user, h', fs', ?_, by omega,
      ⟨?_, List.forall_mem_cons.mpr ⟨hnew, hkept⟩⟩, hmem, hwin'.1.trans hwin.1,
      hwin'.2.1.trans hwin.2.1, hwin'.2.2.trans hwin.2.2⟩
    · rw [hbody, hs]
      simp only [hsizef, hg, hsub, hcarve]
    · rw [List.map_cons, hblock, hmap]
      exact hfree

theorem dealloc (hi : Inv h fs (L :: live)) :
    ∃ h' fs', dealloc h L.ptr L.layout = .ok h' ∧ Inv h' fs' live ∧
      (∀ M ∈ live, ∀ i, Within (blockOf h.mem M.ptr) i → h'.mem i = h.mem i) ∧
      h'.base = h.base ∧ h'.mapped = h.mapped ∧ h'.cap = h.cap := by
  have hk := hi.kept L (List.mem_cons_self ..)
  have hguard : ¬ (L.layout.size = 0 ∨ L.ptr = 0) := by
    have h₁ := hk.pos
    have h₂ := hk.room
    omega
  have hfree := hi.free
  rw [List.map_cons] at hfree
  obtain ⟨h', fs', hrun, hfree', hframe, hwin⟩ := hfree.insertFree
  have hmem : ∀ M ∈ live, ∀ i, Within (blockOf h.mem M.ptr) i → h'.mem i = h.mem i :=
    fun M hM i hw => hframe _ (block_mem hM) i hw
  obtain ⟨hmap, hkept⟩ := kept_frame (fun M hM => hi.kept M (List.mem_cons_of_mem _ hM)) hmem
  refine ⟨h', fs', ?_, ⟨?_, hkept⟩, hmem, hwin⟩
  · rw [Heap.dealloc, if_neg hguard]
    simp only [hi.recover (List.mem_cons_self ..), bind, Except.bind, hrun]
  · rw [hmap]
    exact hfree'

theorem not_in_payload {M : Live} {i : Nat} (hi : Inv h fs live) (hL : L ∈ live) (hM : M ∈ live)
    (hw : Within (blockOf h.mem L.ptr) i) (hlt : i < L.ptr) :
    ¬ (M.ptr ≤ i ∧ i < M.ptr + M.layout.size) := by
  intro hin
  obtain ⟨h₁, h₂⟩ := hw
  have hroom := (hi.kept M hM).room
  have hfits := (hi.kept M hM).fits
  by_cases hne : L = M
  · subst hne
    omega
  · have := hi.blocks_apart hL hM hne
    omega

theorem write (hi : Inv h fs live)
    (hm : ∀ i, (∀ L ∈ live, ¬ (L.ptr ≤ i ∧ i < L.ptr + L.layout.size)) → m i = h.mem i) :
    Inv { h with mem := m } fs live ∧
      ∀ L ∈ live, blockOf m L.ptr = blockOf h.mem L.ptr := by
  have hkept : ∀ L ∈ live, blockOf m L.ptr = blockOf h.mem L.ptr ∧ Kept m L := fun L hL =>
    (hi.kept L hL).frame fun i hw hlt => hm i fun M hM => hi.not_in_payload hL hM hw hlt
  have hmap : (live.map fun L => blockOf m L.ptr) = live.map fun L => blockOf h.mem L.ptr :=
    List.map_congr_left fun L hL => (hkept L hL).1
  have hfree : Free { h with mem := m } fs (live.map fun L => blockOf h.mem L.ptr) := by
    refine hi.free.write fun i hout => hm i fun L hL hin => ?_
    refine hout _ (block_mem hL) ⟨?_, ?_⟩
    · have := (hi.kept L hL).room
      omega
    · have := (hi.kept L hL).fits
      omega
  rw [← hmap] at hfree
  exact ⟨⟨hfree, fun L hL => (hkept L hL).2⟩, fun L hL => (hkept L hL).1⟩

/-- What a reallocation to `newSize` bytes may do: nothing, with a null result, or exchange the
payload for one that starts with the same bytes. -/
def Exchanged (h : Heap) (L : Live) (live : List Live) (newSize : Nat)
    (result : Except Fault (Nat × Heap)) : Prop :=
  result = .ok (0, h) ∨
    ∃ p h' fs', result = .ok (p, h') ∧ p ≠ 0 ∧
      Inv h' fs' (⟨p, ⟨newSize, L.layout.align⟩⟩ :: live) ∧
      (∀ i < min L.layout.size newSize, h'.mem (p + i) = h.mem (L.ptr + i)) ∧
      (∀ M ∈ live, ∀ i, Within (blockOf h.mem M.ptr) i → h'.mem i = h.mem i) ∧
      h'.base = h.base ∧ h'.mapped = h.mapped ∧ h'.cap = h.cap

variable {newSize : Nat}

theorem resize {start stop used : Nat} (hi : Inv h fs (L :: live)) (hnew : 0 < newSize)
    (hv : Layout.Valid ⟨newSize, L.layout.align⟩) (hblock : blockOf h.mem L.ptr = (start, stop))
    (hfit : L.ptr + newSize ≤ start + used) (hdvd : 16 ∣ used) (hused : used < stop - start) :
    Exchanged h L live newSize (do
      let h ← insertFree (h.setSize start used) (start + used) (stop - start - used)
      pure (L.ptr, h)) := by
  have hk := hi.kept L (List.mem_cons_self ..)
  obtain ⟨s, t, hst, hroom, -, -, hback⟩ := hk.words
  cases hblock.symm.trans hst
  have hfree := hi.free
  rw [List.map_cons, hblock] at hfree
  have hin := hfree.inside (r := (start, stop)) (by simp)
  have hlt := hfree.stop_lt
  simp only at hin
  obtain ⟨hw, hmem⟩ := hfree.writeSize (n := used)
  obtain ⟨h', fs', hrun, hfree', hframe, hwin⟩ := hw.giveTail (by omega) hdvd hused
  simp only [extent] at hrun
  have hown : ∀ i, start ≤ i → i < start + used → h'.mem i = (h.setSize start used).mem i :=
    fun i h₁ h₂ => hframe (start, start + used) (List.mem_cons_self ..) i ⟨h₁, h₂⟩
  have hsize : h'.mem.readLE 8 start = start + used - start := by
    rw [Memory.readLE_congr fun i hi => hown _ (by omega) (by omega), Nat.add_sub_cancel_left]
    refine Memory.readLE_writeLE ?_
    have : (256 : Nat) ^ 8 = 2 ^ 64 := by decide
    omega
  have hback' : h'.mem.readLE 8 (L.ptr - 8) = L.ptr - start := by
    rw [← hback]
    refine Memory.readLE_congr fun i hi => ?_
    rw [hown _ (by omega) (by omega), hmem _ (by omega)]
  obtain ⟨hblock', hnewk⟩ :=
    Kept.of_block (L := ⟨L.ptr, ⟨newSize, L.layout.align⟩⟩) hnew hv hk.aligned
    hroom hfit hsize hback'
  have hother : ∀ M ∈ live, ∀ i, Within (blockOf h.mem M.ptr) i → h'.mem i = h.mem i := by
    intro M hM i hiw
    rw [hframe _ (List.mem_cons_of_mem _ (block_mem hM)) i hiw]
    refine hmem i ?_
    have hap := hfree.held_apart (block_mem hM)
    obtain ⟨h₁, h₂⟩ := hiw
    simp only at hap
    omega
  obtain ⟨hmap, hkept⟩ := kept_frame (fun M hM => hi.kept M (List.mem_cons_of_mem _ hM)) hother
  refine .inr ⟨L.ptr, h', fs', ?_, by omega, ⟨?_, List.forall_mem_cons.mpr ⟨hnewk, hkept⟩⟩,
    fun i hi => ?_, hother, hwin⟩
  · simp only [hrun, bind, Except.bind, pure, Except.pure]
  · rw [List.map_cons, hblock', hmap]
    exact hfree'
  · rw [hown _ (by omega) (by omega), hmem _ (by omega)]

theorem move (hi : Inv h fs (L :: live)) (hnew : 0 < newSize)
    (hv : Layout.Valid ⟨newSize, L.layout.align⟩) :
    Exchanged h L live newSize (do
      let (newPtr, h) ← Heap.alloc h ⟨newSize, L.layout.align⟩
      if newPtr = 0 then pure (0, h)
      else do
        let h : Heap := { h with mem := h.mem.copy L.ptr newPtr (min L.layout.size newSize) }
        let h ← Heap.dealloc h L.ptr L.layout
        pure (newPtr, h)) := by
  obtain ⟨-, -, ⟨hrun, -⟩ | ⟨-, p, h₁, fs₁, hrun, hp, hi₁, hframe₁, hwin₁⟩⟩ := hi.alloc hv hnew
  · left
    simp only [hrun, bind, Except.bind, if_true]
    rfl
  · -- the copy stays inside the new payload
    have hcopy : ∀ i, (i < p ∨ p + newSize ≤ i) →
        h₁.mem.copy L.ptr p (min L.layout.size newSize) i = h₁.mem i := fun i hi =>
      Memory.copy_of_ne _ (by omega)
    obtain ⟨hi₂, hblocks⟩ := hi₁.write (m := h₁.mem.copy L.ptr p (min L.layout.size newSize))
      fun i hout => hcopy i (by
        have := hout ⟨p, ⟨newSize, L.layout.align⟩⟩ (List.mem_cons_self ..)
        simp only at this
        omega)
    obtain ⟨h₃, fs₃, hrun₃, hi₃, hframe₃, hwin₃⟩ := (hi₂.perm (List.Perm.swap ..)).dealloc
    have hk := hi.kept L (List.mem_cons_self ..)
    have hkp := hi₁.kept ⟨p, ⟨newSize, L.layout.align⟩⟩ (List.mem_cons_self ..)
    have h₄ := hkp.room
    have h₅ := hkp.fits
    simp only at h₄ h₅
    refine .inr ⟨p, h₃, fs₃, ?_, hp, hi₃, fun i hi => ?_, fun M hM i hiw => ?_,
      hwin₃.1.trans hwin₁.1, hwin₃.2.1.trans hwin₁.2.1, hwin₃.2.2.trans hwin₁.2.2⟩
    · simp only [hrun, bind, Except.bind, if_neg hp, hrun₃, pure, Except.pure]
    · have hold : h₁.mem (L.ptr + i) = h.mem (L.ptr + i) := by
        refine hframe₁ L (List.mem_cons_self ..) _ ⟨?_, ?_⟩
        · have := hk.room
          omega
        · have := hk.fits
          omega
      rw [hframe₃ ⟨p, ⟨newSize, L.layout.align⟩⟩ (List.mem_cons_self ..) (p + i), ← hold]
      · exact Memory.copy_self _ _ _ hi
      · rw [hblocks ⟨p, ⟨newSize, L.layout.align⟩⟩ (List.mem_cons_self ..)]
        exact ⟨by simp only; omega, by simp only; omega⟩
    · have hM' := List.mem_cons_of_mem L hM
      have hblock : blockOf h₁.mem M.ptr = blockOf h.mem M.ptr :=
        ((hi.kept M hM').frame fun i hiw _ => hframe₁ M hM' i hiw).1
      have hap := hi₁.free
      rw [List.map_cons] at hap
      have hap' := hap.held_apart (block_mem hM')
      rw [hframe₃ M (List.mem_cons_of_mem _ hM) i]
      · refine (hcopy i ?_).trans (hframe₁ M hM' i hiw)
        rw [hblock] at hap'
        simp only at hap'
        obtain ⟨h₆, h₇⟩ := hiw
        omega
      · rw [hblocks M (List.mem_cons_of_mem _ hM'), hblock]
        exact hiw

theorem realloc (hi : Inv h fs (L :: live)) (hnew : 0 < newSize)
    (hv : Layout.Valid ⟨newSize, L.layout.align⟩) :
    Exchanged h L live newSize (realloc h L.ptr L.layout newSize) := by
  have hk := hi.kept L (List.mem_cons_self ..)
  obtain ⟨start, stop, hblock, hroom, hfits, -, -⟩ := hk.words
  have hrec := hi.recover (List.mem_cons_self ..)
  have hb := hi.free.block (start, stop) (by rw [← hblock]; simp)
  have hin := hi.free.inside (r := (start, stop)) (by rw [← hblock]; simp)
  have hlt := hi.free.stop_lt
  have hbase := hi.free.base_pos
  have h16 : 16 ≤ start := Nat.le_of_dvd (by simp only at hin; omega) hb.start_dvd
  rw [hblock] at hrec
  simp only [extent] at hrec hin
  have hoff : subUsize L.ptr start = .ok (L.ptr - start) := if_pos (by omega)
  have hcap : subUsize (stop - start) (L.ptr - start) = .ok (stop - L.ptr) := by
    have he : stop - start - (L.ptr - start) = stop - L.ptr := by omega
    rw [subUsize, if_pos (by omega), he]
  have hbody : Heap.realloc h L.ptr L.layout newSize = _ :=
    (if_neg (by omega : L.ptr ≠ 0)).trans (if_neg (Nat.ne_of_gt hnew))
  simp only [hrec, hoff, hcap, bind, Except.bind] at hbody
  rw [hbody]
  by_cases hfit : newSize ≤ stop - L.ptr
  · obtain ⟨used, hused, hdvd, hge, hult⟩ := alignUp_spec (x := L.ptr - start + newSize)
      (a := headerAlign) ⟨4, rfl⟩ (by simp only [headerAlign]; omega)
    have hle : used ≤ stop - start := by
      obtain ⟨a, ha⟩ := hb.start_dvd
      obtain ⟨b, hb⟩ := hb.stop_dvd
      obtain ⟨c, hc⟩ := hdvd
      simp only [headerAlign] at hult hc ha hb
      omega
    have htail : subUsize (stop - start) used = .ok (stop - start - used) := if_pos hle
    rw [if_pos hfit]
    simp only [hused, htail]
    by_cases hsplit : minSplit ≤ stop - start - used
    · rw [if_pos hsplit]
      refine hi.resize hnew hv hblock (by omega) hdvd ?_
      simp only [minSplit, header, backptr] at hsplit
      omega
    · rw [if_neg hsplit]
      have hkept : Kept h.mem ⟨L.ptr, ⟨newSize, L.layout.align⟩⟩ := by
        refine ⟨hnew, hv, hk.aligned, hk.back, hk.room, ?_⟩
        simp only [hblock]
        omega
      refine .inr ⟨L.ptr, h, fs, rfl, by omega, ⟨hi.free, List.forall_mem_cons.mpr ⟨hkept, ?_⟩⟩,
        fun i _ => rfl, fun M hM i hiw => rfl, rfl, rfl, rfl⟩
      exact fun M hM => hi.kept M (List.mem_cons_of_mem _ hM)
  · rw [if_neg hfit]
    exact hi.move hnew hv

end Inv
end VibeOS.Mm.Heap
