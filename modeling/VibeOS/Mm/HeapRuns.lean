import VibeOS.Mm.HeapLive

/-!
Runs of the kernel heap: setting it up, growing its window, allocation, deallocation and
reallocation by callers that keep to their contracts, and what they write into their payloads
between calls. Allocation asks a block for the bytes a payload may need at the worst address, but
keeps only what it needs at the block's own; so a freed block may not serve its own layout again.
-/
namespace VibeOS.Mm.Heap
open Lib

/-- What `init` asks for: a 16-aligned window that is large enough and ends before the end of the
address space, and not at the null pointer. -/
structure Setup where
  mem : Memory
  base : Nat
  mapped : Nat
  cap : Nat
  base_pos : 0 < base
  base_dvd : 16 ∣ base
  mapped_dvd : 16 ∣ mapped
  min_le : minSplit ≤ mapped
  le_cap : mapped ≤ cap
  stop_lt : base + mapped < 2 ^ 64

variable {h h' : Heap} {fs held : List (Nat × Nat)} {live : List Live} {L : Live}

theorem init_spec (su : Setup) :
    ∃ h fs, init su.mem su.base su.mapped su.cap = .ok h ∧ Inv h fs [] ∧
      h.base = su.base ∧ h.mapped = su.mapped ∧ h.cap = su.cap := by
  have hmin := su.min_le
  simp only [minSplit, header, backptr] at hmin
  have hfree : Free ⟨su.base, su.mapped, su.cap, none, 0, su.mem⟩ []
      [(su.base, su.base + su.mapped)] := by
    refine ⟨rfl, fun f hf => ?_, .nil, fun x => rfl, fun r hr => ?_, rfl, su.base_pos, su.stop_lt⟩
    · cases hf
    · rw [List.mem_singleton.mp hr]
      exact ⟨by simp only; omega, su.base_dvd, (Nat.dvd_add_right su.base_dvd).mpr su.mapped_dvd⟩
  obtain ⟨h, fs, hrun, hfree', -, hwin⟩ := hfree.insertFree
  have hext : extent (su.base, su.base + su.mapped) = su.mapped := Nat.add_sub_cancel_left ..
  have h8 : ¬ su.base % 8 ≠ 0 := by
    obtain ⟨n, hn⟩ := su.base_dvd
    omega
  refine ⟨h, fs, ?_, ⟨hfree', fun L hL => ?_⟩, hwin⟩
  · rw [init, if_neg h8, if_neg (Nat.not_lt.mpr su.min_le), if_neg (Nat.not_lt.mpr su.le_cap)]
    rw [hext] at hrun
    exact hrun
  · cases hL

theorem Free.grow {n : Nat} (hf : Free h fs held) (hbase : 16 ∣ h.base + h.mapped)
    (hn : h.mapped < n) (hdvd : 16 ∣ n - h.mapped) (hlt : h.base + n < 2 ^ 64) :
    Free { h with mapped := n } fs ((h.base + h.mapped, h.base + n) :: held) := by
  refine ⟨hf.chain, hf.size, hf.separated, fun x => ?_, fun r hr => ?_, hf.bytes, hf.base_pos, hlt⟩
  · have hold := hf.tiles x
    have hsplit := within_split (Nat.le_add_right h.base h.mapped)
      (by omega : h.base + h.mapped ≤ h.base + n) x
    rw [cover_append] at hold
    simp only [cover_append, cover_cons, cover_nil] at hold ⊢
    omega
  · simp only [List.mem_append, List.mem_cons] at hr
    rcases hr with hr | rfl | hr
    · exact hf.block r (List.mem_append_left _ hr)
    · refine ⟨by simp only; omega, hbase, ?_⟩
      have he : h.base + n = h.base + h.mapped + (n - h.mapped) := by omega
      simp only [he]
      exact (Nat.dvd_add_right hbase).mpr hdvd
    · exact hf.block r (List.mem_append_right _ hr)

def freeBlocks (h : Heap) : List (Nat × Nat) :=
  (chainList h.nextAt h.mapped h.freeHead).map fun n => (n, n + h.sizeAt n)

theorem Free.freeBlocks_eq (hf : Free h fs held) : h.freeBlocks = fs := by
  have hlist : chainList h.nextAt h.mapped h.freeHead = fs.map Prod.fst :=
    hf.chain.chainList_eq (by rw [List.length_map]; exact hf.length_le)
  rw [freeBlocks, hlist, List.map_map]
  refine (List.map_congr_left fun f hm => ?_).trans (List.map_id fs)
  have hsize := hf.size f hm
  have hlt := (hf.block f (List.mem_append_left _ hm)).lt
  have hsum : f.1 + extent f = f.2 := by
    simp only [extent]
    omega
  simp only [Function.comp_apply, hsize, hsum, id_eq]

inductive Op where
  | extend (newMapped : Nat)
  | alloc (layout : Layout)
  | dealloc (L : Live)
  | realloc (L : Live) (newSize : Nat)
  | write (a : Nat) (v : UInt8)

/-- The heap and the payloads that are in callers' hands. -/
structure Sys where
  heap : Heap
  live : List Live

namespace Sys

/-- A payload of some bytes that was handed out. -/
def handed (live : List Live) (p : Nat) (layout : Layout) : List Live :=
  if p = 0 ∨ layout.size = 0 then live else ⟨p, layout⟩ :: live

/-- One call, with the pointer it returns, or one byte written by a caller. -/
def step (s : Sys) : Op → Except Fault (Nat × Sys)
  | .extend n => do
    let h ← Heap.extend s.heap n
    pure (0, ⟨h, s.live⟩)
  | .alloc layout => do
    let (p, h) ← Heap.alloc s.heap layout
    pure (p, ⟨h, handed s.live p layout⟩)
  | .dealloc L => do
    let h ← Heap.dealloc s.heap L.ptr L.layout
    pure (0, ⟨h, s.live.erase L⟩)
  | .realloc L n => do
    let (p, h) ← Heap.realloc s.heap L.ptr L.layout n
    pure (p, ⟨h, if p = 0 then s.live else handed (s.live.erase L) p ⟨n, L.layout.align⟩⟩)
  | .write a v => .ok (0, ⟨{ s.heap with mem := Function.update s.heap.mem a v }, s.live⟩)

/-- The callers' side of the contract. A reallocation is of a live payload, of the null pointer, or
of an allocation of no bytes to no bytes. -/
def Allowed (s : Sys) : Op → Prop
  | .extend n => s.heap.mapped < n ∧ n ≤ s.heap.cap ∧ 16 ∣ n - s.heap.mapped ∧
      s.heap.base + n < 2 ^ 64
  | .alloc layout => layout.Valid
  | .dealloc L => L.layout.size = 0 ∨ L.ptr = 0 ∨ L ∈ s.live
  | .realloc L n => Layout.Valid ⟨n, L.layout.align⟩ ∧
      (L.ptr = 0 ∨ L ∈ s.live ∨ (L.layout.size = 0 ∧ n = 0))
  | .write a _ => ∃ L ∈ s.live, L.ptr ≤ a ∧ a < L.ptr + L.layout.size

inductive Reach (su : Setup) : Sys → Prop
  | init {h : Heap} : Heap.init su.mem su.base su.mapped su.cap = .ok h → Reach su ⟨h, []⟩
  | step {s s' : Sys} {op : Op} {p : Nat} : Reach su s → s.Allowed op → s.step op = .ok (p, s') →
      Reach su s'

end Sys

structure Good (s : Sys) : Prop where
  inv : ∃ fs, Inv s.heap fs s.live
  stop_dvd : 16 ∣ s.heap.base + s.heap.mapped

theorem Inv.ptr_ne_zero (hi : Inv h fs live) (hL : L ∈ live) : L.ptr ≠ 0 := by
  have := (hi.kept L hL).room
  omega

theorem Inv.erase (hi : Inv h fs live) (hL : L ∈ live) : Inv h fs (L :: live.erase L) :=
  hi.perm (List.perm_cons_erase hL).symm

variable {s : Sys} {n : Nat}

theorem Good.of_window (hg : Good s) (hi : Inv h fs live)
    (hwin : h.base = s.heap.base ∧ h.mapped = s.heap.mapped ∧ h.cap = s.heap.cap) :
    Good ⟨h, live⟩ := by
  refine ⟨⟨fs, hi⟩, ?_⟩
  have := hg.stop_dvd
  rw [← hwin.1, ← hwin.2.1] at this
  exact this

/-- What a call does, besides keeping the invariant: a null result changes nothing, a payload is
aligned and live, and a reallocation keeps the bytes. -/
structure Effect (s : Sys) (op : Op) (p : Nat) (s' : Sys) : Prop where
  good : Good s'
  alloc : ∀ layout, op = .alloc layout → (p = 0 → s' = s) ∧ (p ≠ 0 → layout.align ∣ p ∧
    (0 < layout.size → s'.live = ⟨p, layout⟩ :: s.live))
  realloc : ∀ L n, op = .realloc L n → (p = 0 → s' = s) ∧ (p ≠ 0 → L.layout.align ∣ p ∧
    (0 < n → s'.live = ⟨p, ⟨n, L.layout.align⟩⟩ :: s.live.erase L) ∧
    (L ∈ s.live → ∀ i < min L.layout.size n, s'.heap.mem (p + i) = s.heap.mem (L.ptr + i)))

theorem dangling_ne_zero {align : Nat} (ha : ∃ e, align = 2 ^ e) : dangling align ≠ 0 := by
  obtain ⟨e, rfl⟩ := ha
  exact Nat.ne_of_gt (Nat.two_pow_pos e)

namespace Good

theorem extend (hg : Good s) (hop : s.Allowed (.extend n)) :
    ∃ s', s.step (.extend n) = .ok (0, s') ∧ Good s' := by
  obtain ⟨hlt, hcap, hdvd, hend⟩ := hop
  obtain ⟨fs, hi⟩ := hg.inv
  have hadd : addUsize s.heap.base s.heap.mapped = .ok (s.heap.base + s.heap.mapped) :=
    if_pos hi.free.stop_lt
  obtain ⟨h', fs', hrun, hfree, hframe, hbase, hmapped, -⟩ :=
    (hi.free.grow hg.stop_dvd hlt hdvd hend).insertFree
  have hext : extent (s.heap.base + s.heap.mapped, s.heap.base + n) = n - s.heap.mapped := by
    simp only [extent]
    omega
  rw [hext] at hrun
  obtain ⟨hmap, hkept⟩ := Inv.kept_frame hi.kept fun L hL i hw =>
    hframe _ (Inv.block_mem hL) i hw
  refine ⟨⟨h', s.live⟩, ?_, ⟨fs', ?_, hkept⟩, ?_⟩
  · simp only [Sys.step, Heap.extend, if_neg (Nat.not_le.mpr hlt),
      if_neg (Nat.not_lt.mpr hcap), hadd, bind, Except.bind, hrun, pure, Except.pure]
  · simp only
    rw [hmap]
    exact hfree
  · simp only [hbase, hmapped]
    have he : s.heap.base + n = s.heap.base + s.heap.mapped + (n - s.heap.mapped) := by omega
    rw [he]
    exact (Nat.dvd_add_right hg.stop_dvd).mpr hdvd

theorem alloc {layout : Layout} (hg : Good s) (hv : layout.Valid) :
    ∃ p h, Heap.alloc s.heap layout = .ok (p, h) ∧ Good ⟨h, Sys.handed s.live p layout⟩ ∧
      (p = 0 → h = s.heap) ∧ (p ≠ 0 → layout.align ∣ p) := by
  obtain ⟨fs, hi⟩ := hg.inv
  rcases Nat.eq_zero_or_pos layout.size with hz | hpos
  · refine ⟨dangling layout.align, s.heap, if_pos hz, ?_, fun _ => rfl, fun _ => Nat.dvd_refl _⟩
    rw [Sys.handed, if_pos (.inr hz)]
    exact hg
  · obtain ⟨-, -, ⟨hrun, -⟩ | ⟨-, p, h, fs', hrun, hp, hi', -, hwin⟩⟩ := hi.alloc hv hpos
    · refine ⟨0, s.heap, hrun, ?_, fun _ => rfl, fun hp => absurd rfl hp⟩
      rw [Sys.handed, if_pos (.inl rfl)]
      exact hg
    · refine ⟨p, h, hrun, ?_, fun hz => absurd hz hp, fun _ => ?_⟩
      · rw [Sys.handed, if_neg (by omega)]
        exact hg.of_window hi' hwin
      · exact (hi'.kept _ (List.mem_cons_self ..)).aligned

theorem dealloc (hg : Good s) (hop : L.layout.size = 0 ∨ L.ptr = 0 ∨ L ∈ s.live) :
    ∃ h, Heap.dealloc s.heap L.ptr L.layout = .ok h ∧ Good ⟨h, s.live.erase L⟩ := by
  obtain ⟨fs, hi⟩ := hg.inv
  by_cases hL : L ∈ s.live
  · obtain ⟨h, fs', hrun, hi', -, hwin⟩ := (hi.erase hL).dealloc
    exact ⟨h, hrun, hg.of_window hi' hwin⟩
  · have hguard : L.layout.size = 0 ∨ L.ptr = 0 := by
      rcases hop with h | h | h
      · exact .inl h
      · exact .inr h
      · exact absurd h hL
    refine ⟨s.heap, if_pos hguard, ?_⟩
    rw [List.erase_of_not_mem hL]
    exact hg

theorem write {a : Nat} {v : UInt8} (hg : Good s) (hop : s.Allowed (.write a v)) :
    Good ⟨{ s.heap with mem := Function.update s.heap.mem a v }, s.live⟩ := by
  obtain ⟨fs, hi⟩ := hg.inv
  obtain ⟨L, hL, hlo, hhi⟩ := hop
  refine ⟨⟨fs, (hi.write fun i hout => ?_).1⟩, hg.stop_dvd⟩
  refine Function.update_of_ne ?_ ..
  rintro rfl
  exact hout L hL ⟨hlo, hhi⟩

theorem realloc (hg : Good s) (hL : L ∈ s.live) (hn : 0 < n)
    (hv : Layout.Valid ⟨n, L.layout.align⟩) :
    ∃ p h, Heap.realloc s.heap L.ptr L.layout n = .ok (p, h) ∧
      ((p = 0 ∧ h = s.heap) ∨ (p ≠ 0 ∧ L.layout.align ∣ p ∧
        Good ⟨h, ⟨p, ⟨n, L.layout.align⟩⟩ :: s.live.erase L⟩ ∧
        ∀ i < min L.layout.size n, h.mem (p + i) = s.heap.mem (L.ptr + i))) := by
  obtain ⟨fs, hi⟩ := hg.inv
  rcases (hi.erase hL).realloc hn hv with hrun | ⟨p, h, fs', hrun, hp, hi', hbytes, -, hwin⟩
  · exact ⟨0, s.heap, hrun, .inl ⟨rfl, rfl⟩⟩
  · exact ⟨p, h, hrun, .inr ⟨hp, (hi'.kept _ (List.mem_cons_self ..)).aligned,
      hg.of_window hi' hwin, hbytes⟩⟩

/-- A reallocation that is not of a live payload to some bytes: an allocation, or a
deallocation. -/
theorem realloc_other (hg : Good s) (hop : s.Allowed (.realloc L n)) (hother : L.ptr = 0 ∨ n = 0) :
    ∃ p h, Heap.realloc s.heap L.ptr L.layout n = .ok (p, h) ∧ (p = 0 → h = s.heap) ∧
      (p ≠ 0 → L.layout.align ∣ p ∧ Good ⟨h, Sys.handed (s.live.erase L) p ⟨n, L.layout.align⟩⟩) ∧
      (0 < n → L ∉ s.live) := by
  obtain ⟨hv, hL⟩ := hop
  obtain ⟨fs, hi⟩ := hg.inv
  by_cases hz : L.ptr = 0
  · have hnot : L ∉ s.live := fun hm => hi.ptr_ne_zero hm hz
    obtain ⟨p, h, hrun, hg', hnull, halign⟩ := hg.alloc hv
    refine ⟨p, h, (if_pos hz).trans hrun, hnull, fun hp => ⟨halign hp, ?_⟩, fun _ => hnot⟩
    rw [List.erase_of_not_mem hnot]
    exact hg'
  · have hn : n = 0 := hother.resolve_left hz
    have hd : L.layout.size = 0 ∨ L.ptr = 0 ∨ L ∈ s.live := by
      rcases hL with h | h | h
      · exact .inr (.inl h)
      · exact .inr (.inr h)
      · exact .inl h.1
    obtain ⟨h, hrun, hg'⟩ := hg.dealloc hd
    refine ⟨dangling L.layout.align, h, ?_, fun hp => absurd hp (dangling_ne_zero hv.pow),
      fun _ => ⟨Nat.dvd_refl _, ?_⟩, fun hpos => absurd hn (Nat.ne_of_gt hpos)⟩
    · rw [Heap.realloc, if_neg hz, if_pos hn]
      simp only [hrun, bind, Except.bind, pure, Except.pure]
    · rw [Sys.handed, if_pos (.inr hn)]
      exact hg'

theorem step {op : Op} (hg : Good s) (hop : s.Allowed op) :
    ∃ p s', s.step op = .ok (p, s') ∧ Effect s op p s' := by
  cases op with
  | extend n =>
    obtain ⟨s', hrun, hg'⟩ := hg.extend hop
    exact ⟨0, s', hrun, hg', fun _ he => (by cases he), fun _ _ he => (by cases he)⟩
  | write a v =>
    exact ⟨0, _, rfl, hg.write hop, fun _ he => (by cases he), fun _ _ he => (by cases he)⟩
  | dealloc L =>
    obtain ⟨h, hrun, hg'⟩ := hg.dealloc hop
    refine ⟨0, ⟨h, s.live.erase L⟩, ?_, hg', fun _ he => (by cases he), fun _ _ he => (by cases he)⟩
    simp only [Sys.step, hrun, bind, Except.bind, pure, Except.pure]
  | alloc layout =>
    obtain ⟨p, h, hrun, hg', hnull, halign⟩ := hg.alloc hop
    refine ⟨p, ⟨h, Sys.handed s.live p layout⟩, ?_, hg', ?_, fun _ _ he => (by cases he)⟩
    · simp only [Sys.step, hrun, bind, Except.bind, pure, Except.pure]
    · rintro _ ⟨⟩
      refine ⟨fun hp => ?_, fun hp => ⟨halign hp, fun hpos => ?_⟩⟩
      · rw [hnull hp, Sys.handed, if_pos (.inl hp)]
      · rw [Sys.handed, if_neg (by omega)]
  | realloc L n =>
    by_cases hother : L.ptr = 0 ∨ n = 0
    · obtain ⟨p, h, hrun, hnull, hp, hnot⟩ := hg.realloc_other hop hother
      refine ⟨p, ⟨h, if p = 0 then s.live else
        Sys.handed (s.live.erase L) p ⟨n, L.layout.align⟩⟩, ?_, ?_, fun _ he => (by cases he), ?_⟩
      · simp only [Sys.step, hrun, bind, Except.bind, pure, Except.pure]
      · by_cases hz : p = 0
        · rw [if_pos hz, hnull hz]
          exact hg
        · rw [if_neg hz]
          exact (hp hz).2
      · rintro _ _ ⟨⟩
        refine ⟨fun hz => by rw [if_pos hz, hnull hz], fun hz => ⟨(hp hz).1, fun hn => ?_, ?_⟩⟩
        · simp only [if_neg hz]
          rw [Sys.handed, if_neg (by simp only; omega)]
        · intro hm i hi
          have hn : 0 < n := by omega
          exact absurd hm (hnot hn)
    · obtain ⟨hv, hL⟩ := hop
      rw [not_or] at hother
      have hm : L ∈ s.live := by
        rcases hL with h | h | h
        · exact absurd h hother.1
        · exact h
        · exact absurd h.2 hother.2
      obtain ⟨p, h, hrun, hcase⟩ := hg.realloc hm (Nat.pos_of_ne_zero hother.2) hv
      refine ⟨p, ⟨h, if p = 0 then s.live else
        Sys.handed (s.live.erase L) p ⟨n, L.layout.align⟩⟩, ?_, ?_, fun _ he => (by cases he), ?_⟩
      · simp only [Sys.step, hrun, bind, Except.bind, pure, Except.pure]
      · rcases hcase with ⟨hz, rfl⟩ | ⟨hz, -, hg', -⟩
        · rw [if_pos hz]
          exact hg
        · rw [if_neg hz, Sys.handed, if_neg (by simp only; omega)]
          exact hg'
      · rintro _ _ ⟨⟩
        rcases hcase with ⟨hz, rfl⟩ | ⟨hz, halign, -, hbytes⟩
        · exact ⟨fun _ => by rw [if_pos hz], fun hne => absurd hz hne⟩
        · refine ⟨fun he => absurd he hz, fun _ => ⟨halign, fun hn => ?_, fun _ => hbytes⟩⟩
          simp only [if_neg hz]
          rw [Sys.handed, if_neg (by simp only; omega)]

end Good

theorem reach_good {su : Setup} (hr : Sys.Reach su s) : Good s := by
  induction hr with
  | init hrun =>
    obtain ⟨h, fs, hrun', hi, hbase, hmapped, -⟩ := init_spec su
    rw [hrun] at hrun'
    cases hrun'
    refine ⟨⟨fs, hi⟩, ?_⟩
    rw [hbase, hmapped]
    exact (Nat.dvd_add_right su.base_dvd).mpr su.mapped_dvd
  | step hr hop hrun ih =>
    obtain ⟨p, s', hrun', he⟩ := ih.step hop
    rw [hrun] at hrun'
    cases hrun'
    exact he.good

/-- What holds of a heap in use and of the next call on it. -/
structure Sound (s : Sys) : Prop where
  partition : Tiles (s.heap.freeBlocks ++ s.live.map fun L => blockOf s.heap.mem L.ptr)
    [(s.heap.base, s.heap.base + s.heap.mapped)]
  ends : Chained s.heap.nextAt s.heap.freeHead (s.heap.freeBlocks.map Prod.fst)
  separated : Separated s.heap.freeBlocks
  free_bytes : s.heap.freeBytes = total extent s.heap.freeBlocks
  payload : ∀ L ∈ s.live, L.layout.align ∣ L.ptr ∧ (blockOf s.heap.mem L.ptr).1 + header ≤ L.ptr ∧
    L.ptr + L.layout.size ≤ (blockOf s.heap.mem L.ptr).2 ∧
    s.heap.base ≤ L.ptr ∧ L.ptr + L.layout.size ≤ s.heap.base + s.heap.mapped
  disjoint : s.live.Pairwise fun L M =>
    L.ptr + L.layout.size ≤ M.ptr ∨ M.ptr + M.layout.size ≤ L.ptr
  step : ∀ op, s.Allowed op → ∃ p s', s.step op = .ok (p, s') ∧ Effect s op p s'

theorem Good.sound (hg : Good s) : Sound s := by
  obtain ⟨fs, hi⟩ := hg.inv
  have hfs := hi.free.freeBlocks_eq
  have hpayload : ∀ L ∈ s.live, s.heap.base ≤ L.ptr ∧
      L.ptr + L.layout.size ≤ s.heap.base + s.heap.mapped := by
    intro L hL
    have hin := hi.free.inside (List.mem_append_right _ (Inv.block_mem hL))
    have hroom := (hi.kept L hL).room
    have hfits := (hi.kept L hL).fits
    omega
  refine ⟨?_, ?_, ?_, ?_, fun L hL => ?_, ?_, fun op hop => hg.step hop⟩
  · rw [hfs]
    exact hi.free.tiles
  · rw [hfs]
    exact hi.free.chain
  · rw [hfs]
    exact hi.free.separated
  · rw [hfs]
    exact hi.free.bytes
  · have hk := hi.kept L hL
    have hroom := hk.room
    exact ⟨hk.aligned, by simp only [header]; omega, hk.fits, hpayload L hL⟩
  · have hap : (s.live.map fun L => blockOf s.heap.mem L.ptr).Pairwise Apart :=
      (List.pairwise_append.mp (apart_of_cover_le_one fun x => by
        rw [hi.free.tiles x]
        exact cover_window_le_one s.heap x)).2.1
    refine (List.pairwise_map.mp hap).imp_of_mem fun {L M} hL hM hLM => ?_
    have hbefore := (hi.free.block _ (List.mem_append_right _ (Inv.block_mem hL))).before_or_after
      (hi.free.block _ (List.mem_append_right _ (Inv.block_mem hM))) hLM
    have h₁ := (hi.kept L hL).room
    have h₂ := (hi.kept L hL).fits
    have h₃ := (hi.kept M hM).room
    have h₄ := (hi.kept M hM).fits
    omega

/-- Over any window and any run of callers that keep their contracts and reallocate no allocation
of no bytes, the free and the live blocks partition the window, the list is in order with no two
blocks that meet and its bytes are counted, payloads are aligned, inside and apart, reallocation
keeps the bytes, a null result changes nothing and no assertion fires. -/
theorem heap_partition (su : Setup) :
    (∃ h, init su.mem su.base su.mapped su.cap = .ok h) ∧ ∀ s, Sys.Reach su s → Sound s := by
  obtain ⟨h, fs, hrun, -⟩ := init_spec su
  exact ⟨⟨h, hrun⟩, fun s hs => (reach_good hs).sound⟩

def onePage : Setup :=
  ⟨fun _ => 0, 4096, 4096, 4096, by decide, by decide, by decide, by decide, by decide, by decide⟩

/-- Allocations one after another, with the pointers they return. -/
def Sys.allocs (s : Sys) : List Layout → Option (List Nat × Sys)
  | [] => some ([], s)
  | layout :: rest =>
    match s.step (.alloc layout) with
    | .error _ => none
    | .ok (p, s') => (allocs s' rest).map fun r => (p :: r.1, r.2)

theorem Sys.Reach.allocs {su : Setup} {s s' : Sys} {layouts : List Layout} {ps : List Nat}
    (hr : Reach su s) (hv : ∀ layout ∈ layouts, layout.Valid)
    (hrun : s.allocs layouts = some (ps, s')) : Reach su s' := by
  induction layouts generalizing s ps with
  | nil =>
    cases hrun
    exact hr
  | cons layout rest ih =>
    obtain ⟨hl, hrest⟩ := List.forall_mem_cons.mp hv
    rw [Sys.allocs] at hrun
    split at hrun
    · cases hrun
    · rename_i p s₁ hstep
      obtain ⟨⟨qs, s₂⟩, hrec, he⟩ := Option.map_eq_some_iff.mp hrun
      cases he
      have hop : s.Allowed (.alloc layout) := hl
      exact ih (.step hr hop hstep) hrest hrec

/-- A page-aligned payload and a small one behind it, in a window of three pages. -/
theorem heap_partition_overAligned :
    ∃ su s, Sys.Reach su s ∧ s.live = [⟨12312, ⟨100, 8⟩⟩, ⟨8192, ⟨4096, 4096⟩⟩] ∧ Sound s := by
  obtain ⟨su, hsu⟩ : ∃ su : Setup, su = ⟨fun _ => 0, 4096, 12288, 12288, by decide, by decide,
    by decide, by decide, by decide, by decide⟩ := ⟨_, rfl⟩
  obtain ⟨⟨h, hinit⟩, hsound⟩ := heap_partition su
  have hrun : ((init (fun _ => 0) 4096 12288 12288).toOption.bind fun h =>
      (Sys.allocs ⟨h, []⟩ [⟨4096, 4096⟩, ⟨100, 8⟩]).map fun r => r.2.live) =
      some [⟨12312, ⟨100, 8⟩⟩, ⟨8192, ⟨4096, 4096⟩⟩] := by decide +kernel
  have hinit' : init (fun _ => 0) 4096 12288 12288 = .ok h := by rw [hsu] at hinit; exact hinit
  rw [hinit'] at hrun
  obtain ⟨⟨ps, s⟩, hs, hlive⟩ := Option.map_eq_some_iff.mp hrun
  have hv : ∀ layout ∈ ([⟨4096, 4096⟩, ⟨100, 8⟩] : List Layout), layout.Valid := by
    intro layout hl
    simp only [List.mem_cons, List.not_mem_nil, or_false] at hl
    rcases hl with rfl | rfl
    · exact ⟨⟨12, rfl⟩, by decide⟩
    · exact ⟨⟨3, rfl⟩, by decide⟩
  have hreach := (Sys.Reach.init hinit).allocs hv hs
  exact ⟨su, s, hreach, hlive, hsound s hreach⟩

/-- An allocation of no bytes is at the address of its alignment. Reallocating it looks for a back
pointer in front of that address: below address 8 the subtraction overflows. -/
theorem realloc_of_empty_faults :
    ∃ h, init (fun _ => 0) 4096 4096 4096 = .ok h ∧ alloc h ⟨0, 1⟩ = .ok (1, h) ∧
      realloc h 1 ⟨0, 1⟩ 16 = .error .overflow := by
  obtain ⟨h, fs, hrun, -⟩ := init_spec onePage
  exact ⟨h, hrun, rfl, rfl⟩

theorem Inv.dealloc_tiles (hi : Inv h fs (L :: live)) :
    ∃ h' fs', Heap.dealloc h L.ptr L.layout = .ok h' ∧ Inv h' fs' live ∧
      Tiles fs' (blockOf h.mem L.ptr :: fs) := by
  obtain ⟨h', fs', hrun, hi', hframe, hbase, hmapped, -⟩ := hi.dealloc
  have hmap := (Inv.kept_frame (fun M hM => hi.kept M (List.mem_cons_of_mem _ hM)) hframe).1
  refine ⟨h', fs', hrun, hi', fun x => ?_⟩
  -- the other live blocks are where they were, and so is the window
  have hold := hi.free.tiles x
  have hnew := hi'.free.tiles x
  rw [List.map_cons, cover_append, cover_cons] at hold
  rw [hmap, hbase, hmapped, cover_append] at hnew
  rw [cover_cons]
  omega

/-- Freeing a live block and asking for its layout again gives a payload exactly when some free
block, or the freed block together with the free blocks that meet it, has as many bytes as `alloc`
asks for. -/
theorem freed_block_serves {su : Setup} {s : Sys} (hr : Sys.Reach su s) (hL : L ∈ s.live) :
    ∃ need, blockBytes L.layout = .ok need ∧
      ((∃ h₁ p h₂, dealloc s.heap L.ptr L.layout = .ok h₁ ∧ alloc h₁ L.layout = .ok (p, h₂) ∧
          p ≠ 0) ↔
        ∃ r, (r ∈ s.heap.freeBlocks ∨ Joined s.heap.freeBlocks (blockOf s.heap.mem L.ptr) r) ∧
          need ≤ extent r) := by
  obtain ⟨fs, hi⟩ := (reach_good hr).inv
  have hk := hi.kept L hL
  have hblock : ∀ f ∈ fs, f.1 < f.2 := fun f hf => (hi.free.block f (List.mem_append_left _ hf)).lt
  have hlt := (hi.free.block _ (List.mem_append_right _ (Inv.block_mem hL))).lt
  obtain ⟨h₁, fs₁, hrun, hi₁, htiles⟩ := (hi.erase hL).dealloc_tiles
  have hblock₁ : ∀ f ∈ fs₁, f.1 < f.2 := fun f hf =>
    (hi₁.free.block f (List.mem_append_left _ hf)).lt
  rw [hi.free.freeBlocks_eq]
  obtain ⟨need, hneed, halloc⟩ := hi₁.alloc hk.valid hk.pos
  refine ⟨need, hneed, ?_⟩
  have hwide : (∃ f ∈ fs₁, need ≤ extent f) ↔
      ∃ r, (r ∈ fs ∨ Joined fs (blockOf s.heap.mem L.ptr) r) ∧ need ≤ extent r := by
    unfold extent
    constructor
    · rintro ⟨f, hf, hle⟩
      obtain ⟨r, hr, h₁, h₂⟩ :=
        htiles.exists_old hblock hi.free.separated hblock₁ hi₁.free.separated hlt hf
      exact ⟨r, hr, by omega⟩
    · rintro ⟨r, hr, hle⟩
      obtain ⟨f, hf, h₁, h₂⟩ := htiles.exists_new hblock hblock₁ hi₁.free.separated hlt hr
      exact ⟨f, hf, by omega⟩
  rw [← hwide]
  constructor
  · rintro ⟨h₁', p, h₂, hrun', hrun₂, hp⟩
    cases hrun.symm.trans hrun'
    rcases halloc with ⟨hnull, -⟩ | ⟨hsome, -⟩
    · cases hnull.symm.trans hrun₂
      exact absurd rfl hp
    · exact hsome
  · rintro ⟨f, hf, hle⟩
    rcases halloc with ⟨-, hnone⟩ | ⟨-, p, h₂, fs₂, hrun₂, hp, -⟩
    · exact absurd hle (Nat.not_le_of_lt (hnone f hf))
    · exact ⟨h₁, p, h₂, hrun, hrun₂, hp⟩

def sixBlocks : Setup :=
  ⟨fun _ => 0, 4096, 96, 96, by decide, by decide, by decide, by decide, by decide, by decide⟩

/-- The block of the payload and the free one behind it have 48 bytes each. The layout asks for 64,
which only the two together have. -/
theorem freed_block_serves_joined :
    ∃ s, Sys.Reach sixBlocks s ∧ s.live = [⟨4120, ⟨24, 8⟩⟩] ∧
      blockOf s.heap.mem 4120 = (4096, 4144) ∧ s.heap.freeBlocks = [(4144, 4192)] ∧
      ∃ h₁ p h₂, dealloc s.heap 4120 ⟨24, 8⟩ = .ok h₁ ∧ alloc h₁ ⟨24, 8⟩ = .ok (p, h₂) ∧ p ≠ 0 := by
  obtain ⟨h, fs, hinit, -⟩ := init_spec sixBlocks
  have hrun : ((init (fun _ => 0) 4096 96 96).toOption.bind fun h =>
      (Sys.allocs ⟨h, []⟩ [⟨24, 8⟩]).map fun r =>
        (r.2.live, blockOf r.2.heap.mem 4120, r.2.heap.freeBlocks)) =
      some ([⟨4120, ⟨24, 8⟩⟩], (4096, 4144), [(4144, 4192)]) := by
    decide +kernel
  have hinit' : init (fun _ => 0) 4096 96 96 = .ok h := hinit
  rw [hinit'] at hrun
  obtain ⟨⟨ps, s⟩, hs, he⟩ := Option.map_eq_some_iff.mp hrun
  obtain ⟨hlive, he'⟩ := Prod.mk.inj he
  obtain ⟨hblock, hfree⟩ := Prod.mk.inj he'
  have hreach := (Sys.Reach.init hinit).allocs
    (List.forall_mem_singleton.mpr ⟨⟨3, rfl⟩, by decide⟩) hs
  obtain ⟨need, hneed, hiff⟩ := freed_block_serves (L := ⟨4120, ⟨24, 8⟩⟩) hreach (by
    rw [hlive]
    exact List.mem_singleton_self _)
  have h64 : blockBytes ⟨24, 8⟩ = .ok 64 := rfl
  cases h64.symm.trans hneed
  simp only at hblock hfree
  rw [hblock, hfree] at hiff
  exact ⟨s, hreach, hlive, hblock, hfree,
    hiff.mpr ⟨(4096, 4192), .inr ⟨.inl rfl, .inr (List.mem_singleton_self _)⟩, by decide⟩⟩

/-- Two payloads of 8 and 16 bytes fill the window with blocks of 32 and 64. The first block kept 32
bytes of the 48 that its layout asks for: freed, it does not serve it again, and no other block is
free. -/
theorem freed_block_refused :
    ∃ s, Sys.Reach sixBlocks s ∧ s.live = [⟨4152, ⟨16, 8⟩⟩, ⟨4120, ⟨8, 8⟩⟩] ∧
      ∃ h₁ h₂, dealloc s.heap 4120 ⟨8, 8⟩ = .ok h₁ ∧ alloc h₁ ⟨8, 8⟩ = .ok (0, h₂) := by
  obtain ⟨h, fs, hinit, -⟩ := init_spec sixBlocks
  have hrun : ((init (fun _ => 0) 4096 96 96).toOption.bind fun h =>
      (Sys.allocs ⟨h, []⟩ [⟨8, 8⟩, ⟨16, 8⟩]).map fun r =>
        (r.2.live, (dealloc r.2.heap 4120 ⟨8, 8⟩).toOption.bind fun h₁ =>
          (alloc h₁ ⟨8, 8⟩).toOption.map Prod.fst)) =
      some ([⟨4152, ⟨16, 8⟩⟩, ⟨4120, ⟨8, 8⟩⟩], some 0) := by decide +kernel
  have hinit' : init (fun _ => 0) 4096 96 96 = .ok h := hinit
  rw [hinit'] at hrun
  obtain ⟨⟨ps, s⟩, hs, he⟩ := Option.map_eq_some_iff.mp hrun
  obtain ⟨hlive, hnull⟩ := Prod.mk.inj he
  have hv : ∀ layout ∈ ([⟨8, 8⟩, ⟨16, 8⟩] : List Layout), layout.Valid := by
    intro layout hl
    simp only [List.mem_cons, List.not_mem_nil, or_false] at hl
    rcases hl with rfl | rfl
    · exact ⟨⟨3, rfl⟩, by decide⟩
    · exact ⟨⟨3, rfl⟩, by decide⟩
  refine ⟨s, (Sys.Reach.init hinit).allocs hv hs, hlive, ?_⟩
  simp only at hnull
  cases hd : dealloc s.heap 4120 ⟨8, 8⟩ with
  | error e =>
    rw [hd] at hnull
    cases hnull
  | ok h₁ =>
    rw [hd] at hnull
    cases ha : alloc h₁ ⟨8, 8⟩ with
    | error e =>
      simp only [Except.toOption, Option.bind_some, ha] at hnull
      cases hnull
    | ok r =>
      obtain ⟨p, h₂⟩ := r
      simp only [Except.toOption, Option.bind_some, ha, Option.map_some] at hnull
      cases hnull
      exact ⟨h₁, h₂, rfl, ha⟩

end VibeOS.Mm.Heap
