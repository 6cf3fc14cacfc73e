import VibeOS.Lib.Coalesce
import VibeOS.Mm.KvaCoalesce

/-!
Runs of the kernel range allocator over one window. The free ranges and the ranges handed out
tile the window after every call. The ranges handed out lie between those left by a coalesce, so
there are at most one fewer of them, and the cap on live ranges leaves a node for every free.
-/
namespace VibeOS.Mm.Kva
open Lib

/-- A page-aligned, non-empty window that does not wrap. -/
structure Window where
  start : Nat
  size : Nat
  start_aligned : start % pageSize = 0
  size_aligned : size % pageSize = 0
  pos : 0 < size
  size_lt : size < 2 ^ 64
  stop_le : start + size ≤ 2 ^ 64

namespace Window

def stop (win : Window) : Nat := win.start + win.size

def span (win : Window) : Nat × Nat := (win.start, win.stop)

theorem cover_le_one (win : Window) (x : Nat) : cover [win.span] x ≤ 1 :=
  cover_le_one_of_apart (List.pairwise_singleton ..) x

end Window

variable {maxRanges len : Nat} {win : Window} {k : Kva} {live : List Range} {r : Range}

theorem cover_rest (hlen : len ≤ r.len) (x : Nat) :
    cover ((r.rest len).map Range.span) x + cover [(⟨r.start, len⟩ : Range).span] x =
      cover [r.span] x := by
  by_cases he : r.len = len
  · rw [Range.rest, if_pos he, List.map_nil, cover_nil, Nat.zero_add, ← he]
  · have hs : (⟨r.start + len, r.len - len⟩ : Range).span = (r.start + len, r.stop) := by
      unfold Range.span Range.stop
      simp only [Prod.mk.injEq, true_and]
      omega
    have hsplit := within_split (Nat.le_add_right r.start len)
      (Nat.add_le_add_left hlen r.start : r.start + len ≤ r.stop) x
    rw [Range.rest, if_neg he, List.map_singleton, hs]
    simp only [cover_cons, cover_nil, Nat.zero_add]
    rw [Nat.add_comm]
    exact hsplit

theorem Range.Fits.rest {lo hi : Nat} {q : Range} (h : r.Fits lo hi) (hlen : len ≤ r.len)
    (hpage : len % pageSize = 0) (hq : q ∈ r.rest len) : q.Fits lo hi := by
  have h₁ := h.lo_le
  have h₂ := h.le_hi
  unfold stop at h₂
  unfold Range.rest at hq
  split at hq
  · cases hq
  · rename_i he
    rw [List.mem_singleton.mp hq]
    refine ⟨Nat.sub_pos_of_lt (Nat.lt_of_le_of_ne hlen fun e => he e.symm), ?_, ?_, ?_, ?_⟩
    · exact Nat.le_trans h₁ (Nat.le_add_right _ _)
    · unfold stop
      simp only
      omega
    · change (r.start + len) % pageSize = 0
      rw [Nat.add_mod, h.start_aligned, hpage]
      rfl
    · exact Nat.mod_eq_zero_of_dvd (Nat.dvd_sub (Nat.dvd_of_mod_eq_zero h.len_aligned)
        (Nat.dvd_of_mod_eq_zero hpage))

/-- The pool holds what the window has besides the ranges handed out. -/
structure Inv (maxRanges : Nat) (win : Window) (k : Kva) (live : List Range) : Prop where
  list : Listed maxRanges k (k.listed maxRanges)
  tiles : Tiles ((k.freeList maxRanges ++ live).map Range.span) [win.span]
  fits : ∀ r ∈ k.freeList maxRanges ++ live, r.Fits win.start win.stop
  used_eq : k.used = total Range.len live
  live_eq : k.live = live.length
  cap : live.length ≤ liveCap maxRanges

theorem Listed.canonical {ids : List Nat} (h : Listed maxRanges k ids) :
    Listed maxRanges k (k.listed maxRanges) := by
  rw [h.listed_eq]
  exact h

theorem init_spec (win : Window) (hpos : 0 < maxRanges) (hmax : maxRanges ≤ 65535) :
    ∃ k, init maxRanges win.start win.size = .ok (.ok k) ∧ Inv maxRanges win k [] := by
  obtain ⟨n, rfl⟩ := Nat.exists_eq_succ_of_ne_zero (Nat.ne_of_gt hpos)
  let cleared : Kva := ⟨fun _ => ⟨0, 0⟩, fun _ => none, none, none, asU16, n + 1, 0, 0, win.size⟩
  -- the empty list, with every node spare
  have hempty : Listed (n + 1) cleared [] := by
    have hspare : cleared.spare = List.range (n + 1) := by
      refine (List.map_congr_left fun i hi => ?_).trans (List.map_id _)
      have : i < n + 1 := List.mem_range.mp hi
      exact asU16_of_lt (by omega)
    refine ⟨rfl, rfl, ?_, fun i hi => ?_, fun i _ => rfl⟩
    · rw [List.nil_append, hspare]
    · cases hi
  obtain ⟨i, k, hslot, hu, hl, hc, hlist, hmap⟩ :=
    hempty.append (r := ⟨win.start, win.size⟩) (Nat.succ_ne_zero n) win.pos
  have hk : k = { cleared with nslots := n } := by
    rw [allocSlot, if_neg (Nat.succ_ne_zero n)] at hslot
    exact (congrArg Prod.snd (Option.some.inj hslot)).symm
  have hfree : (k.append i ⟨win.start, win.size⟩).freeList (n + 1) = [⟨win.start, win.size⟩] := by
    rw [hlist.freeList_eq, hmap]
    rfl
  refine ⟨k.append i ⟨win.start, win.size⟩, ?_, hlist.canonical, ?_, ?_, ?_, ?_, Nat.zero_le _⟩
  · rw [init, if_neg (not_not.mpr win.size_aligned), if_neg (not_not.mpr win.start_aligned)]
    have hmatch : cleared.allocSlot = some (i, k) := hslot
    simp only [Nat.succ_eq_add_one]
    rw [hmatch]
    subst hk
    rfl
  · rw [hfree]
    exact fun x => rfl
  · rw [hfree]
    refine List.forall_mem_singleton.mpr ⟨win.pos, Nat.le_refl _, Nat.le_refl _, win.start_aligned,
      win.size_aligned⟩
  · exact hu
  · exact hl

namespace Inv

variable (h : Inv maxRanges win k live)
include h

theorem total_len : total Range.len (k.freeList maxRanges) + total Range.len live = win.size := by
  have hlen : ∀ l : List Range, ((l.map Range.span).map fun s => s.2 - s.1) = l.map Range.len := by
    intro l
    rw [List.map_map]
    exact List.map_congr_left fun r _ => Nat.add_sub_cancel_left ..
  have hsum := h.tiles.sum_length (n := win.stop)
    (fun s hs => by
      obtain ⟨r, hr, rfl⟩ := List.mem_map.mp hs
      exact (h.fits r hr).le_hi)
    (List.forall_mem_singleton.mpr (Nat.le_refl _))
  rw [hlen, List.map_singleton, List.sum_singleton] at hsum
  rw [← total_append]
  exact hsum.trans (Nat.add_sub_cancel_left ..)

theorem cover_free_le_one (x : Nat) : cover ((k.freeList maxRanges).map Range.span) x ≤ 1 := by
  have := h.tiles x
  rw [List.map_append, cover_append] at this
  exact Nat.le_trans (Nat.le_add_right _ _) (this ▸ win.cover_le_one x)

theorem handOut {pre post : List Range} {k' : Kva}
    (hfree : k.freeList maxRanges = pre ++ r :: post) (hpos : 0 < len) (hlen : len ≤ r.len)
    (hpage : len % pageSize = 0) (hcap : k.live < liveCap maxRanges)
    (hlist : Listed maxRanges k' (k'.listed maxRanges))
    (hfree' : k'.freeList maxRanges = pre ++ (r.rest len ++ post))
    (hused : k'.used = k.used + len) (hlive : k'.live = k.live + 1) :
    Inv maxRanges win k' (⟨r.start, len⟩ :: live) := by
  have hr : r.Fits win.start win.stop := h.fits r (by simp [hfree])
  refine ⟨hlist, fun x => ?_, fun q hq => ?_, ?_, ?_, ?_⟩
  · have hrest := cover_rest hlen x
    have ht := h.tiles x
    rw [hfree] at ht
    rw [hfree', ← ht]
    simp only [List.map_append, List.map_cons, cover_append, cover_cons, cover_nil] at hrest ⊢
    omega
  · rw [hfree'] at hq
    have hold : ∀ q ∈ pre ++ r :: post ++ live, q.Fits win.start win.stop := hfree ▸ h.fits
    simp only [List.mem_append, List.mem_cons] at hq hold
    rcases hq with (hq | hq | hq) | hq | hq
    · exact hold q (.inl (.inl hq))
    · exact hr.rest hlen hpage hq
    · exact hold q (.inl (.inr (.inr hq)))
    · rw [hq]
      exact ⟨hpos, hr.lo_le, Nat.le_trans (Nat.add_le_add_left hlen _) hr.le_hi, hr.start_aligned,
        hpage⟩
    · exact hold q (.inr hq)
  · rw [hused, h.used_eq, total_cons, Nat.add_comm]
  · rw [hlive, h.live_eq]
    rfl
  · rw [h.live_eq] at hcap
    exact hcap

theorem alloc (len : Nat) :
    (alloc maxRanges k len = .ok (none, k) ∧ (len = 0 ∨ len % pageSize ≠ 0 ∨
        liveCap maxRanges ≤ live.length ∨ ∀ r ∈ k.freeList maxRanges, r.len < len)) ∨
      ∃ pre r post k', k.freeList maxRanges = pre ++ r :: post ∧ (∀ q ∈ pre, q.len < len) ∧
        len ≤ r.len ∧ alloc maxRanges k len = .ok (some r.start, k') ∧
        k'.freeList maxRanges = pre ++ (r.rest len ++ post) ∧
        Inv maxRanges win k' (⟨r.start, len⟩ :: live) := by
  by_cases hguard : len = 0 ∨ len % pageSize ≠ 0 ∨ liveCap maxRanges ≤ k.live
  · refine .inl ⟨if_pos hguard, ?_⟩
    rw [← h.live_eq]
    rcases hguard with hg | hg | hg
    · exact .inl hg
    · exact .inr (.inl hg)
    · exact .inr (.inr (.inl hg))
  · have hbody : Kva.alloc maxRanges k len = _ := if_neg hguard
    simp only [not_or, not_not, Nat.not_le] at hguard
    obtain ⟨hpos, hpage, hcap⟩ := hguard
    rcases h.list.search len with ⟨hs, hnone⟩ | ⟨l₁, i, l₂, hids, hi, hl₁, hs⟩
    · refine .inl ⟨by rw [hbody, hs], .inr (.inr (.inr fun r hr => ?_))⟩
      obtain ⟨i, hi, rfl⟩ := List.mem_map.mp hr
      exact hnone i hi
    · have hfree : k.freeList maxRanges = l₁.map k.nodes ++ k.nodes i :: l₂.map k.nodes := by
        rw [freeList, hids, List.map_append, List.map_cons]
      have hmem : k.nodes i ∈ k.freeList maxRanges := by simp [hfree]
      have hfit := h.fits _ (List.mem_append_left live hmem)
      have hused : k.used + len < 2 ^ 64 := by
        have h₁ := h.total_len
        have h₂ := le_total Range.len hmem
        have h₃ := win.size_lt
        rw [h.used_eq]
        omega
      have hlist := h.list
      rw [hids] at hlist
      obtain ⟨k', ids', hrun, hlist', hmap, hu, hl, -⟩ :=
        hlist.take hi (Nat.le_trans hfit.le_hi win.stop_le) hused
      have hfree' := hlist'.freeList_eq.trans hmap
      refine .inr ⟨l₁.map k.nodes, k.nodes i, l₂.map k.nodes, k', hfree, fun q hq => ?_, hi, ?_,
        hfree', h.handOut hfree (Nat.pos_of_ne_zero hpos) hi hpage hcap hlist'.canonical
        hfree' hu hl⟩
      · obtain ⟨j, hj, rfl⟩ := List.mem_map.mp hq
        exact hl₁ j hj
      · rw [hbody, hs]
        simp only [hrun, bind, Except.bind, pure, Except.pure]

theorem coalesceAll (hmax : maxRanges ≤ 65535) :
    ∃ k', coalesceAll maxRanges k = .ok k' ∧ Inv maxRanges win k' live ∧
      ((k'.freeList maxRanges).Pairwise fun a b => a.stop < b.start) ∧
      ∀ x, cover ((k'.freeList maxRanges).map Range.span) x =
        cover ((k.freeList maxRanges).map Range.span) x := by
  have hlo : win.stop - win.start < 2 ^ 64 := by
    have := win.size_lt
    unfold Window.stop
    omega
  obtain ⟨k', ids', hrun, hlist, hfits, hsep, hcover, hu, hl, -⟩ :=
    h.list.coalesceAll hmax win.stop_le hlo (fun a ha => h.fits a (List.mem_append_left _ ha))
      h.cover_free_le_one
  rw [← hlist.freeList_eq] at hfits hsep hcover
  refine ⟨k', hrun, ⟨hlist.canonical, fun x => ?_, fun q hq => ?_, hu.trans h.used_eq,
    hl.trans h.live_eq, h.cap⟩, hsep, hcover⟩
  · rw [← h.tiles x, List.map_append, List.map_append, cover_append, cover_append, hcover]
    rfl
  · rcases List.mem_append.mp hq with hq | hq
    · exact hfits q hq
    · exact h.fits q (List.mem_append_right _ hq)

theorem nslots_pos (hthree : 3 ≤ maxRanges)
    (hsep : (k.freeList maxRanges).Pairwise fun a b => a.stop < b.start) : 0 < k.nslots := by
  have htiles := h.tiles
  rw [List.map_append] at htiles
  have hcount := htiles.length_le_of_separated
    (fun s hs => by
      obtain ⟨r, hr, rfl⟩ := List.mem_map.mp hs
      exact (h.fits r (List.mem_append_left _ hr)).start_lt_stop)
    (List.pairwise_map.mpr hsep)
  rw [freeList, List.length_map, List.length_map, List.length_map] at hcount
  have hnodes := h.list.length_add
  have hcap := h.cap
  unfold liveCap at hcap
  omega

theorem takeBack (hr : r ∈ live) (hn : k.nslots ≠ 0) :
    ∃ i k', k.allocSlot = some (i, k') ∧
      Inv maxRanges win { k'.append i r with used := k'.used - r.len, live := k'.live - 1 }
        (live.erase r) ∧
      freeList maxRanges { k'.append i r with used := k'.used - r.len, live := k'.live - 1 } =
        k.freeList maxRanges ++ [r] := by
  have hfit := h.fits r (List.mem_append_right _ hr)
  obtain ⟨i, k', hslot, hu, hl, -, hlist, hmap⟩ := h.list.append hn hfit.pos
  have hperm : live.Perm (r :: live.erase r) := List.perm_cons_erase hr
  have hlist' : Listed maxRanges { k'.append i r with used := k'.used - r.len, live := k'.live - 1 }
      (k.listed maxRanges ++ [i]) := ⟨hlist.chain, hlist.last, hlist.once, hlist.pos, hlist.zero⟩
  have hfree : freeList maxRanges
      { k'.append i r with used := k'.used - r.len, live := k'.live - 1 } =
        k.freeList maxRanges ++ [r] := hlist'.freeList_eq.trans hmap
  have hall : (k.freeList maxRanges ++ [r] ++ live.erase r).Perm
      (k.freeList maxRanges ++ live) := by
    rw [List.append_assoc]
    exact hperm.symm.append_left _
  have htotal : total Range.len live = r.len + total Range.len (live.erase r) := by
    rw [total, (hperm.map Range.len).sum_eq, List.map_cons, List.sum_cons]
    rfl
  have hcount := hperm.length_eq
  rw [List.length_cons] at hcount
  refine ⟨i, k', hslot, ⟨hlist'.canonical, ?_, fun q hq => ?_, ?_, ?_, ?_⟩, hfree⟩
  · rw [hfree]
    exact h.tiles.perm (hall.map Range.span)
  · rw [hfree] at hq
    exact h.fits q (hall.subset hq)
  · change k'.used - r.len = _
    rw [hu, h.used_eq, htotal, Nat.add_sub_cancel_left]
  · change k'.live - 1 = _
    rw [hl, h.live_eq, hcount, Nat.add_sub_cancel]
  · have := h.cap
    omega

theorem free (hthree : 3 ≤ maxRanges) (hmax : maxRanges ≤ 65535) (hr : r ∈ live) :
    ∃ k', free maxRanges k r.start r.len = .ok k' ∧ Inv maxRanges win k' (live.erase r) ∧
      (k'.freeList maxRanges).getLast? = some r := by
  have hfit := h.fits r (List.mem_append_right _ hr)
  have hpage : ¬ ¬ (r.len % pageSize = 0 ∧ r.start % pageSize = 0) :=
    not_not.mpr ⟨hfit.len_aligned, hfit.start_aligned⟩
  have hlive : ¬ ¬ (r.len ≤ k.used ∧ 0 < k.live) := by
    refine not_not.mpr ⟨h.used_eq ▸ le_total Range.len hr, ?_⟩
    rw [h.live_eq]
    exact List.length_pos_of_mem hr
  have hbody : Kva.free maxRanges k r.start r.len = _ :=
    (if_neg hpage).trans ((if_neg (Nat.ne_of_gt hfit.pos)).trans (if_neg hlive))
  rw [hbody]
  by_cases hn : k.nslots = 0
  · obtain ⟨kc, hrun, hinv, hsep, -⟩ := h.coalesceAll hmax
    have hpos := hinv.nslots_pos hthree hsep
    obtain ⟨i, k', hslot, hinv', hlast⟩ := hinv.takeBack hr (Nat.ne_of_gt hpos)
    refine ⟨_, ?_, hinv', hlast ▸ List.getLast?_concat ..⟩
    simp only [if_pos hn, hrun, bind, Except.bind, hslot]
    rfl
  · obtain ⟨i, k', hslot, hinv', hlast⟩ := h.takeBack hr hn
    refine ⟨_, ?_, hinv', hlast ▸ List.getLast?_concat ..⟩
    simp only [if_neg hn, bind, Except.bind, pure, Except.pure, hslot]

end Inv

inductive Op where
  | alloc (len : Nat)
  | allocGuarded (pages : Nat)
  | free (r : Range)

/-- The allocator, and the ranges it has handed out and not taken back. -/
structure Sys where
  kva : Kva
  live : List Range

namespace Sys

def handed (live : List Range) (len : Nat) : Option Nat → List Range
  | some start => ⟨start, len⟩ :: live
  | none => live

def step (maxRanges : Nat) (s : Sys) : Op → Except Fault Sys
  | .alloc len => do
    let (start, k) ← Kva.alloc maxRanges s.kva len
    pure ⟨k, handed s.live len start⟩
  | .allocGuarded pages => do
    let (start, k) ← Kva.allocGuarded maxRanges s.kva pages
    pure ⟨k, handed s.live ((pages + 1) * pageSize) start⟩
  | .free r => do
    let k ← Kva.free maxRanges s.kva r.start r.len
    pure ⟨k, s.live.erase r⟩

/-- A free takes back a live range, with its length. -/
def Allowed (s : Sys) : Op → Prop
  | .free r => r ∈ s.live
  | _ => True

instance (s : Sys) : (op : Op) → Decidable (s.Allowed op)
  | .alloc _ => isTrue trivial
  | .allocGuarded _ => isTrue trivial
  | .free r => inferInstanceAs (Decidable (r ∈ s.live))

/-- The states a run over the window reaches. -/
inductive Reach (maxRanges : Nat) (win : Window) : Sys → Prop
  | init {k : Kva} : Kva.init maxRanges win.start win.size = .ok (.ok k) →
      Reach maxRanges win ⟨k, []⟩
  | step {s s' : Sys} {op : Op} : Reach maxRanges win s → s.Allowed op →
      s.step maxRanges op = .ok s' →
      Reach maxRanges win s'

/-- Make the calls in turn, as long as each is allowed and goes through. -/
def play (maxRanges : Nat) (s : Sys) : List Op → Option Sys
  | [] => some s
  | op :: ops =>
    if s.Allowed op then
      match s.step maxRanges op with
      | .ok s' => play maxRanges s' ops
      | .error _ => none
    else none

theorem Reach.play {s s' : Sys} {ops : List Op} (h : Reach maxRanges win s)
    (hp : s.play maxRanges ops = some s') : Reach maxRanges win s' := by
  induction ops generalizing s with
  | nil =>
    cases hp
    exact h
  | cons op ops ih =>
    rw [Sys.play] at hp
    split at hp
    · rename_i hop
      split at hp
      · rename_i s₁ hrun
        exact ih (.step h hop hrun) hp
      · cases hp
    · cases hp

/-- `(pages + 1) * PAGE_SIZE` in `alloc_guarded` does not fit. -/
def Overflows : Op → Prop
  | .allocGuarded pages => 2 ^ 64 ≤ (pages + 1) * pageSize
  | _ => False

end Sys

theorem allocGuarded_eq (k : Kva) {pages : Nat} (hp : 0 < pages)
    (hlen : (pages + 1) * pageSize < 2 ^ 64) :
    allocGuarded maxRanges k pages = alloc maxRanges k ((pages + 1) * pageSize) := by
  have hcount : add64 pages 1 = .ok (pages + 1) := by
    refine if_pos (Nat.lt_of_le_of_lt (Nat.le_mul_of_pos_right _ ?_) hlen)
    decide
  have hmul : mul64 (pages + 1) pageSize = .ok ((pages + 1) * pageSize) := if_pos hlen
  rw [allocGuarded, if_neg (Nat.ne_of_gt hp)]
  simp only [hcount, bind, Except.bind, hmul]

namespace Inv

theorem step {s : Sys} {op : Op} (h : Inv maxRanges win s.kva s.live) (hthree : 3 ≤ maxRanges)
    (hmax : maxRanges ≤ 65535) (hop : s.Allowed op) (hfit : ¬ Sys.Overflows op) :
    ∃ s', s.step maxRanges op = .ok s' ∧ Inv maxRanges win s'.kva s'.live := by
  have halloc : ∀ len, ∃ start k', Kva.alloc maxRanges s.kva len = .ok (start, k') ∧
      Inv maxRanges win k' (Sys.handed s.live len start) := by
    intro len
    rcases h.alloc len with ⟨hrun, -⟩ | ⟨pre, r, post, k', -, -, -, hrun, -, hinv⟩
    · exact ⟨none, s.kva, hrun, h⟩
    · exact ⟨some r.start, k', hrun, hinv⟩
  cases op with
  | alloc len =>
    obtain ⟨start, k', hrun, hinv⟩ := halloc len
    refine ⟨⟨k', Sys.handed s.live len start⟩, ?_, hinv⟩
    simp only [Sys.step, hrun, bind, Except.bind, pure, Except.pure]
  | allocGuarded pages =>
    rcases Nat.eq_zero_or_pos pages with rfl | hp
    · exact ⟨s, rfl, h⟩
    · obtain ⟨start, k', hrun, hinv⟩ := halloc ((pages + 1) * pageSize)
      refine ⟨⟨k', Sys.handed s.live ((pages + 1) * pageSize) start⟩, ?_, hinv⟩
      simp only [Sys.step, allocGuarded_eq s.kva hp (Nat.lt_of_not_le hfit), hrun, bind,
        Except.bind, pure, Except.pure]
  | free r =>
    obtain ⟨k', hrun, hinv, -⟩ := h.free hthree hmax hop
    refine ⟨⟨k', s.live.erase r⟩, ?_, hinv⟩
    simp only [Sys.step, hrun, bind, Except.bind, pure, Except.pure]

end Inv

theorem step_overflows {s : Sys} {op : Op} (h : Sys.Overflows op) :
    s.step maxRanges op = .error .overflow := by
  cases op with
  | alloc len => exact h.elim
  | free r => exact h.elim
  | allocGuarded pages =>
    have hover : 2 ^ 64 ≤ (pages + 1) * pageSize := h
    have hp : pages ≠ 0 := by
      rintro rfl
      exact absurd hover (by decide)
    have hmul : mul64 (pages + 1) pageSize = .error .overflow := if_neg (Nat.not_lt.mpr hover)
    have hcount : add64 pages 1 = .ok (pages + 1) ∨ add64 pages 1 = .error .overflow := by
      unfold add64
      split
      · exact .inl rfl
      · exact .inr rfl
    rcases hcount with hc | hc
    · simp only [Sys.step, allocGuarded, if_neg hp, hc, hmul, bind, Except.bind]
    · simp only [Sys.step, allocGuarded, if_neg hp, hc, bind, Except.bind]

theorem reach_inv {s : Sys} (h : Sys.Reach maxRanges win s) (hthree : 3 ≤ maxRanges)
    (hmax : maxRanges ≤ 65535) : Inv maxRanges win s.kva s.live := by
  induction h with
  | init hk =>
    obtain ⟨k, hrun, hinv⟩ := init_spec win (Nat.lt_of_lt_of_le (by decide) hthree) hmax
    rw [hk] at hrun
    cases hrun
    exact hinv
  | @step s s' op _ hop hrun ih =>
    by_cases hover : Sys.Overflows op
    · rw [step_overflows hover] at hrun
      cases hrun
    · obtain ⟨s'', hrun', hinv⟩ := ih.step hthree hmax hop hover
      rw [hrun] at hrun'
      cases hrun'
      exact hinv

/-- What holds of a pool over a window and of the next call on it. -/
structure Sound (maxRanges : Nat) (win : Window) (s : Sys) : Prop where
  partition : Tiles ((s.kva.freeList maxRanges ++ s.live).map Range.span) [win.span]
  fits : ∀ r ∈ s.kva.freeList maxRanges ++ s.live, r.Fits win.start win.stop
  used : s.kva.used = total Range.len s.live
  live : s.kva.live = s.live.length
  ends : Chained s.kva.next s.kva.head (s.kva.listed maxRanges)
  once : (s.kva.listed maxRanges ++ s.kva.spare).Perm (List.range maxRanges)
  alloc_none : ∀ len k, s.kva.alloc maxRanges len = .ok (none, k) → k = s.kva ∧
    (len = 0 ∨ len % pageSize ≠ 0 ∨ liveCap maxRanges ≤ s.live.length ∨
      ∀ r ∈ s.kva.freeList maxRanges, r.len < len)
  guarded_none : ∀ pages k, s.kva.allocGuarded maxRanges pages = .ok (none, k) → k = s.kva
  first_fit : ∀ len start k, s.kva.alloc maxRanges len = .ok (some start, k) →
    ∃ pre r post, s.kva.freeList maxRanges = pre ++ r :: post ∧ (∀ q ∈ pre, q.len < len) ∧
      len ≤ r.len ∧ start = r.start ∧ k.freeList maxRanges = pre ++ (r.rest len ++ post)
  coalesced : ∃ k, s.kva.coalesceAll maxRanges = .ok k ∧
    ((k.freeList maxRanges).Pairwise fun a b => a.stop < b.start) ∧
    ∀ x, (∃ r ∈ k.freeList maxRanges, Within r.span x) ↔
      ∃ r ∈ s.kva.freeList maxRanges, Within r.span x
  freed_last : ∀ r ∈ s.live, ∃ k, s.kva.free maxRanges r.start r.len = .ok k ∧
    (k.freeList maxRanges).getLast? = some r
  goes_on : ∀ op, s.Allowed op → ¬ Sys.Overflows op → ∃ s', s.step maxRanges op = .ok s'
  overflow : ∀ op, Sys.Overflows op → s.step maxRanges op = .error .overflow

theorem covered_iff (l : List Range) (x : Nat) :
    0 < cover (l.map Range.span) x ↔ ∃ r ∈ l, Within r.span x := by
  rw [cover_pos]
  simp only [List.mem_map, exists_exists_and_eq_and]

theorem Inv.sound {s : Sys} (h : Inv maxRanges win s.kva s.live) (hthree : 3 ≤ maxRanges)
    (hmax : maxRanges ≤ 65535) : Sound maxRanges win s := by
  have hnone : ∀ len k, s.kva.alloc maxRanges len = .ok (none, k) → k = s.kva ∧
      (len = 0 ∨ len % pageSize ≠ 0 ∨ liveCap maxRanges ≤ s.live.length ∨
        ∀ r ∈ s.kva.freeList maxRanges, r.len < len) := by
    intro len k hk
    rcases h.alloc len with ⟨hrun, hwhy⟩ | ⟨pre, r, post, k', -, -, -, hrun, -, -⟩
    · rw [hk] at hrun
      cases hrun
      exact ⟨rfl, hwhy⟩
    · rw [hk] at hrun
      cases hrun
  refine ⟨h.tiles, h.fits, h.used_eq, h.live_eq, h.list.chain, h.list.once, hnone, ?_, ?_, ?_,
    ?_, ?_, fun op => step_overflows⟩
  · intro pages k hk
    rcases Nat.eq_zero_or_pos pages with rfl | hp
    · cases hk
      rfl
    · by_cases hover : (pages + 1) * pageSize < 2 ^ 64
      · rw [allocGuarded_eq s.kva hp hover] at hk
        exact (hnone _ k hk).1
      · have : s.step maxRanges (.allocGuarded pages) = .error .overflow :=
          step_overflows (Nat.le_of_not_lt hover)
        simp only [Sys.step, hk, bind, Except.bind, pure, Except.pure] at this
        cases this
  · intro len start k hk
    rcases h.alloc len with ⟨hrun, -⟩ | ⟨pre, r, post, k', hfree, hpre, hlen, hrun, hfree', -⟩
    · rw [hk] at hrun
      cases hrun
    · rw [hk] at hrun
      cases hrun
      exact ⟨pre, r, post, hfree, hpre, hlen, rfl, hfree'⟩
  · obtain ⟨k, hrun, -, hsep, hcover⟩ := h.coalesceAll hmax
    refine ⟨k, hrun, hsep, fun x => ?_⟩
    rw [← covered_iff, ← covered_iff, hcover]
  · intro r hr
    obtain ⟨k, hrun, -, hlast⟩ := h.free hthree hmax hr
    exact ⟨k, hrun, hlast⟩
  · intro op hop hfit
    obtain ⟨s', hrun, -⟩ := h.step hthree hmax hop hfit
    exact ⟨s', hrun⟩

/-- Over any page-aligned window and any run, the free and the live ranges partition the window,
the counts are what they count, every node is listed or spare, allocation is first fit and fails
without a change, a coalesce keeps the free addresses and leaves them in separate ranges, and no
assertion fires. -/
theorem ranges_partition (win : Window) (hthree : 3 ≤ maxRanges) (hmax : maxRanges ≤ 65535) :
    (∃ k, init maxRanges win.start win.size = .ok (.ok k)) ∧
      ∀ s, Sys.Reach maxRanges win s → Sound maxRanges win s := by
  obtain ⟨k, hrun, -⟩ := init_spec win (Nat.lt_of_lt_of_le (by decide) hthree) hmax
  exact ⟨⟨k, hrun⟩, fun s hs => (reach_inv hs hthree hmax).sound hthree hmax⟩

def fourPages : Window :=
  ⟨4096, 16384, by decide, by decide, by decide, by decide, by decide⟩

/-- Three nodes and a window of four pages. The third free finds no node and coalesces: the first
two pages become one range again, and the freed page is at the end of the list. -/
theorem ranges_partition_coalesced :
    ∃ s, Sys.Reach 3 fourPages s ∧
      s.kva.freeList 3 = [⟨4096, 8192⟩, ⟨16384, 4096⟩, ⟨12288, 4096⟩] ∧ Sound 3 fourPages s := by
  obtain ⟨⟨k, hk⟩, hsound⟩ := ranges_partition fourPages (Nat.le_refl 3) (by decide : 3 ≤ 65535)
  have hrun : ((init 3 4096 16384).toOption.bind Except.toOption).bind (fun k =>
      (Sys.play 3 ⟨k, []⟩ [.alloc 4096, .free ⟨4096, 4096⟩, .alloc 4096, .free ⟨8192, 4096⟩,
        .alloc 4096, .free ⟨12288, 4096⟩]).map fun s => s.kva.freeList 3) =
      some [⟨4096, 8192⟩, ⟨16384, 4096⟩, ⟨12288, 4096⟩] := by decide +kernel
  have hk' : init 3 4096 16384 = .ok (.ok k) := hk
  rw [hk'] at hrun
  obtain ⟨s, hs, hfree⟩ := Option.map_eq_some_iff.mp hrun
  have hreach := (Sys.Reach.init hk).play hs
  exact ⟨s, hreach, hfree, hsound s hreach⟩

end VibeOS.Mm.Kva
