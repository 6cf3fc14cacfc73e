import Mathlib.Data.List.MinMax
import Mathlib.Order.Bounds.Basic
import Mathlib.Order.Bounds.Defs
import VibeOS.Lib.Bits
import VibeOS.Mm.PageTable

/-!
The regions of an address space and where a mapping goes. The search for a free range runs down from
`mmapTop`, each time to below the lowest region its window meets; no free range is skipped, since
one that ends above that region's start would have to begin past its end. What a region is backed by
and may be used for plays no part here and is left out.
-/
namespace VibeOS.Process
open Lib
open Mm (pageSize4K)

def nullGuardLen : Nat := pageSize4K

def userMapEnd : Nat := 0x7FFFFFFFF000

def mmapTop : Nat := userMapEnd - 128 <<< 20

structure Region where
  start : Nat
  len : Nat
  deriving DecidableEq, Repr

/-- The errors a placement returns. -/
inductive AsError where
  | kernelRange | nullGuard | overlap | noVaSpace
  deriving DecidableEq

inductive Fixed where
  | no | replace | noReplace
  deriving DecidableEq, Repr

/-- A decoded request: `len` is page-rounded. -/
structure MmapReq where
  addr : Nat
  len : Nat
  fixed : Fixed

def Region.stop (r : Region) : Nat := saturatingAdd r.start r.len

/-- The slots of an address space. -/
abbrev Regions := List (Option Region)

namespace Regions

/-- The regions, in the order of their slots. -/
def used (rs : Regions) : List Region := rs.filterMap id

def overlaps (rs : Regions) (va len : Nat) : Bool :=
  rs.used.any fun r => decide (va < r.stop) && decide (r.start < saturatingAdd va len)

/-- The lowest start of a region that meets the window from `start` to `stop`. -/
def below (rs : Regions) (start stop : Nat) : Option Nat :=
  ((rs.used.filter fun r => decide (r.start < stop) && decide (start < r.stop)).map
    Region.start).min?

theorem below_spec {rs : Regions} {start stop s : Nat} (h : rs.below start stop = some s) :
    ∃ r ∈ rs.used, r.start = s ∧ s < stop ∧ start < r.stop := by
  have hmem := List.min?_mem h
  rw [List.mem_map] at hmem
  obtain ⟨r, hr, rfl⟩ := hmem
  rw [List.mem_filter, Bool.and_eq_true, decide_eq_true_eq, decide_eq_true_eq] at hr
  exact ⟨r, hr.1, rfl, hr.2⟩

/-- The loop of `mmap_place`: windows of `len` bytes that end at `stop` or lower. -/
def searchDown (rs : Regions) (len stop : Nat) : Except AsError Nat :=
  if len ≤ stop ∧ nullGuardLen ≤ stop - len then
    match _h : rs.below (stop - len) stop with
    | none => .ok (stop - len)
    | some s => searchDown rs len s
  else .error .noVaSpace
termination_by stop
decreasing_by
  obtain ⟨r, -, -, hlt, -⟩ := below_spec _h
  exact hlt

def pageDown (addr : Nat) : Nat := addr - addr % pageSize4K

/-- The hint of a request, rounded down to a page, is a free user range. -/
def hintUsable (rs : Regions) (req : MmapReq) : Bool :=
  decide (nullGuardLen ≤ pageDown req.addr) &&
    (checkedAdd (pageDown req.addr) req.len).any fun e =>
      decide (e ≤ userMapEnd) && !rs.overlaps (pageDown req.addr) req.len

def mmapPlace (rs : Regions) (req : MmapReq) : Except AsError Nat :=
  if req.fixed ≠ .no then
    if req.addr < nullGuardLen then .error .nullGuard
    else
      match checkedAdd req.addr req.len with
      | none => .error .kernelRange
      | some e =>
        if e > userMapEnd then .error .kernelRange
        else if rs.overlaps req.addr req.len then .error .overlap
        else .ok req.addr
  else if rs.hintUsable req then .ok (pageDown req.addr)
  else rs.searchDown req.len mmapTop

end Regions

namespace Region

def Covers (r : Region) (a : Nat) : Prop := r.start ≤ a ∧ a < r.start + r.len

end Region

namespace Regions
variable {rs : Regions} {len stop w va : Nat}

/-- No region has an address of the range. -/
def Clear (rs : Regions) (w len : Nat) : Prop :=
  ∀ r ∈ rs.used, ∀ a, w ≤ a → a < w + len → ¬ r.Covers a

/-- A range that a mapping of `len` bytes may take: past the null guard, below `mmapTop` and free.
-/
def Free (rs : Regions) (len w : Nat) : Prop :=
  nullGuardLen ≤ w ∧ w + len ≤ mmapTop ∧ rs.Clear w len

theorem clear_iff (hne : ∀ r ∈ rs.used, 0 < r.len) (hlen : 0 < len) :
    rs.Clear w len ↔ ∀ r ∈ rs.used, r.start + r.len ≤ w ∨ w + len ≤ r.start := by
  constructor
  · intro h r hr
    have hpos := hne r hr
    by_contra hmeet
    refine h r hr (max w r.start) (by omega) (by omega) ⟨by omega, by omega⟩
  · rintro h r hr a hwa haw ⟨hra, har⟩
    rcases h r hr with hle | hle <;> omega

theorem mmapTop_lt : mmapTop < 2 ^ 64 - 1 := by decide

theorem below_none (hne : ∀ r ∈ rs.used, 0 < r.len) (hlen : 0 < len) (hle : len ≤ stop)
    (htop : stop ≤ mmapTop) (h : rs.below (stop - len) stop = none) :
    rs.Clear (stop - len) len := by
  have htop' := mmapTop_lt
  rw [clear_iff hne hlen]
  intro r hr
  rw [below, List.min?_eq_none_iff, List.map_eq_nil_iff, List.filter_eq_nil_iff] at h
  have hno := h r hr
  rw [Bool.and_eq_true, decide_eq_true_eq, decide_eq_true_eq, Region.stop, saturatingAdd] at hno
  omega

/-- A free range that ends at or below `stop` ends at or below the start of a region its window
meets. -/
theorem below_skips (hne : ∀ r ∈ rs.used, 0 < r.len) (hlen : 0 < len) {s : Nat}
    (h : rs.below (stop - len) stop = some s) (hw : rs.Clear w len) (hstop : w + len ≤ stop) :
    w + len ≤ s := by
  obtain ⟨r, hr, rfl, -, hmeet⟩ := below_spec h
  rw [Region.stop, saturatingAdd] at hmeet
  rcases (clear_iff hne hlen).mp hw r hr with hle | hle
  · omega
  · exact hle

theorem searchDown_spec (hne : ∀ r ∈ rs.used, 0 < r.len) (hlen : 0 < len) (htop : stop ≤ mmapTop) :
    (∃ va, rs.searchDown len stop = .ok va ∧ IsGreatest {w | rs.Free len w ∧ w + len ≤ stop} va) ∨
      rs.searchDown len stop = .error .noVaSpace ∧ ∀ w, rs.Free len w → ¬ w + len ≤ stop := by
  induction stop using Nat.strongRecOn with
  | ind stop ih =>
    rw [searchDown]
    split
    · rename_i hfits
      split
      · rename_i hnone
        refine .inl ⟨stop - len, rfl, ⟨⟨hfits.2, by omega, ?_⟩, by omega⟩, fun w hw => ?_⟩
        · exact below_none hne hlen hfits.1 htop hnone
        · have := hw.2
          omega
      · rename_i s hs
        obtain ⟨r, -, -, hlt, -⟩ := below_spec hs
        have hskip : ∀ w, rs.Free len w → (w + len ≤ stop ↔ w + len ≤ s) := by
          intro w hw
          exact ⟨below_skips hne hlen hs hw.2.2, fun hle => by omega⟩
        rcases ih s hlt (by omega) with ⟨va, hva, hgreatest⟩ | ⟨herr, hno⟩
        · refine .inl ⟨va, hva, ⟨hgreatest.1.1, (hskip va hgreatest.1.1).mpr hgreatest.1.2⟩,
            fun w hw => ?_⟩
          exact hgreatest.2 ⟨hw.1, (hskip w hw.1).mp hw.2⟩
        · exact .inr ⟨herr, fun w hw hle => hno w hw ((hskip w hw).mp hle)⟩
    · rename_i hfits
      refine .inr ⟨rfl, fun w hw hle => hfits ⟨by omega, ?_⟩⟩
      have := hw.1
      omega

/-- A request whose hint is of no use goes to the highest free range below `mmapTop`, and fails for
want of address space exactly when there is none. -/
theorem mmap_place_highest (rs : Regions) (req : MmapReq) (hne : ∀ r ∈ rs.used, 0 < r.len)
    (hlen : 0 < req.len) (hfixed : req.fixed = .no) (hhint : rs.hintUsable req = false) :
    (∀ va, rs.mmapPlace req = .ok va ↔ IsGreatest {w | rs.Free req.len w} va) ∧
      (rs.mmapPlace req = .error .noVaSpace ↔ ∀ w, ¬ rs.Free req.len w) := by
  have hplace : rs.mmapPlace req = rs.searchDown req.len mmapTop := by
    rw [mmapPlace, if_neg (by simp [hfixed]), hhint]
    rfl
  have hset : {w | rs.Free req.len w ∧ w + req.len ≤ mmapTop} = {w | rs.Free req.len w} :=
    Set.ext fun w => and_iff_left_of_imp fun hw => hw.2.1
  rw [hplace]
  rcases searchDown_spec hne hlen (Nat.le_refl mmapTop) with ⟨va, hva, hgreatest⟩ | ⟨herr, hno⟩
  · rw [hset] at hgreatest
    rw [hva]
    refine ⟨fun va' => ⟨?_, fun h => ?_⟩, nofun, fun h => absurd hgreatest.1 (h va)⟩
    · rintro ⟨⟩
      exact hgreatest
    · rw [hgreatest.unique h]
  · have hnone : ∀ w, ¬ rs.Free req.len w := fun w hw => hno w hw hw.2.1
    rw [herr]
    exact ⟨fun va => ⟨nofun, fun h => absurd h.1 (hnone va)⟩, fun _ => hnone, fun _ => rfl⟩

/-- Two pages go into the gap between two regions, whatever the slots these are in. -/
theorem mmap_place_highest_gap :
    let rs : Regions := [some ⟨mmapTop - 0x4000, 0x1000⟩, none, some ⟨mmapTop - 0x1000, 0x1000⟩]
    let req : MmapReq := ⟨0, 0x2000, .no⟩
    (∀ r ∈ rs.used, 0 < r.len) ∧ 0 < req.len ∧ req.fixed = .no ∧ rs.hintUsable req = false ∧
      IsGreatest {w | rs.Free req.len w} (mmapTop - 0x3000) := by
  refine ⟨by decide, by decide, rfl, by decide, ?_⟩
  exact ((mmap_place_highest _ _ (by decide) (by decide) rfl (by decide)).1 _).mp
    (by decide +kernel)

end Regions
end VibeOS.Process
