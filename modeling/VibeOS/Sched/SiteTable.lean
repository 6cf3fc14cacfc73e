import Mathlib.Algebra.Order.Ring.Nat
import Mathlib.Tactic.Common
import VibeOS.Lib.Probing

/-!
The table of sites that the interrupts-off tracer counts by. A call of `get_or_insert` probes from
the site's hash on, and any number of calls run at once, each load, compare-exchange and add one
step; a slot is represented by its key, its counters are left out.
-/
namespace VibeOS.Sched
open Lib.Probing

/-- Slot of probe `i`, from the Fibonacci hash of the key. -/
def probe (n : Nat) (key : UInt64) (i : Nat) : Nat :=
  (((key * 0x9E3779B97F4A7C15) >>> 32).toNat % n + i) % n

/-- A call under way: the probe it is at, and whether it found that slot free. -/
structure SiteCall where
  key : UInt64
  i : Nat
  claiming : Bool

/-- `returned` is the history of all calls that ended, with their results. -/
structure SiteTable (T : Type) where
  keys : Nat → UInt64
  dropped : UInt32
  calls : T → Option SiteCall
  returned : List (UInt64 × Option Nat)

inductive SiteAct (T : Type) where
  | getOrInsert (t : T) (key : UInt64)
  | advance (t : T)

namespace SiteTable
variable {T : Type} [DecidableEq T] {n : Nat}

def new : SiteTable T :=
  ⟨fun _ => 0, 0, fun _ => none, []⟩

def goto (s : SiteTable T) (t : T) (c : SiteCall) : SiteTable T :=
  { s with calls := Function.update s.calls t (some c) }

def finish (s : SiteTable T) (t : T) (key : UInt64) (slot : Option Nat) : SiteTable T :=
  { s with calls := Function.update s.calls t none, returned := (key, slot) :: s.returned }

/-- The next step of a call: a load, the compare-exchange after a load of 0, or, past the last
slot, the count of a site without one. -/
def advance (n : Nat) (s : SiteTable T) (t : T) (c : SiteCall) : SiteTable T :=
  if c.i < n then
    let slot := probe n c.key c.i
    if s.keys slot = c.key then s.finish t c.key (some slot)
    else if s.keys slot ≠ 0 then s.goto t ⟨c.key, c.i + 1, false⟩
    else if c.claiming then
      { s with keys := Function.update s.keys slot c.key }.finish t c.key (some slot)
    else s.goto t ⟨c.key, c.i, true⟩
  else { s with dropped := s.dropped + 1 }.finish t c.key none

def step (n : Nat) (s : SiteTable T) : SiteAct T → SiteTable T
  | .getOrInsert t key =>
    if (s.calls t).isSome then s
    else if key = 0 ∨ n = 0 then s.finish t key none
    else s.goto t ⟨key, 0, false⟩
  | .advance t =>
    match s.calls t with
    | none => s
    | some c => s.advance n t c

def run (n : Nat) (s : SiteTable T) (acts : List (SiteAct T)) : SiteTable T :=
  acts.foldl (step n) s

/-- Calls that found the table full. -/
def refused (s : SiteTable T) (n : Nat) : Nat :=
  s.returned.countP fun r => r.1 ≠ 0 ∧ 0 < n ∧ r.2 = none

structure Inv (n : Nat) (s : SiteTable T) : Prop where
  claimed : Claimed 0 (probe n) n s.keys
  passed : ∀ t c, s.calls t = some c → c.key ≠ 0 ∧ 0 < n ∧ Passed 0 (probe n) s.keys c.key c.i
  found : ∀ k a, (k, some a) ∈ s.returned → s.keys a = k ∧ k ≠ 0
  full : ∀ k, (k, none) ∈ s.returned → k ≠ 0 → Passed 0 (probe n) s.keys k n
  dropped : s.dropped = UInt32.ofNat (s.refused n)

variable {s : SiteTable T} {t : T} {c : SiteCall}

omit [DecidableEq T] in
theorem inv_new : Inv n (new : SiteTable T) :=
  ⟨fun _ h => absurd rfl h, nofun, nofun, nofun, rfl⟩

theorem Inv.goto (h : Inv n s) (hc : c.key ≠ 0 ∧ 0 < n ∧ Passed 0 (probe n) s.keys c.key c.i) :
    Inv n (s.goto t c) := by
  refine ⟨h.claimed, fun u d hd => ?_, h.found, h.full, h.dropped⟩
  by_cases hu : u = t
  · subst hu
    obtain rfl : c = d := by simpa [SiteTable.goto] using hd
    exact hc
  · exact h.passed u d (by simpa [SiteTable.goto, hu] using hd)

theorem Inv.passed_finish (h : Inv n s) {u : T} {d : SiteCall}
    (hd : Function.update s.calls t none u = some d) :
    d.key ≠ 0 ∧ 0 < n ∧ Passed 0 (probe n) s.keys d.key d.i := by
  by_cases hu : u = t
  · simp [hu] at hd
  · exact h.passed u d (by simpa [hu] using hd)

theorem Inv.finish_found {k : UInt64} {a : Nat} (h : Inv n s) (ha : s.keys a = k) (hk : k ≠ 0) :
    Inv n (s.finish t k (some a)) := by
  refine ⟨h.claimed, fun u d hd => h.passed_finish hd, fun k' b hb => ?_, fun k' hk' => ?_, ?_⟩
  · rcases List.mem_cons.mp hb with heq | hb
    · cases heq
      exact ⟨ha, hk⟩
    · exact h.found k' b hb
  · exact h.full k' (by simpa [finish] using hk')
  · rw [show (s.finish t k (some a)).refused n = s.refused n by simp [refused, finish]]
    exact h.dropped

omit [DecidableEq T] in
/-- A free slot taken by a call that passed all slots before it. -/
theorem Inv.claim (h : Inv n s) (hc : s.calls t = some c) (hi : c.i < n)
    (hfree : s.keys (probe n c.key c.i) = 0) :
    Inv n { s with keys := Function.update s.keys (probe n c.key c.i) c.key } := by
  obtain ⟨hk, hn, hp⟩ := h.passed t c hc
  refine ⟨h.claimed.claim hp hi hfree, fun u d hd => ?_, fun k a ha => ?_, fun k hk hz => ?_,
    h.dropped⟩
  · obtain ⟨hd0, -, hpd⟩ := h.passed u d hd
    exact ⟨hd0, hn, hpd.claim hfree⟩
  · obtain ⟨hka, hk0⟩ := h.found k a ha
    exact ⟨(update_of_claimed hfree (hka ▸ hk0)).trans hka, hk0⟩
  · exact (h.full k hk hz).claim hfree

theorem Inv.finish_full (h : Inv n s) (hc : s.calls t = some c) (hi : n ≤ c.i) :
    Inv n ({ s with dropped := s.dropped + 1 }.finish t c.key none) := by
  obtain ⟨hk, hn, hp⟩ := h.passed t c hc
  refine ⟨h.claimed, fun u d hd => h.passed_finish hd,
    fun k a ha => h.found k a (by simpa [finish] using ha), fun k hmem hk0 => ?_, ?_⟩
  · rcases List.mem_cons.mp hmem with heq | hmem
    · cases heq
      exact fun j hj => hp j (hj.trans_le hi)
    · exact h.full k hmem hk0
  · change s.dropped + 1 = _
    rw [h.dropped]
    simp [refused, finish, hk, hn]

theorem Inv.advance (h : Inv n s) (hc : s.calls t = some c) : Inv n (s.advance n t c) := by
  obtain ⟨hk, hn, hp⟩ := h.passed t c hc
  unfold SiteTable.advance
  split
  · rename_i hi
    dsimp only
    split
    · exact h.finish_found ‹_› hk
    · split
      · exact h.goto ⟨hk, hn, hp.succ ‹_› ‹_›⟩
      · rename_i hfree
        split
        · exact (h.claim hc hi (not_not.mp hfree)).finish_found (Function.update_self ..) hk
        · exact h.goto ⟨hk, hn, hp⟩
  · exact h.finish_full hc (Nat.le_of_not_lt ‹_›)

theorem Inv.step (h : Inv n s) (a : SiteAct T) : Inv n (s.step n a) := by
  cases a with
  | getOrInsert t key =>
    simp only [SiteTable.step]
    split
    · exact h
    · split
      · rename_i hnone
        refine ⟨h.claimed, fun u d hd => h.passed_finish hd, fun k a ha => h.found k a ?_,
          fun k hk hk0 => ?_, ?_⟩
        · simpa [finish] using ha
        · rcases List.mem_cons.mp hk with heq | hk
          · cases heq
            rw [hnone.resolve_left hk0]
            exact nofun
          · exact h.full k hk hk0
        · rw [show (s.finish t key none).refused n = s.refused n by
            simp only [refused, finish]
            exact List.countP_cons_of_neg (by simpa using hnone.resolve_left)]
          exact h.dropped
      · rename_i hsome
        rw [not_or] at hsome
        exact h.goto ⟨hsome.1, Nat.pos_of_ne_zero hsome.2, nofun⟩
  | advance t =>
    simp only [SiteTable.step]
    split
    · exact h
    · exact h.advance ‹_›

theorem inv_run (acts : List (SiteAct T)) : Inv n (run n (new : SiteTable T) acts) := by
  suffices hall : ∀ s : SiteTable T, Inv n s → Inv n (run n s acts) from hall _ inv_new
  induction acts with
  | nil => exact fun s h => h
  | cons a acts ih => exact fun s h => ih _ (h.step a)

theorem exists_probe {a : Nat} (k : UInt64) (ha : a < n) : ∃ i < n, probe n k i = a := by
  have hn : 0 < n := Nat.zero_lt_of_lt ha
  unfold probe
  generalize ((k * 0x9E3779B97F4A7C15) >>> 32).toNat = start
  have hs := Nat.mod_lt start hn
  refine ⟨(a + n - start % n) % n, Nat.mod_lt _ hn, ?_⟩
  rw [Nat.add_mod_mod, show start % n + (a + n - start % n) = a + n by omega, Nat.add_mod_right,
    Nat.mod_eq_of_lt ha]

/-- However the calls interleave, those for one site get one slot, which stays that site's; two
sites share none; and a site is refused only by a table full of others, and counted. -/
theorem one_slot_per_site (acts : List (SiteAct T)) :
    let s := run n (new : SiteTable T) acts
    (∀ k a b, (k, some a) ∈ s.returned → (k, some b) ∈ s.returned → a = b) ∧
      (∀ k a, (k, some a) ∈ s.returned → s.keys a = k) ∧
      (∀ k, (k, none) ∈ s.returned → k ≠ 0 → ∀ a < n, s.keys a ≠ 0 ∧ s.keys a ≠ k) ∧
      s.dropped = UInt32.ofNat (s.refused n) := by
  have h := inv_run (T := T) (n := n) acts
  refine ⟨fun k a b ha hb => ?_, fun k a ha => (h.found k a ha).1, fun k hk hk0 a ha => ?_,
    h.dropped⟩
  · obtain ⟨hka, hk0⟩ := h.found k a ha
    exact h.claimed.unique (hka ▸ hk0) (hka.trans (h.found k b hb).1.symm)
  · obtain ⟨i, hi, rfl⟩ := exists_probe k ha
    exact h.full k hk hk0 i hi

end SiteTable
end VibeOS.Sched
