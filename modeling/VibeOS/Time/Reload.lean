import Mathlib.Algebra.Order.Ring.Nat
import Mathlib.Data.List.Sort
import Mathlib.Tactic.Common

/-!
The period of a down-counting timer from reads of its count, each between two reads of the cycle
counter. The timer is a count for each point of its period, which falls towards the end of it, and
its periods begin at any point of the cycle counter; the measurement never sees more of it than
that.
-/
namespace VibeOS.Time

abbrev reloadSpans : Nat := 20

/-- `spans` are the spans taken so far. -/
structure ReloadSpans where
  maxGap : Nat
  prev : Option (Nat × Nat)
  mark : Option Nat
  spans : List Nat

namespace ReloadSpans

def new (maxGap : Nat) : ReloadSpans := ⟨maxGap, none, none, []⟩

def push (r : ReloadSpans) (tscLo count tscHi : Nat) : ReloadSpans :=
  let r' := { r with prev := some (tscLo, count) }
  match r.prev with
  | none => r'
  | some (prevLo, prevCount) =>
    if tscHi < tscLo ∨ tscHi < prevLo ∨ r.maxGap < tscHi - prevLo then { r' with mark := none }
    else if count ≤ prevCount then r'
    else
      let spans := match r.mark with
        | some mark =>
          if r.spans.length < reloadSpans then r.spans ++ [tscHi - mark] else r.spans
        | none => r.spans
      { r' with spans, mark := some tscHi }

def period (r : ReloadSpans) : Option Nat :=
  if r.spans.length < reloadSpans then none
  else (r.spans.insertionSort (· ≤ ·))[(reloadSpans - 1) / 2]?

/-- A read at `time`, and the cycle counter before and after it. -/
structure Read where
  lo : Nat
  time : Nat
  hi : Nat
  lo_le : lo ≤ time
  le_hi : time ≤ hi

/-- What the timer shows at each point of its period, and how far into one it is when the cycle
counter is 0. The count falls, and has moved in the part of a period that a gap leaves. -/
structure Timer (maxGap : Nat) where
  period : Nat
  phase : Nat
  count : Nat → Nat
  gap_lt : maxGap < period
  falls : Antitone count
  moves : ∀ a b, a + (period - maxGap) ≤ b → b < period → count b < count a

variable {maxGap : Nat} (T : Timer maxGap)

def Timer.shows (x : Read) : Nat := T.count ((x.time + T.phase) % T.period)

/-- The reloads before a read. -/
def Timer.reloads (x : Read) : Nat := (x.time + T.phase) / T.period

def pushAll (r : ReloadSpans) (reads : List Read) : ReloadSpans :=
  reads.foldl (fun r x => r.push x.lo (T.shows x) x.hi) r

/-- After the read `last`: the mark is close after the reload that began the current period. -/
structure Tracks (r : ReloadSpans) (last : Option Read) : Prop where
  gap : r.maxGap = maxGap
  prev : r.prev = last.map fun x => (x.lo, T.shows x)
  mark : ∀ m, r.mark = some m → ∃ x, last = some x ∧
    T.period * T.reloads x ≤ m + T.phase ∧ m + T.phase ≤ T.period * T.reloads x + maxGap
  spans : ∀ s ∈ r.spans, T.period ≤ s + maxGap ∧ s ≤ T.period + maxGap

variable {T} {r : ReloadSpans} {last : Option Read} {x y : Read}

/-- Of two reads within a gap, the second shows more exactly if a reload came between them. -/
theorem reloads_of_shows (hxy : x.time ≤ y.time) (hgap : y.time ≤ x.time + maxGap) :
    T.reloads y = T.reloads x + if T.shows y ≤ T.shows x then 0 else 1 := by
  have hlt := T.gap_lt
  have hx := Nat.div_add_mod (x.time + T.phase) T.period
  have hy := Nat.div_add_mod (y.time + T.phase) T.period
  have hi := Nat.mod_lt (x.time + T.phase) (Nat.zero_lt_of_lt hlt)
  have hj := Nat.mod_lt (y.time + T.phase) (Nat.zero_lt_of_lt hlt)
  have hle : T.reloads x ≤ T.reloads y := Nat.div_le_div_right (Nat.add_le_add_right hxy _)
  unfold Timer.shows
  unfold Timer.reloads at hle ⊢
  rcases Nat.lt_or_eq_of_le hle with hnext | hsame
  · have hone : (y.time + T.phase) / T.period = (x.time + T.phase) / T.period + 1 := by
      have : T.period * ((y.time + T.phase) / T.period) <
          T.period * ((x.time + T.phase) / T.period + 2) := by
        rw [Nat.mul_add]
        omega
      have := Nat.lt_of_mul_lt_mul_left this
      omega
    rw [hone, Nat.mul_add] at hy
    rw [if_neg (Nat.not_le.mpr (T.moves _ _ (by omega) hi)), hone]
  · rw [← hsame] at hy ⊢
    rw [if_pos (T.falls (by omega)), Nat.add_zero]

theorem Tracks.push (h : Tracks T r last) (hle : ∀ x, last = some x → x.time ≤ y.time) :
    Tracks T (r.push y.lo (T.shows y) y.hi) (some y) := by
  have hprev := h.prev
  unfold ReloadSpans.push
  cases last with
  | none =>
    rw [hprev]
    refine ⟨h.gap, rfl, fun m hm => ?_, h.spans⟩
    obtain ⟨x, hx, -⟩ := h.mark m hm
    cases hx
  | some x =>
    rw [hprev]
    dsimp only [Option.map_some]
    have hxy := hle x rfl
    have hbounds := And.intro x.lo_le y.le_hi
    split
    · exact ⟨h.gap, rfl, fun m hm => (by cases hm), h.spans⟩
    · rename_i hgap
      have hstep := reloads_of_shows (T := T) hxy (by have := h.gap; omega)
      split
      · rename_i hsame
        rw [if_pos hsame, Nat.add_zero] at hstep
        refine ⟨h.gap, rfl, fun m hm => ⟨y, rfl, ?_⟩, h.spans⟩
        obtain ⟨_, ⟨⟩, hm⟩ := h.mark m hm
        rwa [hstep]
      · rename_i hmore
        rw [if_neg hmore] at hstep
        have hx : T.period * T.reloads x + _ = _ := Nat.div_add_mod (x.time + T.phase) T.period
        have hi := Nat.mod_lt (x.time + T.phase) (Nat.zero_lt_of_lt T.gap_lt)
        have hy : T.period * T.reloads y ≤ _ := Nat.mul_div_le (y.time + T.phase) T.period
        have hgap' := h.gap
        rw [hstep, Nat.mul_add] at hy
        refine ⟨h.gap, rfl, fun m hm => ⟨y, rfl, ?_⟩, ?_⟩
        · cases hm
          rw [hstep, Nat.mul_add]
          omega
        · dsimp only
          split
          · rename_i m hm
            obtain ⟨_, ⟨⟩, hm⟩ := h.mark m hm
            split
            · simp only [List.mem_append, List.mem_singleton]
              rintro s (hs | rfl)
              · exact h.spans s hs
              · omega
            · exact h.spans
          · exact h.spans

theorem Tracks.pushAll {reads : List Read} (h : Tracks T r last)
    (horder : reads.Pairwise (·.time ≤ ·.time))
    (hle : ∀ x, last = some x → ∀ y ∈ reads, x.time ≤ y.time) :
    ∃ last, Tracks T (r.pushAll T reads) last := by
  induction reads generalizing r last with
  | nil => exact ⟨last, h⟩
  | cons y reads ih =>
    obtain ⟨hy, horder⟩ := List.pairwise_cons.mp horder
    refine ih (h.push fun x hx => hle x hx y List.mem_cons_self) horder fun x hx => ?_
    cases hx
    exact hy

/-- Whatever reads are taken, in order, the period found is within a gap of the timer's own. -/
theorem period_near (T : Timer maxGap) (reads : List Read)
    (horder : reads.Pairwise (·.time ≤ ·.time)) (p : Nat)
    (hp : ((new maxGap).pushAll T reads).period = some p) :
    T.period ≤ p + maxGap ∧ p ≤ T.period + maxGap := by
  have hnew : Tracks T (new maxGap) none := ⟨rfl, rfl, nofun, nofun⟩
  obtain ⟨last, h⟩ := hnew.pushAll horder nofun
  unfold period at hp
  split at hp
  · cases hp
  · exact h.spans p ((List.mem_insertionSort _).mp (List.mem_of_getElem? hp))

/-- A timer of ten cycles, seven into its first period at the start, read every three. -/
def tenCycles : Timer 4 where
  period := 10
  phase := 7
  count i := 9 - i
  gap_lt := by decide
  falls := fun a b h => Nat.sub_le_sub_left h 9
  moves := by omega

theorem period_near_tenCycles :
    ((new 4).pushAll tenCycles
      ((List.range 80).map fun i => ⟨3 * i, 3 * i, 3 * i, le_rfl, le_rfl⟩)).period
      = some 9 ∧ 10 ≤ 9 + 4 ∧ 9 ≤ 10 + 4 := by
  have hp : ((new 4).pushAll tenCycles
      ((List.range 80).map fun i => ⟨3 * i, 3 * i, 3 * i, le_rfl, le_rfl⟩)).period = some 9 := by
    decide +kernel
  exact ⟨hp, period_near tenCycles _ (by decide +kernel) 9 hp⟩

end ReloadSpans
end VibeOS.Time
