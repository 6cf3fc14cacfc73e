import Mathlib.Data.Int.Init
import Mathlib.Logic.Function.Iterate
import Mathlib.Tactic.Common
import Mathlib.Tactic.IntervalCases

/-!
The Gregorian calendar, extended to all years. A date carries the proof that its day is in its
month; the calendar is the date after a date. Days are numbered from the first of March of the
year 0, so that the day a leap year adds is the last of its year, and the number of a date is
written in eras of four hundred years, centuries, cycles of four years, years and days.
-/
namespace VibeOS.Lib.Gregorian

def IsLeap (year : Int) : Prop :=
  4 ∣ year ∧ (¬ 100 ∣ year ∨ 400 ∣ year)

instance (year : Int) : Decidable (IsLeap year) :=
  inferInstanceAs (Decidable (_ ∧ _))

def daysInMonth (year : Int) (month : Nat) : Nat :=
  if month = 2 then (if IsLeap year then 29 else 28)
  else if month = 4 ∨ month = 6 ∨ month = 9 ∨ month = 11 then 30
  else 31

theorem daysInMonth_pos (year : Int) (month : Nat) : 0 < daysInMonth year month := by
  unfold daysInMonth
  split_ifs <;> omega

theorem daysInMonth_le (year : Int) (month : Nat) : daysInMonth year month ≤ 31 := by
  unfold daysInMonth
  split_ifs <;> omega

@[ext]
structure Date where
  year : Int
  month : Nat
  day : Nat
  month_pos : 1 ≤ month
  month_le : month ≤ 12
  day_pos : 1 ≤ day
  day_le : day ≤ daysInMonth year month

namespace Date
variable {d e f : Date} {a b n : Nat}

def next (d : Date) : Date :=
  if hday : d.day < daysInMonth d.year d.month then
    { d with day := d.day + 1, day_pos := by omega, day_le := hday }
  else if hmonth : d.month < 12 then
    { year := d.year, month := d.month + 1, day := 1, month_pos := by omega, month_le := hmonth,
      day_pos := le_rfl, day_le := daysInMonth_pos _ _ }
  else
    { year := d.year + 1, month := 1, day := 1, month_pos := le_rfl, month_le := by omega,
      day_pos := le_rfl, day_le := daysInMonth_pos _ _ }

def Before (d e : Date) : Prop :=
  d.year < e.year ∨
    d.year = e.year ∧ (d.month < e.month ∨ d.month = e.month ∧ d.day < e.day)

theorem before_next (d : Date) : d.Before d.next := by
  unfold next Before
  split_ifs with hday hmonth
  · exact .inr ⟨rfl, .inr ⟨rfl, Nat.lt_succ_self _⟩⟩
  · exact .inr ⟨rfl, .inl (Nat.lt_succ_self _)⟩
  · exact .inl (Int.lt_succ _)

theorem Before.trans (h : d.Before e) (h' : e.Before f) : d.Before f := by
  unfold Before at *
  omega

theorem before_iterate (d : Date) (h : a < b) : (next^[a] d).Before (next^[b] d) := by
  induction b, h using Nat.le_induction with
  | base =>
    rw [Function.iterate_succ_apply']
    exact before_next _
  | succ b _ ih =>
    rw [Function.iterate_succ_apply']
    exact ih.trans (before_next _)

/-- The year that begins with the last March. -/
def marchYear (d : Date) : Int :=
  if d.month ≤ 2 then d.year - 1 else d.year

def marchMonth (d : Date) : Nat :=
  if d.month ≤ 2 then d.month + 9 else d.month - 3

def marchDay (d : Date) : Nat :=
  (153 * d.marchMonth + 2) / 5 + (d.day - 1)

/-- Days since the first of March of the year 0. -/
def number (d : Date) : Int :=
  365 * d.marchYear + d.marchYear / 4 - d.marchYear / 100 + d.marchYear / 400 + d.marchDay

theorem year_length (y : Int) :
    365 * (y - 1) + (y - 1) / 4 - (y - 1) / 100 + (y - 1) / 400 + 337 + daysInMonth y 2 =
      365 * y + y / 4 - y / 100 + y / 400 := by
  by_cases hleap : IsLeap y
  · have hdays : daysInMonth y 2 = 29 := by simp [daysInMonth, hleap]
    obtain ⟨h4, h100⟩ := hleap
    rw [hdays]
    omega
  · have hdays : daysInMonth y 2 = 28 := by simp [daysInMonth, hleap]
    have hyear : ¬ 4 ∣ y ∨ 100 ∣ y ∧ ¬ 400 ∣ y := by
      unfold IsLeap at hleap
      omega
    rw [hdays]
    omega

theorem number_next (d : Date) : d.next.number = d.number + 1 := by
  obtain ⟨year, month, day, hm, hm', hd, hd'⟩ := d
  by_cases hday : day < daysInMonth year month
  · simp only [next, number, marchYear, marchDay, marchMonth, hday, dite_true]
    omega
  · have hlast : day = daysInMonth year month := by omega
    subst hlast
    -- the end of February ends a year of the count; any other month's end does not
    by_cases hfeb : month = 2
    · subst hfeb
      have hyear := year_length year
      have hpos := daysInMonth_pos year 2
      simp only [next, number, marchYear, marchDay, marchMonth, hday, dite_false]
      simp
      omega
    · have hdays : daysInMonth year month =
          if month = 4 ∨ month = 6 ∨ month = 9 ∨ month = 11 then 30 else 31 := by
        simp [daysInMonth, hfeb]
      simp only [next, number, marchYear, marchDay, marchMonth, hdays]
      interval_cases month <;> simp <;> omega

theorem number_iterate (d : Date) (n : Nat) : (next^[n] d).number = d.number + n := by
  induction n with
  | zero => simp
  | succ n ih =>
    rw [Function.iterate_succ_apply', number_next, ih]
    push_cast
    omega

theorem marchDay_le (d : Date) : d.marchDay ≤ 336 + daysInMonth d.year 2 := by
  obtain ⟨year, month, day, hm, hm', hd, hd'⟩ := d
  unfold marchDay marchMonth
  by_cases hfeb : month = 2
  · subst hfeb
    simp
    omega
  · have hfeb' : 28 ≤ daysInMonth year 2 := by
      unfold daysInMonth
      split_ifs <;> omega
    have hle := daysInMonth_le year month
    simp only
    split_ifs <;> omega

theorem marchDay_last (h : d.marchDay = 365) : d.month = 2 ∧ IsLeap d.year := by
  have hle := marchDay_le d
  have hleap : IsLeap d.year := by
    by_contra hcommon
    simp [daysInMonth, hcommon] at hle
    omega
  refine ⟨?_, hleap⟩
  have hday := d.day_le
  have hlen := daysInMonth_le d.year d.month
  unfold marchDay marchMonth at h
  have := d.month_pos
  have := d.month_le
  split_ifs at h <;> omega

theorem marchMonth_marchDay (d : Date) : (5 * d.marchDay + 2) / 153 = d.marchMonth := by
  obtain ⟨year, month, day, hm, hm', hd, hd'⟩ := d
  have hlen : day ≤ if month = 2 then 29
      else if month = 4 ∨ month = 6 ∨ month = 9 ∨ month = 11 then 30 else 31 := by
    refine hd'.trans ?_
    unfold daysInMonth
    split_ifs <;> omega
  unfold marchDay marchMonth
  interval_cases month <;> simp at hlen ⊢ <;> omega

theorem digits (d : Date) : ∃ (era : Int) (century cycle year : Nat),
    century < 4 ∧ cycle < 25 ∧ year < 4 ∧ d.marchDay ≤ 365 ∧
    (d.marchDay = 365 → year = 3 ∧ (cycle = 24 → century = 3)) ∧
    d.marchYear = 400 * era + ((100 * century + 4 * cycle + year : Nat) : Int) ∧
    d.number = 146097 * era +
      ((36524 * century + 1461 * cycle + 365 * year + d.marchDay : Nat) : Int) := by
  have hle : d.marchDay ≤ 365 := by
    have h := marchDay_le d
    unfold daysInMonth at h
    split_ifs at h <;> omega
  obtain ⟨yoe, hyoe⟩ : ∃ yoe : Nat, d.marchYear % 400 = yoe :=
    ⟨_, (Int.toNat_of_nonneg (Int.emod_nonneg _ (by decide))).symm⟩
  have hlt : yoe < 400 := by omega
  refine ⟨d.marchYear / 400, yoe / 100, yoe % 100 / 4, yoe % 4, by omega, by omega, by omega,
    hle, ?_, by omega, ?_⟩
  · intro hlast
    obtain ⟨hmonth, h4, h100⟩ := marchDay_last hlast
    have hyear : d.marchYear = d.year - 1 := by simp [marchYear, hmonth]
    omega
  · unfold number
    omega

end Date
end VibeOS.Lib.Gregorian
