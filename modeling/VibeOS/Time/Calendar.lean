import VibeOS.Lib.Gregorian

/-!
Unix seconds and civil dates. Both directions are closed integer formulas over years that begin
in March, as the code computes them, with its casts and its checked operations. From days to a
date the formula is the calendar counted on from the first of January 1970, one day at a time,
and everything else about it is read off the calendar.
-/
namespace VibeOS.Time
open Lib.Gregorian

/-- An arithmetic step left its type; every build of the kernel checks for this and stops. -/
inductive Panic where
  | overflow
  deriving DecidableEq, Repr

def i32 (x : Int) : Except Panic Int :=
  if -2 ^ 31 ≤ x ∧ x < 2 ^ 31 then .ok x else .error .overflow

def checkedI64 (x : Int) : Option Int :=
  if -2 ^ 63 ≤ x ∧ x < 2 ^ 63 then some x else none

def asI32 (x : Int) : Int :=
  x.bmod (2 ^ 32)

def asU8 (x : Int) : Nat :=
  (x % 2 ^ 8).toNat

theorem i32_ok {x : Int} (h : -2 ^ 31 ≤ x) (h' : x < 2 ^ 31) : i32 x = .ok x :=
  if_pos ⟨h, h'⟩

theorem checkedI64_some {x : Int} (h : -2 ^ 63 ≤ x) (h' : x < 2 ^ 63) : checkedI64 x = some x :=
  if_pos ⟨h, h'⟩

theorem asI32_eq {x : Int} (h : 0 ≤ x) (h' : x < 2 ^ 31) : asI32 x = x := by
  unfold asI32
  apply Int.bmod_eq_of_le <;> omega

theorem asU8_eq {n : Nat} (h : n < 256) : asU8 n = n := by
  unfold asU8
  omega

def daysFromCivil (y : Int) (m d : Nat) : Except Panic Int := do
  let y ← i32 (y - if m ≤ 2 then 1 else 0)
  let first ← if 0 ≤ y then pure y else i32 (y - 399)
  let era := first.tdiv 400
  let yoe := y - era * 400
  let mp : Int := m + if 2 < m then -3 else 9
  let doy := (153 * mp + 2).tdiv 5 + d - 1
  let doe := yoe * 365 + yoe.tdiv 4 - yoe.tdiv 100 + doy
  return era * 146097 + doe - 719468

def unixFromCivil (year : Int) (month day hour min sec : Nat) : Except Panic (Option Nat) :=
  if ¬ (1 ≤ month ∧ month ≤ 12) ∨ day = 0 ∨ 31 < day ∨ 23 < hour ∨ 59 < min ∨ 60 < sec then
    .ok none
  else do
    let days ← daysFromCivil year month day
    return do
      let secs ← checkedI64 (days * 86400)
      let secs ← checkedI64 (secs + hour * 3600)
      let secs ← checkedI64 (secs + min * 60)
      let secs ← checkedI64 (secs + sec)
      if 0 ≤ secs then some secs.toNat else none

structure Civil where
  year : Int
  month : Nat
  day : Nat
  hour : Nat
  min : Nat
  sec : Nat
  deriving DecidableEq, Repr

/-- The year, month and day of day `z` since 1970-01-01. -/
def civilFromDays (z : Int) : Int × Nat × Nat :=
  let z := z + 719468
  let era := z.tdiv 146097
  let doe := z - era * 146097
  let yoe := (doe - doe.tdiv 1460 + doe.tdiv 36524 - doe.tdiv 146096).tdiv 365
  let doy := doe - (365 * yoe + yoe.tdiv 4 - yoe.tdiv 100)
  let mp := (5 * doy + 2).tdiv 153
  let d := asU8 (doy - (153 * mp + 2).tdiv 5 + 1)
  let m := asU8 (if mp < 10 then mp + 3 else mp - 9)
  let y := yoe + era * 400 + if m ≤ 2 then 1 else 0
  (asI32 y, m, d)

def civilFromUnix (secs : Nat) : Civil :=
  let days : Int := (secs / 86400 : Nat)
  let rem := secs % 86400
  let (year, month, day) := civilFromDays days
  { year, month, day, hour := asU8 (rem / 3600 : Nat), min := asU8 (rem / 60 % 60 : Nat),
    sec := asU8 (rem % 60 : Nat) }

/-- A date of the calendar with a time of day. -/
def Civil.Valid (c : Civil) : Prop :=
  1 ≤ c.month ∧ c.month ≤ 12 ∧ 1 ≤ c.day ∧ c.day ≤ daysInMonth c.year c.month ∧
    c.hour ≤ 23 ∧ c.min ≤ 59 ∧ c.sec ≤ 59

def Civil.Before (a b : Civil) : Prop :=
  a.year < b.year ∨ a.year = b.year ∧
    (a.month < b.month ∨ a.month = b.month ∧
      (a.day < b.day ∨ a.day = b.day ∧
        (a.hour < b.hour ∨ a.hour = b.hour ∧
          (a.min < b.min ∨ a.min = b.min ∧ a.sec < b.sec))))

/-- The day the count of seconds starts on. -/
def epoch : Date :=
  ⟨1970, 1, 1, by decide, by decide, by decide, by decide⟩

def dateOf (days : Nat) : Date :=
  Date.next^[days] epoch

theorem number_dateOf (days : Nat) : (dateOf days).number = days + 719468 := by
  rw [dateOf, Date.number_iterate, show epoch.number = 719468 from rfl]
  omega

/-- The year of the era from the day of the era. A leap day adds one to the days before it
that the division by 1460 takes out, but for the last of a century. -/
theorem yoe_of_doe {century cycle year doy doe : Nat} (hcentury : century < 4) (hcycle : cycle < 25)
    (hyear : year < 4) (hdoy : doy ≤ 365)
    (hlast : doy = 365 → year = 3 ∧ (cycle = 24 → century = 3))
    (hdoe : doe = 36524 * century + 1461 * cycle + 365 * year + doy) :
    doe < 146097 ∧ (doe - doe / 1460 + doe / 36524 - doe / 146096) / 365 =
      100 * century + 4 * cycle + year := by
  have hcenturies : doe / 36524 = century + doe / 146096 := by
    by_cases hend : 1461 * cycle + 365 * year + doy = 36524
    · obtain rfl : century = 3 := by omega
      obtain rfl : doe = 146096 := by omega
      rfl
    · have hlt : 1461 * cycle + 365 * year + doy < 36524 := by omega
      clear hlast
      have hera : doe / 146096 = 0 := by omega
      have hdiv : doe / 36524 = century := by omega
      omega
  have hleaps :
      doe / 1460 = 25 * century + cycle ∧ 24 * century + cycle + 365 * year + doy < 1460 ∨
      doe / 1460 = 25 * century + cycle + 1 ∧ 1460 ≤ 24 * century + cycle + 365 * year + doy := by
    clear hcenturies hlast
    omega
  have hlt : doe < 146097 := by
    clear hcenturies hleaps
    omega
  refine ⟨hlt, ?_⟩
  rw [hcenturies]
  generalize doe / 146096 = eras
  generalize doe / 1460 = leaps at *
  rcases hleaps with ⟨rfl, h⟩ | ⟨rfl, h⟩
  · have hsum : doe - (25 * century + cycle) + (century + eras) - eras =
        365 * (100 * century + 4 * cycle + year) + doy := by omega
    rw [hsum]
    omega
  · have hsum : doe - (25 * century + cycle + 1) + (century + eras) - eras =
        365 * (100 * century + 4 * cycle + year) + (doy - 1) := by omega
    rw [hsum]
    omega

theorem civilFromDays_number (d : Date) (hpos : 719468 ≤ d.number) (hyear : d.year < 2 ^ 31) :
    civilFromDays (d.number - 719468) = (d.year, d.month, d.day) := by
  obtain ⟨era, century, cycle, year, hcentury, hcycle, hy, hdoy, hlast, hmarch, hnumber⟩ := d.digits
  have hstart : 365 * (100 * century + 4 * cycle + year) + (100 * century + 4 * cycle + year) / 4 -
      (100 * century + 4 * cycle + year) / 100 + d.marchDay =
      36524 * century + 1461 * cycle + 365 * year + d.marchDay := by omega
  obtain ⟨hlt, hyoe⟩ := yoe_of_doe hcentury hcycle hy hdoy hlast rfl
  generalize 36524 * century + 1461 * cycle + 365 * year + d.marchDay = doe at *
  generalize 100 * century + 4 * cycle + year = yoe at *
  have hera : d.number.tdiv 146097 = era := by
    rw [Int.tdiv_eq_ediv_of_nonneg (by omega)]
    omega
  have hrest : d.number - era * 146097 = doe := by omega
  have hyears : ((doe : Int) - (doe : Int).tdiv 1460 + (doe : Int).tdiv 36524 -
      (doe : Int).tdiv 146096).tdiv 365 = yoe := by
    simp only [Int.tdiv_eq_ediv_of_nonneg (Int.natCast_nonneg doe)]
    rw [Int.tdiv_eq_ediv_of_nonneg (by omega)]
    omega
  have hdays : (doe : Int) - (365 * yoe + (yoe : Int).tdiv 4 - (yoe : Int).tdiv 100) =
      d.marchDay := by
    simp only [Int.tdiv_eq_ediv_of_nonneg (Int.natCast_nonneg yoe)]
    omega
  have hmonth : (5 * (d.marchDay : Int) + 2).tdiv 153 = d.marchMonth := by
    rw [Int.tdiv_eq_ediv_of_nonneg (by omega), ← d.marchMonth_marchDay]
    push_cast
    rfl
  have hday : (d.marchDay : Int) - (153 * (d.marchMonth : Int) + 2).tdiv 5 + 1 = d.day := by
    rw [Int.tdiv_eq_ediv_of_nonneg (by omega)]
    have := d.day_pos
    unfold Date.marchDay
    omega
  have hback : (if (d.marchMonth : Int) < 10 then (d.marchMonth : Int) + 3 else d.marchMonth - 9) =
      d.month := by
    have := d.month_pos
    have := d.month_le
    unfold Date.marchMonth
    split_ifs <;> omega
  have hcal : (yoe : Int) + era * 400 + (if d.month ≤ 2 then 1 else 0) = d.year := by
    unfold Date.marchYear at hmarch
    split_ifs at hmarch ⊢ <;> omega
  have hday256 : d.day < 256 := by
    have := d.day_le
    have := daysInMonth_le d.year d.month
    omega
  have hmonth256 : d.month < 256 := by
    have := d.month_le
    omega
  simp only [civilFromDays, sub_add_cancel, hera, hrest, hyears, hdays, hmonth, hday, hback,
    asU8_eq hday256, asU8_eq hmonth256, hcal]
  rw [asI32_eq _ hyear]
  unfold Date.marchYear at hmarch
  split_ifs at hmarch <;> omega

theorem daysFromCivil_number (d : Date) (hlow : 1 ≤ d.year) (hyear : d.year < 2 ^ 31) :
    daysFromCivil d.year d.month d.day = .ok (d.number - 719468) := by
  have hm := d.month_pos
  have hmarch : d.year - (if d.month ≤ 2 then 1 else 0) = d.marchYear := by
    unfold Date.marchYear
    split_ifs <;> omega
  have hpos : 0 ≤ d.marchYear := by
    rw [← hmarch]
    split_ifs <;> omega
  have hmonth : (d.month : Int) + (if 2 < d.month then -3 else 9) = d.marchMonth := by
    unfold Date.marchMonth
    split_ifs <;> omega
  have hera := Int.tdiv_eq_ediv_of_nonneg (b := 400) hpos
  have hyoe : 0 ≤ d.marchYear - d.marchYear / 400 * 400 := by omega
  simp only [daysFromCivil, hmarch, hmonth]
  rw [i32_ok (by omega) (by rw [← hmarch]; split_ifs <;> omega)]
  simp only [bind, Except.bind, pure, Except.pure, hpos, if_true, hera,
    Int.tdiv_eq_ediv_of_nonneg hyoe]
  rw [Int.tdiv_eq_ediv_of_nonneg (by omega)]
  congr 1
  have hday := d.day_pos
  unfold Date.number Date.marchDay
  push_cast [Nat.cast_sub hday]
  omega

theorem dateOf_year {days : Nat} (h : days < 2 ^ 39) :
    1 ≤ (dateOf days).year ∧ (dateOf days).year < 2 ^ 31 := by
  have hnumber := number_dateOf days
  have hle := (dateOf days).marchDay_le
  have hlen := daysInMonth_le (dateOf days).year 2
  unfold Date.number Date.marchYear at hnumber
  split_ifs at hnumber <;> omega

theorem civilFromDays_dateOf {days : Nat} (h : days < 2 ^ 39) :
    civilFromDays days = ((dateOf days).year, (dateOf days).month, (dateOf days).day) := by
  have hnumber := number_dateOf days
  have hdays : (days : Int) = (dateOf days).number - 719468 := by omega
  rw [hdays]
  exact civilFromDays_number _ (by omega) (dateOf_year h).2

theorem civilFromUnix_dateOf {t : Nat} (h : t < 2 ^ 55) :
    civilFromUnix t =
      { year := (dateOf (t / 86400)).year, month := (dateOf (t / 86400)).month,
        day := (dateOf (t / 86400)).day, hour := t % 86400 / 3600,
        min := t % 86400 / 60 % 60, sec := t % 86400 % 60 } := by
  have hdays : t / 86400 < 2 ^ 39 := by omega
  simp only [civilFromUnix, civilFromDays_dateOf hdays]
  rw [asU8_eq (by omega), asU8_eq (by omega), asU8_eq (by omega)]

theorem unixFromCivil_of_days {year : Int} {month day hour min sec days : Nat}
    (hmonth : 1 ≤ month ∧ month ≤ 12) (hday : 1 ≤ day ∧ day ≤ 31)
    (hhour : hour ≤ 23) (hmin : min ≤ 59) (hsec : sec ≤ 59) (hdays : days < 2 ^ 39)
    (h : daysFromCivil year month day = .ok (days : Int)) :
    unixFromCivil year month day hour min sec =
      .ok (some (days * 86400 + hour * 3600 + min * 60 + sec)) := by
  unfold unixFromCivil
  rw [if_neg (by omega), h]
  simp only [bind, Except.bind, pure, Except.pure]
  rw [checkedI64_some (by omega) (by omega), Option.bind_some,
    checkedI64_some (by omega) (by omega), Option.bind_some,
    checkedI64_some (by omega) (by omega), Option.bind_some,
    checkedI64_some (by omega) (by omega), Option.bind_some, if_pos (by omega)]
  congr 2

/-- Every count of seconds is a date of the calendar, converts back, and a smaller count is an
earlier date. -/
theorem civil_conversion (t : Nat) (h : t < 2 ^ 55) :
    (civilFromUnix t).Valid ∧
      unixFromCivil (civilFromUnix t).year (civilFromUnix t).month (civilFromUnix t).day
        (civilFromUnix t).hour (civilFromUnix t).min (civilFromUnix t).sec = .ok (some t) ∧
      ∀ t' < t, (civilFromUnix t').Before (civilFromUnix t) := by
  have hc := civilFromUnix_dateOf h
  have hdays : t / 86400 < 2 ^ 39 := by omega
  have hmonth := (dateOf (t / 86400)).month_pos
  have hmonth' := (dateOf (t / 86400)).month_le
  have hday := (dateOf (t / 86400)).day_pos
  have hday' := (dateOf (t / 86400)).day_le
  rw [hc]
  refine ⟨⟨hmonth, hmonth', hday, hday', by dsimp only; omega, by dsimp only; omega,
    by dsimp only; omega⟩, ?_, ?_⟩
  · have hlen := daysInMonth_le (dateOf (t / 86400)).year (dateOf (t / 86400)).month
    obtain ⟨hlow, hyear⟩ := dateOf_year hdays
    have hback := daysFromCivil_number _ hlow hyear
    have hnumber := number_dateOf (t / 86400)
    rw [show (dateOf (t / 86400)).number - 719468 = ((t / 86400 : Nat) : Int) by omega] at hback
    dsimp only
    rw [unixFromCivil_of_days ⟨hmonth, hmonth'⟩ ⟨hday, by omega⟩ (by omega) (by omega) (by omega)
      hdays hback]
    congr 2
    omega
  · intro t' ht'
    rw [civilFromUnix_dateOf (by omega : t' < 2 ^ 55)]
    unfold Civil.Before
    dsimp only
    by_cases hsame : t' / 86400 = t / 86400
    · rw [hsame]
      omega
    · have hbefore : (dateOf (t' / 86400)).Before (dateOf (t / 86400)) :=
        Date.before_iterate epoch (by omega)
      unfold Date.Before at hbefore
      omega

theorem civil_conversion_leapDay :
    (951782400 : Nat) < 2 ^ 55 ∧ civilFromUnix 951782400 = ⟨2000, 2, 29, 0, 0, 0⟩ ∧
      (civilFromUnix 951782400).Valid :=
  ⟨by decide, by decide, (civil_conversion 951782400 (by decide)).1⟩

end VibeOS.Time
