import Mathlib.Tactic

/-!
# The Gregorian calendar

The proleptic calendar: the leap-year rule for every year there is, years before the first included. A
date carries the fact that its month has that day. Its day number counts from 1970-01-01, by the lengths
of the years in between and of the months in front of it.

The sum over the years has a closed form (`daysBeforeYear_eq`), and a date lies within its year
(`Date.daysBeforeYear_le`, `Date.dayNumber_lt`). The way back is a closed form as well: `Date.ofDays`
counts in eras of 400 years that begin in March, so that the leap day is the last of its year, and
finds the date of every day number (`Date.dayNumber_ofDays`).
-/

set_option autoImplicit false

namespace OpenDB.Library.Calendar

open Finset

/-- Every fourth year, but of the centuries only every fourth. -/
def isLeap (y : Int) : Bool := y % 4 == 0 && (y % 100 != 0 || y % 400 == 0)

def yearLength (y : Int) : Int := if isLeap y then 366 else 365

/-- The days of the months, from January on. -/
def monthLength (y : Int) (m : Nat) : Int :=
  match m with
  | 2 => if isLeap y then 29 else 28
  | 4 | 6 | 9 | 11 => 30
  | _ => 31

/-- The days from 1970 up to the year, or back to it. -/
def daysBeforeYear (y : Int) : Int :=
  if 1970 ≤ y then ∑ i ∈ range (y - 1970).toNat, yearLength (1970 + i)
  else -∑ i ∈ range (1970 - y).toNat, yearLength (y + i)

/-- The days of the months in front of the month. -/
def daysBeforeMonth (y : Int) (m : Nat) : Int := ∑ i ∈ range (m - 1), monthLength y (i + 1)

structure Date where
  year : Int
  month : Nat
  day : Int
  month_pos : 1 ≤ month
  month_le : month ≤ 12
  day_pos : 1 ≤ day
  day_le : day ≤ monthLength year month

/-- Days since 1970-01-01. -/
def Date.dayNumber (d : Date) : Int :=
  daysBeforeYear d.year + daysBeforeMonth d.year d.month + (d.day - 1)

/-! ## Years -/

theorem isLeap_iff {y : Int} : isLeap y = true ↔ y % 4 = 0 ∧ (y % 100 ≠ 0 ∨ y % 400 = 0) := by
  simp [isLeap]

/-- The leap years from year 1 on that are over when the year begins. -/
def leapsBefore (y : Int) : Int := (y - 1) / 4 - (y - 1) / 100 + (y - 1) / 400

theorem leapsBefore_succ (y : Int) :
    leapsBefore (y + 1) = leapsBefore y + if isLeap y then 1 else 0 := by
  simp only [leapsBefore]
  by_cases h : isLeap y = true
  · have hleap := isLeap_iff.1 h
    rw [if_pos h]
    omega
  · have hleap := isLeap_iff.not.1 h
    rw [if_neg h]
    omega

theorem daysBeforeYear_succ (y : Int) : daysBeforeYear (y + 1) = daysBeforeYear y + yearLength y := by
  simp only [daysBeforeYear]
  rcases lt_trichotomy y 1969 with hlt | rfl | hgt
  · -- one year less to go back
    have hn : (1970 - y).toNat = (1970 - (y + 1)).toNat + 1 := by omega
    have hshift : ∀ i : Nat, y + ((i + 1 : Nat) : Int) = y + 1 + i := by
      intro i
      push_cast
      ring
    rw [if_neg (by omega), if_neg (by omega), hn, sum_range_succ']
    simp only [hshift, Nat.cast_zero, add_zero]
    ring
  · decide
  · -- one year more to add up
    have hn : (y + 1 - 1970).toNat = (y - 1970).toNat + 1 := by omega
    have hlast : 1970 + ((y - 1970).toNat : Int) = y := by omega
    rw [if_pos (by omega), if_pos (by omega), hn, sum_range_succ, hlast]

theorem daysBeforeYear_strictMono : StrictMono daysBeforeYear := by
  refine strictMono_int_of_lt_succ fun y => ?_
  rw [daysBeforeYear_succ, yearLength]
  split_ifs <;> omega

/-- The sum of the lengths of the years in between. -/
theorem daysBeforeYear_eq (y : Int) :
    daysBeforeYear y = 365 * (y - 1970) + (leapsBefore y - leapsBefore 1970) := by
  have hstep : ∀ y, daysBeforeYear (y + 1) - (365 * (y + 1 - 1970) + leapsBefore (y + 1)) =
      daysBeforeYear y - (365 * (y - 1970) + leapsBefore y) := by
    intro y
    rw [daysBeforeYear_succ, leapsBefore_succ, yearLength]
    split_ifs <;> ring
  have hzero : daysBeforeYear 1970 = 0 := by decide
  suffices hall : daysBeforeYear y - (365 * (y - 1970) + leapsBefore y) = -leapsBefore 1970 by omega
  -- the difference does not change from one year to the next, upwards or downwards
  induction y using Int.inductionOn' (b := 1970) with
  | zero => omega
  | succ y _ ih => rw [hstep, ih]
  | pred y _ ih =>
    have hpred := hstep (y - 1)
    rw [sub_add_cancel] at hpred
    rw [← hpred, ih]

/-! ## Months -/

theorem monthLength_nonneg (y : Int) (m : Nat) : 0 ≤ monthLength y m := by
  fun_cases monthLength y m <;> decide

theorem daysBeforeMonth_succ (y : Int) {m : Nat} (hpos : 1 ≤ m) :
    daysBeforeMonth y (m + 1) = daysBeforeMonth y m + monthLength y m := by
  obtain ⟨m, rfl⟩ := Nat.exists_eq_add_of_le' hpos
  exact sum_range_succ _ m

theorem daysBeforeMonth_mono (y : Int) : Monotone (daysBeforeMonth y) := by
  intro m n hle
  refine sum_le_sum_of_subset_of_nonneg (range_subset_range.2 (Nat.sub_le_sub_right hle 1)) ?_
  exact fun i _ _ => monthLength_nonneg y (i + 1)

/-- The months of a year are as long as the year. -/
theorem daysBeforeMonth_thirteen (y : Int) : daysBeforeMonth y 13 = yearLength y := by
  rw [daysBeforeMonth, yearLength]
  simp only [sum_range_succ, monthLength, sum_range_zero]
  split_ifs <;> rfl

/-- A month lies within its year. -/
theorem daysBeforeMonth_add_le (y : Int) {m : Nat} (hpos : 1 ≤ m) (hle : m ≤ 12) :
    0 ≤ daysBeforeMonth y m ∧ daysBeforeMonth y m + monthLength y m ≤ yearLength y := by
  refine ⟨sum_nonneg fun i _ => monthLength_nonneg y (i + 1), ?_⟩
  -- its end is the front of the next one
  rw [← daysBeforeMonth_succ y hpos, ← daysBeforeMonth_thirteen]
  exact daysBeforeMonth_mono y (Nat.add_le_add_right hle 1)

namespace Date

theorem daysBeforeYear_le (d : Date) : daysBeforeYear d.year ≤ d.dayNumber := by
  have hmonth := (daysBeforeMonth_add_le d.year d.month_pos d.month_le).1
  have hday := d.day_pos
  rw [dayNumber]
  omega

theorem dayNumber_lt (d : Date) : d.dayNumber < daysBeforeYear (d.year + 1) := by
  have hmonth := (daysBeforeMonth_add_le d.year d.month_pos d.month_le).2
  have hday := d.day_le
  rw [daysBeforeYear_succ, dayNumber]
  omega

/-- The years from one on, by the day number. -/
theorem le_year_iff (d : Date) {y : Int} : y ≤ d.year ↔ daysBeforeYear y ≤ d.dayNumber := by
  constructor
  · intro h
    exact (daysBeforeYear_strictMono.monotone h).trans d.daysBeforeYear_le
  · intro h
    by_contra hlt
    have hnext : d.year + 1 ≤ y := by omega
    exact absurd ((daysBeforeYear_strictMono.monotone hnext).trans h) (not_le.2 d.dayNumber_lt)

end Date

/-! ## Eras -/

/-- The year of the era, of 400 years from a first of March on, by the day of the era. -/
def yearOfEra (doe : Int) : Int := (doe - doe / 1460 + doe / 36524 - doe / 146096) / 365

/-- The days of the era in front of the year. -/
def eraDays (yoe : Int) : Int := 365 * yoe + yoe / 4 - yoe / 100

/-- A day of the era, counted by centuries, by fours of years and by years; the last year of four and the
last of four centuries may have a day more. -/
theorem exists_centuries {doe : Int} (hpos : 0 ≤ doe) (hle : doe ≤ 146096) :
    ∃ c k j t, doe = 36524 * c + 1461 * k + 365 * j + t ∧ (0 ≤ c ∧ c ≤ 3) ∧ (0 ≤ k ∧ k ≤ 24) ∧
      (0 ≤ j ∧ j ≤ 3) ∧ 0 ≤ t ∧ (t ≤ 364 ∨ t = 365 ∧ j = 3 ∧ (k < 24 ∨ c = 3)) := by
  by_cases hlast : doe = 146096
  · exact ⟨3, 24, 3, 365, by omega, by omega, by omega, by omega, by omega, by omega⟩
  · have hk : 0 ≤ doe % 36524 / 1461 ∧ doe % 36524 / 1461 ≤ 24 := by omega
    by_cases hleap : doe % 36524 % 1461 = 1460
    · exact ⟨doe / 36524, doe % 36524 / 1461, 3, 365, by omega, by omega, hk, by omega, by omega,
        by omega⟩
    · exact ⟨doe / 36524, doe % 36524 / 1461, doe % 36524 % 1461 / 365, doe % 36524 % 1461 % 365,
        by omega, by omega, hk, by omega, by omega, by omega⟩

/-- The closed form is the year, and it leaves the day within it. -/
theorem yearOfEra_spec {doe : Int} (hpos : 0 ≤ doe) (hle : doe ≤ 146096) :
    (0 ≤ yearOfEra doe ∧ yearOfEra doe ≤ 399) ∧ 0 ≤ doe - eraDays (yearOfEra doe) ∧
      (doe - eraDays (yearOfEra doe) ≤ 364 ∨
        doe - eraDays (yearOfEra doe) = 365 ∧ isLeap (yearOfEra doe + 1) = true) := by
  obtain ⟨c, k, j, t, hdoe, hc, hk, hj, ht, hlast⟩ := exists_centuries hpos hle
  have hyear : yearOfEra doe = 100 * c + 4 * k + j := by
    -- a fifth century would only begin on the last day of the era
    have hcentury : doe / 36524 - doe / 146096 = c := by
      obtain ⟨r, hr⟩ : ∃ r, r = 1461 * k + 365 * j + t := ⟨_, rfl⟩
      have hbound : r ≤ 36524 := by omega
      have hfull : r = 36524 → c = 3 := by omega
      have hsplit : doe = 36524 * c + r := by omega
      clear hdoe hlast
      omega
    -- of the days that are no multiple of 365, at most one is counted as a leap day too early
    have hleap : doe / 1460 = 25 * c + k + (24 * c + k + 365 * j + t) / 1460 := by omega
    have hearly : 0 ≤ t - (24 * c + k + 365 * j + t) / 1460 ∧
        t - (24 * c + k + 365 * j + t) / 1460 ≤ 364 := by omega
    have hsum : doe - doe / 1460 + doe / 36524 - doe / 146096 =
        365 * (100 * c + 4 * k + j) + (t - (24 * c + k + 365 * j + t) / 1460) := by omega
    rw [yearOfEra, hsum]
    omega
  have hdays : eraDays (yearOfEra doe) = 36524 * c + 1461 * k + 365 * j := by
    rw [hyear, eraDays]
    omega
  rw [hdays, isLeap_iff, hyear]
  omega

/-- The months from March on: every five of them have 153 days. -/
def marchMonth (doy : Int) : Int := (5 * doy + 2) / 153

/-- The days from the first of March up to the month. -/
def marchDays (mp : Int) : Int := (153 * mp + 2) / 5

theorem marchMonth_spec {doy : Int} (hpos : 0 ≤ doy) (hle : doy ≤ 365) :
    (0 ≤ marchMonth doy ∧ marchMonth doy ≤ 11) ∧ marchDays (marchMonth doy) ≤ doy ∧
      doy < marchDays (marchMonth doy + 1) := by
  simp only [marchMonth, marchDays]
  omega

/-- The month as the calendar numbers it, and whether the new year has begun. -/
def monthOf (mp : Int) : Int := if mp < 10 then mp + 3 else mp - 9

/-- The day is one of its month; of the last one, February, as long as the year is. -/
theorem marchDay_le {y mp doy : Int} (hmp : 0 ≤ mp ∧ mp ≤ 11) (hlt : doy < marchDays (mp + 1))
    (hlast : doy ≤ 364 ∨ doy = 365 ∧ isLeap (y + 1) = true) :
    doy - marchDays mp + 1 ≤
      monthLength (if monthOf mp ≤ 2 then y + 1 else y) (monthOf mp).toNat := by
  obtain ⟨h0, h11⟩ := hmp
  simp only [marchDays] at *
  -- every month but February has its length whatever the year is
  interval_cases mp <;> simp [monthOf, monthLength] <;> try omega
  split_ifs with hleap
  · omega
  · -- without a leap day the year ends a day earlier
    rcases hlast with hlast | ⟨-, hyes⟩
    · omega
    · exact absurd hyes hleap

/-- The days of the year in front of the month, by those since March. -/
theorem daysBeforeYear_add_month {y mp : Int} (hmp : 0 ≤ mp ∧ mp ≤ 11) :
    daysBeforeYear (if monthOf mp ≤ 2 then y + 1 else y) +
      daysBeforeMonth (if monthOf mp ≤ 2 then y + 1 else y) (monthOf mp).toNat =
        daysBeforeYear (y + 1) - 306 + marchDays mp := by
  have hyear := daysBeforeYear_succ y
  rw [yearLength] at hyear
  obtain ⟨h0, h11⟩ := hmp
  rw [daysBeforeMonth, marchDays]
  -- January and February are months 10 and 11 here, and belong to the next year
  interval_cases mp <;> simp [monthOf, Finset.sum_range_succ, monthLength] <;>
    split_ifs at hyear ⊢ <;> omega

/-- The day of the era, of 146097 days, and the day of the year from March on. -/
def dayOfEra (days : Int) : Int := (days + 719468) % 146097

def dayOfYear (days : Int) : Int := dayOfEra days - eraDays (yearOfEra (dayOfEra days))

/-- The year that begins in March. -/
def marchYear (days : Int) : Int := yearOfEra (dayOfEra days) + (days + 719468) / 146097 * 400

theorem dayOfEra_bounds (days : Int) : 0 ≤ dayOfEra days ∧ dayOfEra days ≤ 146096 := by
  rw [dayOfEra]
  omega

theorem dayOfYear_bounds (days : Int) : 0 ≤ dayOfYear days ∧
    (dayOfYear days ≤ 364 ∨ dayOfYear days = 365 ∧ isLeap (marchYear days + 1) = true) := by
  obtain ⟨hpos, hle⟩ := dayOfEra_bounds days
  obtain ⟨-, hday, hlast⟩ := yearOfEra_spec hpos hle
  refine ⟨hday, hlast.imp_right fun ⟨hlong, hleap⟩ => ⟨hlong, ?_⟩⟩
  -- leap years come back after 400 years
  rw [isLeap_iff] at hleap ⊢
  rw [marchYear]
  omega

/-- The day by its number, in closed form. -/
def Date.ofDays (days : Int) : Date where
  year :=
    if monthOf (marchMonth (dayOfYear days)) ≤ 2 then marchYear days + 1 else marchYear days
  month := (monthOf (marchMonth (dayOfYear days))).toNat
  day := dayOfYear days - marchDays (marchMonth (dayOfYear days)) + 1
  month_pos := by
    obtain ⟨hpos, hlast⟩ := dayOfYear_bounds days
    obtain ⟨hmonth, -⟩ := marchMonth_spec hpos (by omega)
    rw [monthOf]
    split_ifs <;> omega
  month_le := by
    obtain ⟨hpos, hlast⟩ := dayOfYear_bounds days
    obtain ⟨hmonth, -⟩ := marchMonth_spec hpos (by omega)
    rw [monthOf]
    split_ifs <;> omega
  day_pos := by
    obtain ⟨hpos, hlast⟩ := dayOfYear_bounds days
    obtain ⟨-, hle, -⟩ := marchMonth_spec hpos (by omega)
    omega
  day_le := by
    obtain ⟨hpos, hlast⟩ := dayOfYear_bounds days
    obtain ⟨hmonth, -, hlt⟩ := marchMonth_spec hpos (by omega)
    exact marchDay_le hmonth hlt hlast

/-- The closed form finds the date that the calendar counts up to. -/
theorem Date.dayNumber_ofDays (days : Int) : (Date.ofDays days).dayNumber = days := by
  obtain ⟨hpos, hlast⟩ := dayOfYear_bounds days
  obtain ⟨hmonth, -⟩ := marchMonth_spec hpos (by omega)
  have hfront := daysBeforeYear_add_month (y := marchYear days) hmonth
  obtain ⟨hera, -⟩ := yearOfEra_spec (dayOfEra_bounds days).1 (dayOfEra_bounds days).2
  have hyears : daysBeforeYear (marchYear days + 1) - 306 + dayOfYear days = days := by
    rw [daysBeforeYear_eq]
    simp only [leapsBefore, dayOfYear, eraDays, marchYear, dayOfEra] at *
    omega
  rw [dayNumber, ofDays]
  dsimp only
  omega

end OpenDB.Library.Calendar
