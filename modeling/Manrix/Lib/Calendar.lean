import Mathlib.Data.Nat.Notation

/-!
# The Gregorian calendar

Years have 365 or 366 days, and the days since the beginning of a year are counted by adding up the years.  The closed
form of this sum has the leap years as three quotients (`daysOfYears_eq`).  An instant is given by its year, the day in
the year and the time of day; the seconds since the beginning of a year increase with the instant
(`Instant.seconds_lt_iff`).
-/

namespace Calendar

def isLeap (year : Nat) : Bool := year % 4 = 0 && (year % 100 ≠ 0 || year % 400 = 0)

def yearDays (year : Nat) : Nat := if isLeap year then 366 else 365

theorem yearDays_le (year : Nat) : yearDays year ≤ 366 := by
  unfold yearDays
  split <;> omega

/-- The days of the `n` years from `year` on. -/
def daysOfYears (year : Nat) : Nat → Nat
  | 0 => 0
  | n + 1 => daysOfYears year n + yearDays (year + n)

/-- The number of leap years from 1 to `year`. -/
def leapYears (year : Nat) : Nat := year / 4 + year / 400 - year / 100

theorem yearDays_succ (year : Nat) : yearDays (year + 1) + leapYears year = 365 + leapYears (year + 1) := by
  simp only [yearDays, isLeap, leapYears, Bool.and_eq_true, Bool.or_eq_true, decide_eq_true_eq, ne_eq]
  split
  · omega
  · omega

theorem daysOfYears_eq (year n : Nat) : daysOfYears (year + 1) n + leapYears year = 365 * n + leapYears (year + n) := by
  induction n with
  | zero => simp [daysOfYears]
  | succ n ih =>
    have h := yearDays_succ (year + n)
    rw [show year + n + 1 = year + 1 + n by omega] at h
    rw [daysOfYears, show year + (n + 1) = year + 1 + n by omega]
    omega

theorem daysOfYears_lt (year : Nat) {m n : Nat} (h : m < n) :
    daysOfYears year m + yearDays (year + m) ≤ daysOfYears year n := by
  induction n with
  | zero => omega
  | succ n ih =>
    rw [daysOfYears]
    rcases Nat.lt_or_ge m n with hlt | hge
    · have := ih hlt
      omega
    · obtain rfl : m = n := by omega
      exact Nat.le_refl _

/-- A second of the calendar. -/
structure Instant where
  year : Nat
  yday : Nat
  hour : Nat
  minute : Nat
  second : Nat
  yday_lt : yday < yearDays year
  hour_lt : hour < 24
  minute_lt : minute < 60
  second_lt : second < 60

namespace Instant

/-- The seconds since the beginning of the year `epoch`. -/
def seconds (epoch : Nat) (i : Instant) : Nat :=
  (daysOfYears epoch (i.year - epoch) + i.yday) * 86400 + i.hour * 3600 + i.minute * 60 + i.second

/-- The order of the instants: that of the year, and within a year that of the day, the hour, the minute and the
second. -/
def Before (i j : Instant) : Prop :=
  i.year < j.year ∨ i.year = j.year ∧ (i.yday < j.yday ∨ i.yday = j.yday ∧ (i.hour < j.hour ∨ i.hour = j.hour ∧
    (i.minute < j.minute ∨ i.minute = j.minute ∧ i.second < j.second)))

variable {epoch : Nat} {i j : Instant}

/-- The last second of a year comes before the first one of a later year. -/
theorem seconds_lt_of_year_lt (hi : epoch ≤ i.year) (h : i.year < j.year) : i.seconds epoch < j.seconds epoch := by
  have hd := daysOfYears_lt epoch (show i.year - epoch < j.year - epoch by omega)
  rw [show epoch + (i.year - epoch) = i.year by omega] at hd
  have := i.yday_lt
  have := i.hour_lt
  have := i.minute_lt
  have := i.second_lt
  unfold seconds
  omega

theorem seconds_lt_iff (hi : epoch ≤ i.year) (hj : epoch ≤ j.year) :
    i.seconds epoch < j.seconds epoch ↔ i.Before j := by
  unfold Before
  rcases Nat.lt_trichotomy i.year j.year with hlt | heq | hgt
  · exact iff_of_true (seconds_lt_of_year_lt hi hlt) (.inl hlt)
  · have := i.hour_lt
    have := j.hour_lt
    have := i.minute_lt
    have := j.minute_lt
    have := i.second_lt
    have := j.second_lt
    unfold seconds
    rw [heq]
    omega
  · have := seconds_lt_of_year_lt hj hgt
    exact iff_of_false (by omega) (by omega)

end Instant

def monthDays (year month : Nat) : Nat :=
  if month = 2 then if isLeap year then 29 else 28
  else if month = 4 ∨ month = 6 ∨ month = 9 ∨ month = 11 then 30
  else 31

theorem monthDays_le (year month : Nat) : monthDays year month ≤ 31 := by
  unfold monthDays
  split
  · split <;> omega
  · split <;> omega

/-- The days of the year before the month. -/
def daysBeforeMonth (year : Nat) : Nat → Nat
  | 0 => 0
  | 1 => 0
  | month + 2 => daysBeforeMonth year (month + 1) + monthDays year (month + 1)

theorem daysBeforeMonth_mono (year : Nat) {m n : Nat} (h : m < n) (hm : 1 ≤ m) :
    daysBeforeMonth year m + monthDays year m ≤ daysBeforeMonth year n := by
  induction n with
  | zero => omega
  | succ n ih =>
    obtain ⟨n, rfl⟩ : ∃ k, n = k + 1 := ⟨n - 1, by omega⟩
    rw [daysBeforeMonth]
    rcases Nat.lt_or_ge m (n + 1) with hlt | hge
    · have := ih hlt
      omega
    · obtain rfl : m = n + 1 := by omega
      exact Nat.le_refl _

theorem daysBeforeMonth_year (year : Nat) : daysBeforeMonth year 13 = yearDays year := by
  simp only [daysBeforeMonth, monthDays, yearDays]
  cases isLeap year with
  | false => rfl
  | true => rfl

/-- The day of a year that a day of a month is. -/
theorem dayOfYear_lt {year month day : Nat} (hm : 1 ≤ month) (hm' : month ≤ 12) (hd : 1 ≤ day)
    (hd' : day ≤ monthDays year month) : daysBeforeMonth year month + (day - 1) < yearDays year := by
  have := daysBeforeMonth_mono year (show month < 13 by omega) hm
  rw [daysBeforeMonth_year] at this
  omega

/-- A second of the calendar, given by the day of a month. -/
structure Date where
  year : Nat
  month : Nat
  day : Nat
  hour : Nat
  minute : Nat
  second : Nat
  month_range : 1 ≤ month ∧ month ≤ 12
  day_range : 1 ≤ day ∧ day ≤ monthDays year month
  hour_lt : hour < 24
  minute_lt : minute < 60
  second_lt : second < 60

def Date.instant (d : Date) : Instant where
  year := d.year
  yday := daysBeforeMonth d.year d.month + (d.day - 1)
  hour := d.hour
  minute := d.minute
  second := d.second
  yday_lt := dayOfYear_lt d.month_range.1 d.month_range.2 d.day_range.1 d.day_range.2
  hour_lt := d.hour_lt
  minute_lt := d.minute_lt
  second_lt := d.second_lt

end Calendar
