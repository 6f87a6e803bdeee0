import Manrix.Lib.Calendar
import Manrix.Lib.IntExpr

/-!
# `mktime` of the C library (`libc/timer/time.c`)

The formula of `mktime` is modelled as an expression of C, with a value over the integers and one with 32 bits. Over the
integers it gives the seconds of the Gregorian calendar since the beginning of 1970 for every year from 1970 on
(`mktimeExpr_value`).  As long as these are below `2 ^ 31` no part of the expression overflows, so `mktime` returns
them.
-/

namespace Manrix

open IntExpr Calendar

def eoverflow : Int := 0x40

/-- `struct tm` without the fields that `mktime` does not read. -/
structure Tm where
  tmSec : Int
  tmMin : Int
  tmHour : Int
  tmYday : Int
  tmYear : Int

/-- The expression that `mktime` assigns to `time`. -/
def mktimeExpr (tm : Tm) : Expr :=
  .int tm.tmSec + .int tm.tmMin * 60 +
    .int tm.tmHour * 3600 +
    .int tm.tmYday * 86400 +
    (.int tm.tmYear - 70) * 31536000 +
    ((.int tm.tmYear - 69) / 4) * 86400 -
    ((.int tm.tmYear - 1) / 100) * 86400 +
    ((.int tm.tmYear + 299) / 400) * 86400

/-- What `mktime` leaves: `*timeptr`, `errno` and the result. -/
structure MktimeCall where
  tm : Tm
  errno : Int
  ret : Int

/-- `mktime`; an overflow of the expression has no result. -/
def Tm.mktime (errno : Int) (timeptr : Tm) : Option MktimeCall :=
  if timeptr.tmYear < 69 then some ⟨timeptr, errno, -1⟩
  else
    let timeptr := if timeptr.tmSec < 0 then { timeptr with tmSec := 0 } else timeptr
    let timeptr := if 59 < timeptr.tmSec then { timeptr with tmSec := 59 } else timeptr
    (mktimeExpr timeptr).eval.map fun time =>
      if time ≤ 0 then ⟨timeptr, eoverflow, -1⟩ else ⟨timeptr, errno, time⟩

/-- The fields are those of an instant from 1970 on. -/
structure Tm.Valid (tm : Tm) : Prop where
  year : 70 ≤ tm.tmYear
  yday : 0 ≤ tm.tmYday ∧ tm.tmYday < yearDays (tm.tmYear + 1900).toNat
  hour : 0 ≤ tm.tmHour ∧ tm.tmHour < 24
  min : 0 ≤ tm.tmMin ∧ tm.tmMin < 60
  sec : 0 ≤ tm.tmSec ∧ tm.tmSec < 60

/-- The instant that the fields denote. -/
def Tm.instant (tm : Tm) (h : tm.Valid) : Instant where
  year := (tm.tmYear + 1900).toNat
  yday := tm.tmYday.toNat
  hour := tm.tmHour.toNat
  minute := tm.tmMin.toNat
  second := tm.tmSec.toNat
  yday_lt := by have := h.yday; omega
  hour_lt := by have := h.hour; omega
  minute_lt := by have := h.min; omega
  second_lt := by have := h.sec; omega

def epochYear : Nat := 1970

/-- The fields for an instant. -/
def tmOf (i : Instant) : Tm := ⟨i.second, i.minute, i.hour, i.yday, i.year - 1900⟩

private theorem tmOf_valid {i : Instant} (h : epochYear ≤ i.year) : (tmOf i).Valid := by
  have hy : 1970 ≤ i.year := h
  have hn : ((i.year : Int) - 1900 + 1900).toNat = i.year := by omega
  have := i.hour_lt
  have := i.minute_lt
  have := i.second_lt
  refine ⟨by simp only [tmOf]; omega, ?_, ?_, ?_, ?_⟩
  · simp only [tmOf, hn]
    have := i.yday_lt
    omega
  all_goals
    simp only [tmOf]
    omega

private theorem tmOf_instant {i : Instant} (h : epochYear ≤ i.year) : (tmOf i).instant (tmOf_valid h) = i := by
  have hn : ((i.year : Int) - 1900 + 1900).toNat = i.year := by omega
  simp only [tmOf, Tm.instant, hn, Int.toNat_natCast]

variable {tm : Tm}

theorem daysOfYears_epoch (n : Nat) :
    (daysOfYears epochYear n : Int) = 365 * n + (n + 1) / 4 - (n + 69) / 100 + (n + 369) / 400 := by
  have h : daysOfYears epochYear n + leapYears 1969 = 365 * n + leapYears (1969 + n) := daysOfYears_eq 1969 n
  simp only [leapYears] at h
  omega

private theorem year_quotients {year : Int} (hy : 70 ≤ year) : (year - 69).tdiv 4 = (year - 69) / 4 ∧
    (year - 1).tdiv 100 = (year - 1) / 100 ∧ (year + 299).tdiv 400 = (year + 299) / 400 :=
  ⟨Int.tdiv_eq_ediv_of_nonneg (by omega), Int.tdiv_eq_ediv_of_nonneg (by omega),
    Int.tdiv_eq_ediv_of_nonneg (by omega)⟩

theorem mktimeExpr_value_eq (hy : 70 ≤ tm.tmYear) : (mktimeExpr tm).value =
    tm.tmSec + tm.tmMin * 60 + tm.tmHour * 3600 + tm.tmYday * 86400 + (tm.tmYear - 70) * 31536000 +
      (tm.tmYear - 69) / 4 * 86400 - (tm.tmYear - 1) / 100 * 86400 + (tm.tmYear + 299) / 400 * 86400 := by
  obtain ⟨h4, h100, h400⟩ := year_quotients hy
  simp only [mktimeExpr, Expr.value_add, Expr.value_sub, Expr.value_mul, Expr.value_div, Expr.value_int,
    Expr.value_ofNat, h4, h100, h400]

theorem mktimeExpr_value (h : tm.Valid) : (mktimeExpr tm).value = ((tm.instant h).seconds epochYear : Int) := by
  have hy := h.year
  have hyd := h.yday
  have hh := h.hour
  have hm := h.min
  have hs := h.sec
  have hdays := daysOfYears_epoch ((tm.tmYear + 1900).toNat - epochYear)
  rw [mktimeExpr_value_eq hy]
  simp only [Instant.seconds, Tm.instant]
  generalize daysOfYears epochYear _ = d at hdays ⊢
  simp only [epochYear] at hdays
  omega

private theorem mktimeExpr_fits (h : tm.Valid) (hlt : (mktimeExpr tm).value < 2 ^ 31) : (mktimeExpr tm).Fits := by
  have hy := h.year
  have hyd := h.yday
  have := yearDays_le (tm.tmYear + 1900).toNat
  have hh := h.hour
  have hm := h.min
  have hs := h.sec
  rw [mktimeExpr_value_eq hy] at hlt
  have hy' : tm.tmYear ≤ 138 := by omega
  -- up to 2038 the day that is subtracted is added again
  have hcent : (tm.tmYear - 1) / 100 = (tm.tmYear + 299) / 400 := by omega
  obtain ⟨h4, h100, h400⟩ := year_quotients hy
  simp only [mktimeExpr, Expr.fits_add, Expr.fits_sub, Expr.fits_mul, Expr.fits_div, Expr.fits_int, Expr.fits_ofNat,
    Expr.value_add, Expr.value_sub, Expr.value_mul, Expr.value_div, Expr.value_int, Expr.value_ofNat,
    h4, h100, h400, IsInt]
  omega

private theorem mktime_eq (h : tm.Valid) (errno : Int) (h0 : 0 < (tm.instant h).seconds epochYear)
    (hlt : (tm.instant h).seconds epochYear < 2 ^ 31) :
    tm.mktime errno = some ⟨tm, errno, (tm.instant h).seconds epochYear⟩ := by
  have hv := mktimeExpr_value h
  have hy := h.year
  have hs := h.sec
  have hfits := mktimeExpr_fits h (by omega)
  unfold Tm.mktime
  rw [if_neg (by omega), if_neg (by omega)]
  dsimp only
  rw [if_neg (by omega), Expr.eval_eq_value hfits, Option.map_some, if_neg (by omega), hv]

theorem mktime_tmOf {i : Instant} (h : epochYear ≤ i.year) (errno : Int) (h0 : 0 < i.seconds epochYear)
    (hlt : i.seconds epochYear < 2 ^ 31) : (tmOf i).mktime errno = some ⟨tmOf i, errno, i.seconds epochYear⟩ := by
  have hi := tmOf_instant h
  have := mktime_eq (tmOf_valid h) errno (by rw [hi]; exact h0) (by rw [hi]; exact hlt)
  rwa [hi] at this

/-- For every valid `tm` of an instant after the beginning of 1970 and before `2 ^ 31` seconds later, `mktime` returns
the seconds since then.  Over the integers its formula gives them for every year, and they increase with the instant. -/
theorem mktime_counts_seconds (h : tm.Valid) (errno : Int) :
    (0 < (tm.instant h).seconds epochYear → (tm.instant h).seconds epochYear < 2 ^ 31 →
      tm.mktime errno = some ⟨tm, errno, (tm.instant h).seconds epochYear⟩) ∧
    (mktimeExpr tm).value = ((tm.instant h).seconds epochYear : Int) ∧ ∀ (tm' : Tm) (h' : tm'.Valid),
      (mktimeExpr tm).value < (mktimeExpr tm').value ↔ (tm.instant h).Before (tm'.instant h') := by
  refine ⟨mktime_eq h errno, mktimeExpr_value h, fun tm' h' => ?_⟩
  have hy := h.year
  have hy' := h'.year
  have hlt : (tm.instant h).seconds epochYear < (tm'.instant h').seconds epochYear ↔
      (tm.instant h).Before (tm'.instant h') := by
    refine Instant.seconds_lt_iff ?_ ?_
    · simp only [epochYear, Tm.instant]
      omega
    · simp only [epochYear, Tm.instant]
      omega
  rw [mktimeExpr_value h, mktimeExpr_value h', ← hlt]
  omega

/-- 2000-02-29 12:34:56. -/
def leapDay : Tm := ⟨56, 34, 12, 59, 100⟩

private theorem leapDay_valid : leapDay.Valid := ⟨by decide, by decide, by decide, by decide, by decide⟩

theorem mktime_counts_seconds_leapDay : leapDay.Valid ∧ leapDay.mktime 0 = some ⟨leapDay, 0, 951827696⟩ := by
  have hs : (leapDay.instant leapDay_valid).seconds epochYear = 951827696 := by decide
  have h := (mktime_counts_seconds leapDay_valid 0).1 (by rw [hs]; decide) (by rw [hs]; decide)
  rw [hs] at h
  exact ⟨leapDay_valid, h⟩

end Manrix
