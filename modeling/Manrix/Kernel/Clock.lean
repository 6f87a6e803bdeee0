import Mathlib.Data.BitVec
import Mathlib.Tactic.Linarith
import Manrix.Libc.Time

/-!
# The clock (`do_gettime`, `get_time`)

`do_gettime` adds the microseconds since the last call to `ctime`.  When the nanoseconds reach a second, `tv_sec` gets
`tv_sec / 1000000000` instead of 1 more, so time is lost unless `tv_sec` happens to be between `10 ^ 9` and `2 * 10 ^ 9`
(`gettime_keeps_time_iff`).

`get_time` reads the clock of the machine and calls the kernel's `mktime`, which has the formula of the C library for
`tm_year` and `tm_yday`, with the years since 1970 and the day of the month (`get_time_never_agrees`).
-/

namespace Manrix

open Calendar

/-- `struct timespec`; both fields are of the type `long`. -/
structure Timespec where
  tvSec : BitVec 32
  tvNsec : BitVec 32
  deriving DecidableEq

/-- The update of `ctime` in `do_gettime`, where `time` is the number of microseconds since the last call. -/
def Timespec.doGettime (ctime : Timespec) (time : BitVec 32) : Timespec :=
  let tvNsec := ctime.tvNsec + time % 1000000 * 1000
  let tvSec := ctime.tvSec + time / 1000000
  if (1000000000 : BitVec 32).sle tvNsec then ⟨tvSec + tvSec.sdiv 1000000000, tvNsec.srem 1000000000⟩
  else ⟨tvSec, tvNsec⟩

namespace Timespec

def nanos (c : Timespec) : Int := c.tvSec.toInt * 1000000000 + c.tvNsec.toInt

def Valid (c : Timespec) : Prop := 0 ≤ c.tvNsec.toInt ∧ c.tvNsec.toInt < 1000000000

/-- The call leaves a valid clock that is `time` microseconds ahead. -/
def Advances (c : Timespec) (time : BitVec 32) : Prop :=
  (c.doGettime time).Valid ∧ (c.doGettime time).nanos = c.nanos + 1000 * time.toNat

/-- The seconds do not overflow, and there is no carry from the nanoseconds or `tv_sec / 1000000000` is 1. -/
def ClockFits (c : Timespec) (time : BitVec 32) : Prop :=
  c.tvSec.toInt + time.toNat / 1000000 < 2 ^ 31 ∧
    (c.tvNsec.toInt + time.toNat % 1000000 * 1000 < 1000000000 ∨
      1000000000 ≤ c.tvSec.toInt + time.toNat / 1000000 ∧ c.tvSec.toInt + time.toNat / 1000000 < 2000000000)

instance (c : Timespec) : Decidable c.Valid := inferInstanceAs (Decidable (_ ∧ _))

instance (c : Timespec) (time : BitVec 32) : Decidable (c.ClockFits time) := inferInstanceAs (Decidable (_ ∧ _))

variable {c : Timespec} {time : BitVec 32}

private theorem toInt_nsec (h : c.Valid) (time : BitVec 32) :
    (c.tvNsec + time % 1000000 * 1000).toInt = c.tvNsec.toInt + time.toNat % 1000000 * 1000 := by
  have hr : (time % 1000000 * 1000).toInt = time.toNat % 1000000 * 1000 := by
    rw [BitVec.toInt_eq_toNat_bmod, BitVec.toNat_mul, BitVec.toNat_umod, Int.bmod_def,
      show (1000000 : BitVec 32).toNat = 1000000 from rfl, show (1000 : BitVec 32).toNat = 1000 from rfl]
    omega
  rw [BitVec.toInt_add, hr, Int.bmod_def]
  have := h.1
  have := h.2
  omega

private theorem toInt_sec (c : Timespec) (time : BitVec 32) :
    (c.tvSec + time / 1000000).toInt = (c.tvSec.toInt + time.toNat / 1000000).bmod (2 ^ 32) := by
  have hq : (time / 1000000).toInt = time.toNat / 1000000 := by
    rw [BitVec.toInt_eq_toNat_bmod, BitVec.toNat_udiv, Int.bmod_def,
      show (1000000 : BitVec 32).toNat = 1000000 from rfl]
    have := time.isLt
    omega
  rw [BitVec.toInt_add, hq]

private theorem toInt_billion : (1000000000 : BitVec 32).toInt = 1000000000 := rfl

private theorem carry_iff (sec : Int) (hlo : -2 ^ 31 ≤ sec) (hhi : sec < 2 ^ 31 + 5000) {x : BitVec 32}
    (hx : x.toInt = sec.bmod (2 ^ 32)) :
    (x + x.sdiv 1000000000).toInt = sec + 1 ↔ 1000000000 ≤ sec ∧ sec < 2000000000 := by
  have hlo' := BitVec.le_toInt x
  have hhi' := BitVec.toInt_lt (x := x)
  have hq : x.toInt.tdiv 1000000000 = if 0 ≤ x.toInt then x.toInt / 1000000000 else -(-x.toInt / 1000000000) := by
    split
    · exact Int.tdiv_eq_ediv_of_nonneg ‹_›
    · rw [← Int.neg_neg x.toInt, Int.neg_tdiv, Int.neg_neg, Int.tdiv_eq_ediv_of_nonneg (by omega)]
  rw [BitVec.toInt_add, BitVec.toInt_sdiv, toInt_billion, hq]
  rw [Int.bmod_def] at hx
  simp only [Int.bmod_def]
  omega

private theorem advances_iff (h : c.Valid) : c.Advances time ↔ c.ClockFits time := by
  have hsec := toInt_sec c time
  have hnsec := toInt_nsec h time
  have hlo := BitVec.le_toInt c.tvSec
  have hhi := BitVec.toInt_lt (x := c.tvSec)
  have ht := time.isLt
  obtain ⟨h0, h1⟩ := h
  unfold Advances ClockFits nanos Valid doGettime
  dsimp only
  by_cases hc : c.tvNsec.toInt + time.toNat % 1000000 * 1000 < 1000000000
  · rw [if_neg (by rw [BitVec.sle_iff_toInt_le, hnsec, toInt_billion]; omega)]
    rw [hsec, hnsec, Int.bmod_def]
    omega
  · rw [if_pos (by rw [BitVec.sle_iff_toInt_le, hnsec, toInt_billion]; omega)]
    have hcarry := carry_iff (c.tvSec.toInt + time.toNat / 1000000) (by omega) (by omega) hsec
    have hrem : ((c.tvNsec + time % 1000000 * 1000).srem 1000000000).toInt =
        c.tvNsec.toInt + time.toNat % 1000000 * 1000 - 1000000000 := by
      rw [BitVec.toInt_srem, hnsec, toInt_billion, Int.tmod_eq_emod_of_nonneg (by omega)]
      omega
    dsimp only
    rw [hrem]
    omega

def after (c : Timespec) (times : List (BitVec 32)) : Timespec := times.foldl doGettime c

/-- After each of the calls the clock is valid and ahead by the time that has elapsed. -/
def KeepsTime (c : Timespec) (times : List (BitVec 32)) : Prop :=
  ∀ i ≤ times.length, (c.after (times.take i)).Valid ∧
    (c.after (times.take i)).nanos = c.nanos + 1000 * ((times.take i).map BitVec.toNat).sum

private theorem keepsTime_cons (h : c.Valid) (times : List (BitVec 32)) :
    c.KeepsTime (time :: times) ↔ c.Advances time ∧ (c.doGettime time).KeepsTime times := by
  have hsum : ∀ i, ((time :: times).take (i + 1)).map BitVec.toNat = time.toNat :: (times.take i).map BitVec.toNat :=
    fun i => by rw [List.take_succ_cons, List.map_cons]
  have hafter : ∀ i, c.after ((time :: times).take (i + 1)) = (c.doGettime time).after (times.take i) := fun _ => rfl
  constructor
  · intro hk
    have hadv : c.Advances time := by
      obtain ⟨hv, hn⟩ := hk 1 (by simp)
      rw [hafter] at hv hn
      rw [hsum, List.take_zero] at hn
      exact ⟨hv, by simpa [after] using hn⟩
    refine ⟨hadv, fun i hi => ?_⟩
    have hi' := hk (i + 1) (by simpa using hi)
    rw [hafter, hsum, List.sum_cons] at hi'
    have := hadv.2
    exact ⟨hi'.1, by omega⟩
  · rintro ⟨hadv, hk⟩ i hi
    cases i with
    | zero => exact ⟨h, by simp [after]⟩
    | succ i =>
      have hi' := hk i (by simpa using hi)
      have := hadv.2
      rw [hafter, hsum, List.sum_cons]
      exact ⟨hi'.1, by omega⟩

end Timespec

/-- From every valid clock on and for every sequence of calls, the clock is right after each of them exactly if it fits
at each of them. -/
theorem gettime_keeps_time_iff {c : Timespec} (h : c.Valid) (times : List (BitVec 32)) :
    c.KeepsTime times ↔ ∀ i (hi : i < times.length), (c.after (times.take i)).ClockFits times[i] := by
  induction times generalizing c with
  | nil => exact iff_of_true (fun i _ => ⟨by simpa [Timespec.after] using h, by simp [Timespec.after]⟩) (by simp)
  | cons time times ih =>
    rw [Timespec.keepsTime_cons h, Timespec.advances_iff h]
    constructor
    · rintro ⟨hfits, hk⟩ i hi
      cases i with
      | zero => exact hfits
      | succ i => exact (ih ((Timespec.advances_iff h).mpr hfits).1).mp hk i (by simpa using hi)
    · intro hall
      have hfits : c.ClockFits time := hall 0 (by simp)
      refine ⟨hfits, (ih ((Timespec.advances_iff h).mpr hfits).1).mpr fun i hi => ?_⟩
      exact hall (i + 1) (by simpa using hi)

/-- Two calls, with half a second and a second and a half, at the time `10 ^ 9`. -/
theorem gettime_keeps_time_iff_billion : (⟨1000000000, 0⟩ : Timespec).Valid ∧
    (⟨1000000000, 0⟩ : Timespec).KeepsTime [500000, 1500000] := by
  have hv : (⟨1000000000, 0⟩ : Timespec).Valid := by decide
  exact ⟨hv, (gettime_keeps_time_iff hv _).mpr (by decide)⟩

/-- From 0 on, a second is lost in the first carry. -/
theorem gettime_loses_second : (⟨0, 0⟩ : Timespec).Valid ∧ ¬ (⟨0, 0⟩ : Timespec).KeepsTime [500000, 1500000] ∧
    (⟨0, 0⟩ : Timespec).after [500000, 1500000] = ⟨1, 0⟩ := by
  have hv : (⟨0, 0⟩ : Timespec).Valid := by decide
  refine ⟨hv, fun hk => ?_, by decide⟩
  exact absurd (hk 2 (by decide)).2 (by decide)

/-- `BIN`, for a byte that is read from the clock of the machine. -/
def bin (value : BitVec 8) : BitVec 32 := (value &&& 0xF).setWidth 32 + (value >>> 4).setWidth 32 * 10

/-- `BCD`. -/
def bcd (value : BitVec 8) : BitVec 8 := (value / 10) <<< 4 + value % 10

/-- The registers of the clock of the machine that `get_time` reads. -/
structure Cmos where
  seconds : BitVec 8
  minutes : BitVec 8
  hours : BitVec 8
  dayOfMonth : BitVec 8
  month : BitVec 8
  year : BitVec 8
  centuary : BitVec 8

/-- The kernel's `mktime`, which does not use the month. -/
def mktime (seconds minutes hours dom _month year : BitVec 32) : BitVec 32 :=
  seconds + minutes * 60 + hours * 3600 + dom * 86400 + (year - 70) * 31536000 + (year - 69) / 4 * 86400 -
    (year - 1) / 100 * 86400 + (year + 299) / 400 * 86400

def getTime (cmos : Cmos) : BitVec 32 :=
  let year := bin cmos.centuary * 100 + bin cmos.year
  mktime (bin cmos.seconds) (bin cmos.minutes) (bin cmos.hours) (bin cmos.dayOfMonth) (bin cmos.month) (year - 1970)

/-- The registers at a date. -/
def cmosOf (d : Date) : Cmos where
  seconds := bcd (.ofNat 8 d.second)
  minutes := bcd (.ofNat 8 d.minute)
  hours := bcd (.ofNat 8 d.hour)
  dayOfMonth := bcd (.ofNat 8 d.day)
  month := bcd (.ofNat 8 d.month)
  year := bcd (.ofNat 8 (d.year % 100))
  centuary := bcd (.ofNat 8 (d.year / 100))

private theorem bin_bcd {n : Nat} (h : n < 100) : (bin (bcd (.ofNat 8 n))).toNat = n := by
  have : ∀ m : Fin 100, (bin (bcd (.ofNat 8 m))).toNat = m := by decide
  exact this ⟨n, h⟩

private theorem toInt_of_lt {x : BitVec 32} (h : x.toNat < 2 ^ 31) : x.toInt = x.toNat := by
  rw [BitVec.toInt_eq_toNat_cond, if_pos (by omega)]

private theorem year_quotients_u32 {year : BitVec 32} (h : year.toNat ≤ 67) :
    ((year - 69) / 4).toNat = 1073741806 + (year.toNat + 3) / 4 ∧
      ((year - 1) / 100).toNat = (if year.toNat = 0 then 42949672 else 0) ∧ ((year + 299) / 400).toNat = 0 := by
  refine ⟨?_, ?_, ?_⟩
  · rw [BitVec.toNat_udiv, BitVec.toNat_sub, show (69 : BitVec 32).toNat = 69 from rfl,
      show (4 : BitVec 32).toNat = 4 from rfl]
    omega
  · rw [BitVec.toNat_udiv, BitVec.toNat_sub, show (1 : BitVec 32).toNat = 1 from rfl,
      show (100 : BitVec 32).toNat = 100 from rfl]
    split
    · omega
    · omega
  · rw [BitVec.toNat_udiv, BitVec.toNat_add, show (299 : BitVec 32).toNat = 299 from rfl,
      show (400 : BitVec 32).toNat = 400 from rfl]
    omega

private theorem mktime_toInt (seconds minutes hours dom month year : BitVec 32) :
    (mktime seconds minutes hours dom month year).toInt =
      (seconds.toInt + minutes.toInt * 60 + hours.toInt * 3600 + dom.toInt * 86400 + (year.toInt - 70) * 31536000 +
        ((year - 69) / 4).toInt * 86400 - ((year - 1) / 100).toInt * 86400 +
        ((year + 299) / 400).toInt * 86400).bmod (2 ^ 32) := by
  have h60 : (60 : BitVec 32).toInt = 60 := rfl
  have h3600 : (3600 : BitVec 32).toInt = 3600 := rfl
  have hday : (86400 : BitVec 32).toInt = 86400 := rfl
  have h70 : (70 : BitVec 32).toInt = 70 := rfl
  have hyear : (31536000 : BitVec 32).toInt = 31536000 := rfl
  simp only [mktime, BitVec.toInt_add, BitVec.toInt_sub, BitVec.toInt_mul, Int.bmod_add_bmod, Int.add_bmod_bmod,
    Int.bmod_sub_bmod, Int.sub_bmod_bmod, Int.bmod_mul_bmod, h60, h3600, hday, h70, hyear]

private theorem bmod_ne_of_days {x y : Int} (days : Int) (hx : x = y + days * 86400)
    (h : 1073715000 ≤ days ∧ days ≤ 1073717000 ∨ 1030766000 ≤ days ∧ days ≤ 1030767000) : x.bmod (2 ^ 32) ≠ y := by
  intro he
  have hdvd : (2 ^ 25 : Int) ∣ days := by
    obtain ⟨k, hk⟩ := Int.dvd_bmod_sub_self (x := x) (m := 2 ^ 32)
    rw [he, hx] at hk
    push_cast at hk
    have hdays : days * 675 = 2 ^ 25 * -k := by linarith
    exact Int.dvd_of_dvd_mul_left_of_gcd_one ⟨-k, hdays⟩ rfl
  obtain ⟨m, hm⟩ := hdvd
  omega

private theorem mktime_ne {seconds minutes hours : BitVec 32} (dom month year : BitVec 32) (yday : Nat)
    (hs : seconds.toNat < 60) (hm : minutes.toNat < 60) (hh : hours.toNat < 24) (hd : dom.toNat ≤ yday + 1)
    (hd' : yday < 366) (hy : year.toNat ≤ 67) : (mktime seconds minutes hours dom month year).toInt ≠
      (daysOfYears epochYear year.toNat + yday : Nat) * 86400 + hours.toNat * 3600 + minutes.toNat * 60 +
        seconds.toNat := by
  obtain ⟨h4, h100, h400⟩ := year_quotients_u32 hy
  have hdays := daysOfYears_epoch year.toNat
  have hcent : ((year - 1) / 100).toNat ≤ 42949672 := by
    rw [h100]
    split <;> omega
  rw [mktime_toInt, toInt_of_lt (x := seconds) (by omega), toInt_of_lt (x := minutes) (by omega),
    toInt_of_lt (x := hours) (by omega), toInt_of_lt (x := dom) (by omega), toInt_of_lt (x := year) (by omega),
    toInt_of_lt (x := (year - 69) / 4) (by omega), toInt_of_lt (x := (year - 1) / 100) (by omega),
    toInt_of_lt (x := (year + 299) / 400) (by omega), h4, h400]
  generalize ((year - 1) / 100).toNat = cent at h100 hcent ⊢
  generalize year.toNat = n at *
  refine bmod_ne_of_days (dom.toNat + 365 * ((n : Int) - 70) + (1073741806 + (n + 3) / 4) - cent -
    daysOfYears epochYear n - yday) ?_ ?_
  · omega
  · by_cases h0 : n = 0
    · rw [if_pos h0] at h100
      omega
    · rw [if_neg h0] at h100
      omega

private theorem bin_cmosOf (d : Date) (h : epochYear ≤ d.year) (h₁ : d.year ≤ 2037) :
    (bin (cmosOf d).seconds).toNat = d.second ∧ (bin (cmosOf d).minutes).toNat = d.minute ∧
      (bin (cmosOf d).hours).toNat = d.hour ∧ (bin (cmosOf d).dayOfMonth).toNat = d.day ∧
      (bin (cmosOf d).centuary * 100 + bin (cmosOf d).year - 1970).toNat = d.year - epochYear := by
  have := d.second_lt
  have := d.minute_lt
  have := d.hour_lt
  have := d.day_range
  have := monthDays_le d.year d.month
  have hy : 1970 ≤ d.year := h
  refine ⟨bin_bcd (by omega), bin_bcd (by omega), bin_bcd (by omega), bin_bcd (by omega), ?_⟩
  have hc : (bin (cmosOf d).centuary).toNat = d.year / 100 := bin_bcd (by omega)
  have hl : (bin (cmosOf d).year).toNat = d.year % 100 := bin_bcd (by omega)
  rw [BitVec.toNat_sub, BitVec.toNat_add, BitVec.toNat_mul, hc, hl, show (100 : BitVec 32).toNat = 100 from rfl,
    show (1970 : BitVec 32).toNat = 1970 from rfl]
  simp only [epochYear]
  omega

private theorem getTime_ne (d : Date) (h : epochYear ≤ d.year) (h₁ : d.year ≤ 2037) :
    (getTime (cmosOf d)).toInt ≠ d.instant.seconds epochYear := by
  obtain ⟨hs, hm, hh, hd, hyear⟩ := bin_cmosOf d h h₁
  have hyday := d.instant.yday_lt
  have := yearDays_le d.instant.year
  have hdom : (bin (cmosOf d).dayOfMonth).toNat ≤ d.instant.yday + 1 := by
    rw [hd]
    simp only [Date.instant]
    omega
  have hyear' : (bin (cmosOf d).centuary * 100 + bin (cmosOf d).year - 1970).toNat ≤ 67 := by
    rw [hyear]
    simp only [epochYear]
    omega
  have hne := mktime_ne _ (bin (cmosOf d).month) _ d.instant.yday (hs ▸ d.second_lt) (hm ▸ d.minute_lt)
    (hh ▸ d.hour_lt) hdom (by omega) hyear'
  rw [hs, hm, hh, hyear] at hne
  refine fun he => hne (he.trans ?_)
  simp only [Instant.seconds]
  push_cast
  rfl

private theorem seconds_lt_2038 {i : Instant} (h : i.year ≤ 2037) : i.seconds epochYear < 2 ^ 31 := by
  have hdays := daysOfYears_epoch (i.year - epochYear)
  have hn : i.year - epochYear ≤ 67 := by
    simp only [epochYear]
    omega
  have := i.yday_lt
  have := yearDays_le i.year
  have := i.hour_lt
  have := i.minute_lt
  have := i.second_lt
  unfold Instant.seconds
  generalize i.year - epochYear = n at hdays hn ⊢
  omega

/-- For no date from 1970-01-02 to 2037-12-31 does `get_time` return what `mktime` of the C library returns. -/
theorem get_time_never_agrees (d : Date) (h : epochYear ≤ d.year) (h₀ : 86400 ≤ d.instant.seconds epochYear)
    (h₁ : d.year ≤ 2037) (errno : Int) :
    ∃ r, (tmOf d.instant).mktime errno = some r ∧ (getTime (cmosOf d)).toInt ≠ r.ret :=
  ⟨_, mktime_tmOf (i := d.instant) h errno (by omega) (seconds_lt_2038 h₁), getTime_ne d h h₁⟩

/-- 2005-06-15 12:30:00. -/
def midJune : Date :=
  ⟨2005, 6, 15, 12, 30, 0, ⟨by omega, by omega⟩, ⟨by omega, by decide⟩, by omega, by omega, by omega⟩

theorem get_time_never_agrees_midJune : midJune.year ≤ 2037 ∧
    ∃ r, (tmOf midJune.instant).mktime 0 = some r ∧ (getTime (cmosOf midJune)).toInt ≠ r.ret :=
  ⟨by decide, get_time_never_agrees midJune (by decide) (by decide) (by decide) 0⟩

/-- The library counts 1118838600 seconds, and the kernel gives a negative number. -/
theorem get_time_midJune : (getTime (cmosOf midJune)).toInt = -1103196600 ∧
    ((tmOf midJune.instant).mktime 0).map MktimeCall.ret = some 1118838600 := by
  decide

end Manrix
