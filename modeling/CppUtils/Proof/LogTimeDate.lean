import CppUtils.LogTime
import CppUtils.Lib.Gregorian

/-!
# The date of a log record is the Gregorian one

`fastSecondToDate` counts the days from the first of March of the year -4800. Its chain of
divisions splits them into centuries `b`, years `d` of the century, days `e` of the year and months
`m` of the year, all from March on. The quotients are followed in the natural numbers first. The
`int` operations then compute exactly these, the divisions of negative numbers included, because
each of them has a multiple of the divided quantity subtracted afterwards.
-/

namespace CppUtils

open Gregorian

/-! ### The quotients -/

/-- What the chain computes for the day `n` after the first of January 1970. -/
structure Quotients (n a b c d e m : Nat) : Prop where
  a_eq : a = n + 2472632
  b_eq : b = (a * 4 + 3) / 146097
  c_eq : c + b * 146097 / 4 = a
  d_eq : d = (c * 4 + 3) / 1461
  e_eq : e + d * 1461 / 4 = c
  m_eq : m = (5 * e + 2) / 153

theorem exists_quotients (n : Nat) : ∃ a b c d e m, Quotients n a b c d e m := by
  obtain ⟨a, ha⟩ : ∃ a, a = n + 2472632 := ⟨_, rfl⟩
  obtain ⟨b, hb⟩ : ∃ b, b = (a * 4 + 3) / 146097 := ⟨_, rfl⟩
  obtain ⟨c, hc⟩ : ∃ c, c + b * 146097 / 4 = a := ⟨a - b * 146097 / 4, by omega⟩
  obtain ⟨d, hd⟩ : ∃ d, d = (c * 4 + 3) / 1461 := ⟨_, rfl⟩
  obtain ⟨e, he⟩ : ∃ e, e + d * 1461 / 4 = c := ⟨c - d * 1461 / 4, by omega⟩
  exact ⟨a, b, c, d, e, _, ha, hb, hc, hd, he, rfl⟩

theorem century_days (b : Nat) : b * 146097 / 4 = 36524 * b + b / 4 := by omega

theorem year_days (d : Nat) : d * 1461 / 4 = 365 * d + d / 4 := by omega

section Quotients

variable {n a b c d e m : Nat}

theorem Quotients.days (h : Quotients n a b c d e m) :
    n + 2472632 = 36524 * b + b / 4 + (365 * d + d / 4) + e := by
  have hc := h.c_eq
  have he := h.e_eq
  rw [century_days] at hc
  rw [year_days] at he
  rw [← h.a_eq]
  omega

theorem Quotients.c_lt (h : Quotients n a b c d e m) :
    c < 36524 + if b % 4 = 3 then 1 else 0 := by
  have hb := h.b_eq
  have hc := h.c_eq
  rw [century_days] at hc
  split <;> omega

theorem Quotients.d_le (h : Quotients n a b c d e m) : d ≤ 99 := by
  have hd := h.d_eq
  have hc := h.c_lt
  split at hc <;> omega

theorem Quotients.e_le (h : Quotients n a b c d e m) :
    e ≤ 364 + if d % 4 = 3 then 1 else 0 := by
  have hd := h.d_eq
  have he := h.e_eq
  rw [year_days] at he
  split <;> omega

theorem Quotients.m_le (h : Quotients n a b c d e m) : m ≤ 11 := by
  have hm := h.m_eq
  have he := h.e_le
  split at he <;> omega

theorem Quotients.monthStart_le (h : Quotients n a b c d e m) : (153 * m + 2) / 5 ≤ e := by
  have hm := h.m_eq
  omega

/-- The 29th of February is reached only at the end of a leap year. -/
theorem Quotients.isLeap (h : Quotients n a b c d e m) {y : Nat} (hy : y + 4800 = b * 100 + d)
    (he : e = 365) : isLeap (y + 1) = true := by
  have hlast : d % 4 = 3 := by
    have := h.e_le
    by_contra hne
    rw [if_neg hne] at this
    omega
  have hcentury : d = 99 → b % 4 = 3 := by
    intro hd
    have hc := h.c_lt
    have hce := h.e_eq
    rw [year_days] at hce
    by_contra hne
    rw [if_neg hne] at hc
    omega
  have hd := h.d_le
  rw [isLeap_iff]
  omega

theorem Quotients.year_days (h : Quotients n a b c d e m) :
    ∃ y, 1969 ≤ y ∧ y + 4800 = b * 100 + d ∧ n + 306 + 477 = 365 * (y - 1969) + leaps y + e := by
  have hdays := h.days
  have hd := h.d_le
  have he := h.e_le
  have hlow : 6769 ≤ b * 100 + d := by
    split at he <;> omega
  have hfour : (b * 100 + d - 4800) / 4 = 25 * b + d / 4 - 1200 := by omega
  have hhundred : (b * 100 + d - 4800) / 100 = b - 48 := by omega
  have hfourhundred : (b * 100 + d - 4800) / 400 = b / 4 - 12 := by omega
  refine ⟨b * 100 + d - 4800, by omega, by omega, ?_⟩
  rw [leaps, hfour, hhundred, hfourhundred]
  omega

theorem Quotients.date (h : Quotients n a b c d e m) :
    ∃ y mon : Nat, y + 4800 = b * 100 + d + m / 10 ∧ (mon : Int) = -(12 * (m / 10) : Nat) + m + 2 ∧
      1970 ≤ y ∧ mon < 12 ∧ e - (153 * m + 2) / 5 + 1 ≤ daysInMonth y mon ∧
      dayNumber y mon (e - (153 * m + 2) / 5 + 1) = n := by
  obtain ⟨y, hlow, hy, hdays⟩ := h.year_days
  have hm := h.m_le
  have heq := h.m_eq
  have hlast := h.e_le
  by_cases hmarch : m ≤ 9
  · have hyear : 1970 ≤ y := by
      rcases Nat.lt_or_ge 1969 y with hlt | hge
      · exact hlt
      · obtain rfl : y = 1969 := by omega
        have hleaps : leaps 1969 = 477 := by decide
        rw [hleaps] at hdays
        omega
    obtain ⟨-, hday, hnumber⟩ := date_of_march hyear heq hmarch
    refine ⟨y, m + 2, by omega, by omega, hyear, by omega, hday, ?_⟩
    omega
  · have he : e ≤ 365 := by
      split at hlast <;> omega
    obtain ⟨-, -, hday, hnumber⟩ :=
      date_of_january (by omega) heq (by omega) he (h.isLeap hy)
    refine ⟨y + 1, m - 10, by omega, by omega, by omega, by omega, hday, ?_⟩
    omega

end Quotients

/-! ### The `int` operations -/

theorem checkInt_bind {α : Type} {z : Int} {f : Int → Option α} {r : α} (w : Int) (hz : z = w)
    (hmem : -2 ^ 31 ≤ w ∧ w < 2 ^ 31) (hrest : f w = some r) : (checkInt z >>= f) = some r := by
  rw [hz, checkInt_of_mem hmem.1 hmem.2]
  exact hrest

theorem natCast_tdiv (x k : Nat) : (x : Int).tdiv (k : Int) = (x / k : Nat) :=
  Int.ofNat_tdiv x k

/-- Dividing a negative number and adding what it was taken from is a truncated subtraction. -/
theorem neg_tdiv_add {x k : Nat} {z w : Int} (h : w + (x / k : Nat) = z) :
    (-(x : Int)).tdiv k + z = w := by
  rw [Int.neg_tdiv, natCast_tdiv]
  omega

theorem hours_eq {unix_sec time_zone : Int} {hours : Nat} (hlow : 0 ≤ unix_sec)
    (hhigh : unix_sec < 60 * 2 ^ 31) (hhours : unix_sec / 3600 + time_zone = hours) :
    (toInt (unix_sec.tdiv kMinutesInHour)).tdiv kMinutesInHour + time_zone = hours := by
  unfold kMinutesInHour
  rw [Int.tdiv_eq_ediv_of_nonneg hlow, toInt_of_mem (by omega) (by omega),
    Int.tdiv_eq_ediv_of_nonneg (by omega)]
  omega

/-- The fields in terms of the quotients of the day. -/
theorem fastSecondToDate_eq {unix_sec time_zone : Int} {hours n a b c d e m : Nat}
    (hlow : 0 ≤ unix_sec) (hhigh : unix_sec < 60 * 2 ^ 31) (htz : time_zone ≤ 24)
    (hhours : unix_sec / 3600 + time_zone = hours) (hn : n = hours / 24)
    (h : Quotients n a b c d e m) :
    fastSecondToDate unix_sec time_zone = some
      { tm_sec := unix_sec % 60
        tm_min := unix_sec / 60 % 60
        tm_hour := (hours % 24 : Nat)
        tm_mday := (e - (153 * m + 2) / 5 + 1 : Nat)
        tm_mon := -(12 * (m / 10) : Nat) + m + 2
        tm_year := (b * 100 + d : Nat) - 6700 + (m / 10 : Nat) } := by
  obtain ⟨ha, hb, hc, hd, he, hm⟩ := id h
  have hmonth := h.monthStart_le
  have hn_lt : n < 1500000 := by omega
  have hb_lt : b < 110 := by omega
  have hd_lt : d ≤ 99 := h.d_le
  have hc_lt : c < 36530 := by
    have := h.c_lt
    split at this <;> omega
  have hm_le : m ≤ 11 := h.m_le
  have hsum := hours_eq hlow hhigh hhours
  unfold fastSecondToDate
  refine checkInt_bind hours hsum (by omega) ?_
  refine checkInt_bind hours hsum (by omega) ?_
  unfold kMinutesInHour kHoursInDay kDaysFromUnixTime kDaysFromYear kMagicUnkonwnFirst
    kMagicUnkonwnSec
  rw [show Int.tdiv hours 24 = n from hn ▸ natCast_tdiv hours 24]
  refine checkInt_bind a (by omega) (by omega) ?_
  refine checkInt_bind (a * 4 : Nat) (by omega) (by omega) ?_
  refine checkInt_bind (a * 4 + 3 : Nat) (by omega) (by omega) ?_
  rw [show Int.tdiv (a * 4 + 3 : Nat) 146097 = b from hb ▸ natCast_tdiv (a * 4 + 3) 146097]
  refine checkInt_bind (-b) rfl (by omega) ?_
  refine checkInt_bind (-(b * 146097 : Nat)) (by omega) (by omega) ?_
  refine checkInt_bind c (neg_tdiv_add (k := 4) (by omega)) (by omega) ?_
  refine checkInt_bind (c * 4 : Nat) (by omega) (by omega) ?_
  refine checkInt_bind (c * 4 + 3 : Nat) (by omega) (by omega) ?_
  rw [show Int.tdiv (c * 4 + 3 : Nat) 1461 = d from hd ▸ natCast_tdiv (c * 4 + 3) 1461]
  refine checkInt_bind (-d) rfl (by omega) ?_
  refine checkInt_bind (-(d * 1461 : Nat)) (by omega) (by omega) ?_
  refine checkInt_bind e (neg_tdiv_add (k := 4) (by omega)) (by omega) ?_
  refine checkInt_bind (5 * e : Nat) (by omega) (by omega) ?_
  refine checkInt_bind (5 * e + 2 : Nat) (by omega) (by omega) ?_
  rw [show Int.tdiv (5 * e + 2 : Nat) 153 = m from hm ▸ natCast_tdiv (5 * e + 2) 153]
  refine checkInt_bind (153 * m : Nat) (by omega) (by omega) ?_
  refine checkInt_bind (153 * m + 2 : Nat) (by omega) (by omega) ?_
  refine checkInt_bind (-(153 * m + 2 : Nat)) rfl (by omega) ?_
  refine checkInt_bind (e - (153 * m + 2) / 5 : Nat) (neg_tdiv_add (k := 5) (by omega))
    (by omega) ?_
  refine checkInt_bind (e - (153 * m + 2) / 5 + 1 : Nat) (by omega) (by omega) ?_
  have htenths : Int.tdiv m 10 = (m / 10 : Nat) := natCast_tdiv m 10
  refine checkInt_bind (-m) rfl (by omega) ?_
  refine checkInt_bind (-(12 * (m / 10) : Nat)) ?_ (by omega) ?_
  · rw [Int.neg_tdiv]
    omega
  refine checkInt_bind _ rfl (by omega) ?_
  refine checkInt_bind _ rfl (by omega) ?_
  refine checkInt_bind (b * 100 : Nat) (by omega) (by omega) ?_
  refine checkInt_bind (b * 100 + d : Nat) (by omega) (by omega) ?_
  refine checkInt_bind _ rfl (by omega) ?_
  refine checkInt_bind ((b * 100 + d : Nat) - 6700 + (m / 10 : Nat)) (by omega) (by omega) ?_
  have hsec : toInt (unix_sec.tmod 60) = unix_sec % 60 := by
    rw [Int.tmod_eq_emod_of_nonneg hlow, toInt_of_mem (by omega) (by omega)]
  have hmin : (toInt (unix_sec.tdiv 60)).tmod 60 = unix_sec / 60 % 60 := by
    rw [Int.tdiv_eq_ediv_of_nonneg hlow, toInt_of_mem (by omega) (by omega),
      Int.tmod_eq_emod_of_nonneg (by omega)]
  have hhour : Int.tmod hours 24 = (hours % 24 : Nat) := (Int.ofNat_tmod hours 24).symm
  rw [hsec, hmin, hhour]

/-- The fields are in range, name a day of the Gregorian calendar, and stand for the second `t`
after the beginning of the first of January 1970. -/
structure Tm.IsDateOf (tm : Tm) (t : Int) : Prop where
  sec : 0 ≤ tm.tm_sec ∧ tm.tm_sec < 60
  min : 0 ≤ tm.tm_min ∧ tm.tm_min < 60
  hour : 0 ≤ tm.tm_hour ∧ tm.tm_hour < 24
  day : ∃ y mon mday : Nat, tm.tm_year = y - 1900 ∧ tm.tm_mon = mon ∧ tm.tm_mday = mday ∧
    1970 ≤ y ∧ mon < 12 ∧ 1 ≤ mday ∧ mday ≤ daysInMonth y mon ∧
    ((dayNumber y mon mday * 24 + tm.tm_hour) * 60 + tm.tm_min) * 60 + tm.tm_sec = t

/-- The fields in terms of the quotients are a date. -/
theorem Quotients.isDateOf {unix_sec time_zone : Int} {hours a b c d e m : Nat}
    (h : Quotients (hours / 24) a b c d e m) (hhours : unix_sec / 3600 + time_zone = hours) :
    Tm.IsDateOf
      { tm_sec := unix_sec % 60
        tm_min := unix_sec / 60 % 60
        tm_hour := (hours % 24 : Nat)
        tm_mday := (e - (153 * m + 2) / 5 + 1 : Nat)
        tm_mon := -(12 * (m / 10) : Nat) + m + 2
        tm_year := (b * 100 + d : Nat) - 6700 + (m / 10 : Nat) }
      (unix_sec + 3600 * time_zone) := by
  obtain ⟨y, mon, hyear, hmon, hfrom, hmonth, hday, hnumber⟩ := h.date
  constructor
  · dsimp only
    omega
  · dsimp only
    omega
  · dsimp only
    omega
  · refine ⟨y, mon, _, ?_, hmon.symm, rfl, hfrom, hmonth, by omega, hday, ?_⟩
    · dsimp only
      omega
    · rw [hnumber]
      dsimp only
      omega

/-- **The date is right.** In every zone and up to the end of the `int` minutes, no operation
overflows and the fields are those of the Gregorian date. -/
theorem fastSecondToDate_isDateOf {unix_sec time_zone : Int} (hlow : 0 ≤ unix_sec)
    (hhigh : unix_sec < 60 * 2 ^ 31) (htz : -24 ≤ time_zone ∧ time_zone ≤ 24)
    (hepoch : 0 ≤ unix_sec / 3600 + time_zone) :
    ∃ tm, fastSecondToDate unix_sec time_zone = some tm ∧
      tm.IsDateOf (unix_sec + 3600 * time_zone) := by
  obtain ⟨hours, hhours⟩ := Int.eq_ofNat_of_zero_le hepoch
  obtain ⟨a, b, c, d, e, m, h⟩ := exists_quotients (hours / 24)
  exact ⟨_, fastSecondToDate_eq hlow hhigh htz.2 hhours rfl h, h.isDateOf hhours⟩

theorem fastSecondToDate_isDateOf_shanghai :
    ∃ tm, fastSecondToDate 1640995199 8 = some tm ∧ tm.IsDateOf (1640995199 + 3600 * 8) :=
  fastSecondToDate_isDateOf (by decide) (by decide) (by decide) (by decide)

end CppUtils
