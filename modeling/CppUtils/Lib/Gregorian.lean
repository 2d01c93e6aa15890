import Mathlib.Algebra.BigOperators.Group.Finset.Basic
import Mathlib.Algebra.BigOperators.Intervals
import Mathlib.Tactic.IntervalCases

/-!
# The Gregorian calendar

Days are counted from the first of January 1970 by adding up the lengths of the years and of the
months before. Months are numbered from 0, days of a month from 1.
-/

namespace Gregorian

def isLeap (y : Nat) : Bool := y % 4 = 0 && (y % 100 ≠ 0 || y % 400 = 0)

def daysInYear (y : Nat) : Nat := if isLeap y then 366 else 365

def daysInMonth (y : Nat) : Nat → Nat
  | 1 => if isLeap y then 29 else 28
  | 3 | 5 | 8 | 10 => 30
  | _ => 31

/-- The days from the first of January 1970 to the first of January of a year from then on. -/
def daysBeforeYear (y : Nat) : Nat := ∑ k ∈ Finset.range (y - 1970), daysInYear (1970 + k)

def daysBeforeMonth (y m : Nat) : Nat := ∑ k ∈ Finset.range m, daysInMonth y k

def dayNumber (y m d : Nat) : Nat := daysBeforeYear y + daysBeforeMonth y m + (d - 1)

/-- The leap years among `1..y`. -/
def leaps (y : Nat) : Nat := y / 4 - y / 100 + y / 400

theorem isLeap_iff {y : Nat} : isLeap y = true ↔ y % 4 = 0 ∧ (y % 100 ≠ 0 ∨ y % 400 = 0) := by
  simp [isLeap]

theorem leaps_succ (y : Nat) : leaps (y + 1) = leaps y + if isLeap (y + 1) then 1 else 0 := by
  unfold leaps
  by_cases hfour : (y + 1) % 4 = 0
  · by_cases hcentury : (y + 1) % 100 ≠ 0 ∨ (y + 1) % 400 = 0
    · rw [if_pos (isLeap_iff.mpr ⟨hfour, hcentury⟩)]
      omega
    · rw [if_neg fun h => hcentury (isLeap_iff.mp h).2]
      omega
  · have hquarter : (y + 1) / 4 = y / 4 := by omega
    have hhundredth : (y + 1) / 100 = y / 100 := by omega
    have hlast : (y + 1) / 400 = y / 400 := by omega
    rw [if_neg fun h => hfour (isLeap_iff.mp h).1, hquarter, hhundredth, hlast, Nat.add_zero]

theorem daysBeforeYear_add (k : Nat) :
    daysBeforeYear (1970 + k) + 477 = 365 * k + leaps (1969 + k) := by
  induction k with
  | zero => rfl
  | succ k ih =>
      have hprev : daysBeforeYear (1970 + k) = ∑ j ∈ Finset.range k, daysInYear (1970 + j) := by
        rw [daysBeforeYear, Nat.add_sub_cancel_left]
      have hlast := leaps_succ (1969 + k)
      have hyear : 1969 + k + 1 = 1970 + k := by omega
      rw [daysBeforeYear, show 1970 + (k + 1) - 1970 = k + 1 by omega, Finset.sum_range_succ,
        ← hprev, daysInYear, show 1969 + (k + 1) = 1969 + k + 1 by omega, hlast, hyear]
      split <;> omega

/-- The days before the first of March, in closed form. -/
theorem dayNumber_march {y : Nat} (hy : 1970 ≤ y) :
    dayNumber y 2 1 + 477 = 365 * (y - 1970) + leaps y + 59 := by
  obtain ⟨k, rfl⟩ := Nat.exists_eq_add_of_le hy
  have hbefore := daysBeforeYear_add k
  have hlast := leaps_succ (1969 + k)
  rw [show 1969 + k + 1 = 1970 + k by omega] at hlast
  have hmonths : daysBeforeMonth (1970 + k) 2 = 59 + if isLeap (1970 + k) then 1 else 0 := by
    rw [daysBeforeMonth, Finset.sum_range_succ, Finset.sum_range_one]
    simp only [daysInMonth]
    split <;> rfl
  rw [dayNumber, hmonths, hlast]
  split <;> omega

/-! ### Days after the first of March

A year that starts in March has its leap day at the end, and its months follow the pattern
`(153 * m + 2) / 5`.
-/

theorem daysBeforeMonth_march (y : Nat) {m : Nat} (hm : m ≤ 9) :
    daysBeforeMonth y (m + 2) = 59 + (if isLeap y then 1 else 0) + (153 * m + 2) / 5 := by
  unfold daysBeforeMonth
  interval_cases m <;> simp only [Finset.sum_range_succ, Finset.sum_range_zero, daysInMonth] <;>
    split <;> rfl

theorem daysInMonth_march (y : Nat) {m : Nat} (hm : m ≤ 9) :
    (153 * m + 2) / 5 + daysInMonth y (m + 2) = (153 * (m + 1) + 2) / 5 := by
  interval_cases m <;> rfl

theorem date_of_march {y e m : Nat} (hy : 1970 ≤ y) (hm : m = (5 * e + 2) / 153) (hlow : m ≤ 9) :
    (153 * m + 2) / 5 ≤ e ∧ e - (153 * m + 2) / 5 + 1 ≤ daysInMonth y (m + 2) ∧
      dayNumber y (m + 2) (e - (153 * m + 2) / 5 + 1) + 418 = 365 * (y - 1970) + leaps y + e := by
  have hstart : (153 * m + 2) / 5 ≤ e := by omega
  have hend : e < (153 * (m + 1) + 2) / 5 := by omega
  have hmarch := dayNumber_march hy
  have hbefore := daysBeforeMonth_march y hlow
  have hlength := daysInMonth_march y hlow
  have hfirst := daysBeforeMonth_march y (Nat.zero_le 9)
  rw [dayNumber] at hmarch ⊢
  rw [Nat.zero_add] at hfirst
  rw [hfirst] at hmarch
  rw [hbefore]
  generalize (153 * m + 2) / 5 = start at *
  generalize (153 * (m + 1) + 2) / 5 = next at *
  refine ⟨hstart, ?_, ?_⟩
  · omega
  · omega

theorem date_of_january {y e m : Nat} (hy : 1970 ≤ y + 1) (hm : m = (5 * e + 2) / 153)
    (hhigh : 10 ≤ m) (he : e ≤ 365) (hleap : e = 365 → isLeap (y + 1) = true) :
    m ≤ 11 ∧ (153 * m + 2) / 5 ≤ e ∧ e - (153 * m + 2) / 5 + 1 ≤ daysInMonth (y + 1) (m - 10) ∧
      dayNumber (y + 1) (m - 10) (e - (153 * m + 2) / 5 + 1) + 477 + 306 =
        365 * (y + 1 - 1970) + leaps y + e := by
  obtain ⟨k, hk⟩ := Nat.exists_eq_add_of_le hy
  have hyear := daysBeforeYear_add k
  rw [← hk, show 1969 + k = y by omega] at hyear
  have hjanuary : daysBeforeMonth (y + 1) 0 = 0 := rfl
  have hfebruary : daysBeforeMonth (y + 1) 1 = 31 := rfl
  rw [dayNumber]
  obtain rfl | rfl : m = 10 ∨ m = 11 := by omega
  · have hlength : daysInMonth (y + 1) (10 - 10) = 31 := rfl
    rw [hlength, Nat.sub_self, hjanuary]
    omega
  · have hlength : daysInMonth (y + 1) (11 - 10) = if isLeap (y + 1) then 29 else 28 := rfl
    rw [hlength, show 11 - 10 = 1 from rfl, hfebruary]
    split
    case isTrue => omega
    case isFalse hnot =>
      have hne : e ≠ 365 := fun heq => hnot (hleap heq)
      omega

end Gregorian
