import CppUtils.Machine

/-!
# The date of a log record

`FastSecondToDate` of `log/logStream.cpp`. The operations on `time_t` have 64 bits, all others are
`int` operations, and division truncates.
-/

namespace CppUtils

/-- The fields of `struct tm` that are set. -/
structure Tm where
  tm_sec : Int
  tm_min : Int
  tm_hour : Int
  tm_mday : Int
  tm_mon : Int
  tm_year : Int
deriving DecidableEq

def kHoursInDay : Int := 24

def kMinutesInHour : Int := 60

def kDaysFromUnixTime : Int := 2472632

def kDaysFromYear : Int := 153

def kMagicUnkonwnFirst : Int := 146097

def kMagicUnkonwnSec : Int := 1461

def fastSecondToDate (unix_sec time_zone : Int) : Option Tm := do
  let tm_sec := toInt (unix_sec.tmod kMinutesInHour)
  let i := toInt (unix_sec.tdiv kMinutesInHour)
  let tm_min := i.tmod kMinutesInHour
  let i := i.tdiv kMinutesInHour
  let tm_hour := (← checkInt (i + time_zone)).tmod kHoursInDay
  let tm_mday := (← checkInt (i + time_zone)).tdiv kHoursInDay
  let a ← checkInt (tm_mday + kDaysFromUnixTime)
  let b := (← checkInt ((← checkInt (a * 4)) + 3)).tdiv kMagicUnkonwnFirst
  let c ← checkInt ((← checkInt ((← checkInt (-b)) * kMagicUnkonwnFirst)).tdiv 4 + a)
  let d := (← checkInt ((← checkInt (c * 4)) + 3)).tdiv kMagicUnkonwnSec
  let e ← checkInt ((← checkInt (-d)) * kMagicUnkonwnSec)
  let e ← checkInt (e.tdiv 4 + c)
  let m := (← checkInt ((← checkInt (5 * e)) + 2)).tdiv kDaysFromYear
  let month ← checkInt (-(← checkInt ((← checkInt (kDaysFromYear * m)) + 2)))
  let tm_mday ← checkInt ((← checkInt (month.tdiv 5 + e)) + 1)
  let shift ← checkInt ((← checkInt (-m)).tdiv 10 * 12)
  let tm_mon ← checkInt ((← checkInt (shift + m)) + 2)
  let century ← checkInt ((← checkInt ((← checkInt (b * 100)) + d)) - 6700)
  let tm_year ← checkInt (century + m.tdiv 10)
  some { tm_sec, tm_min, tm_hour, tm_mday, tm_mon, tm_year }

end CppUtils
