import CppUtils.LogStream
import CppUtils.LogTime
import CppUtils.Lib.Numeral

/-!
# The time of a log record

The text that `LogStream::formatTime` writes; the flag that it raises is in `LogStream.formatTime`.
A thread keeps the text of its last record, and within the second only the microseconds change.
-/

namespace CppUtils

/-! ### The C library -/

/-- `%0*lld`, where a sign counts for the width. -/
def zeroPadded (width : Nat) (v : Int) : List Byte :=
  let magnitude := Numeral.spell digits 0 (Numeral.lowFirst 10 v.natAbs)
  if v < 0 then bytes "-" ++ magnitude.leftpad (width - 1) 0x30 else magnitude.leftpad width 0x30

/-- The ranges of the fields. Outside them `strftime` stores unspecified characters. -/
def Tm.Normal (tm : Tm) : Prop :=
  (0 ≤ tm.tm_sec ∧ tm.tm_sec ≤ 60) ∧ (0 ≤ tm.tm_min ∧ tm.tm_min ≤ 59) ∧
    (0 ≤ tm.tm_hour ∧ tm.tm_hour ≤ 23) ∧ (1 ≤ tm.tm_mday ∧ tm.tm_mday ≤ 31) ∧
    (0 ≤ tm.tm_mon ∧ tm.tm_mon ≤ 11)

instance (tm : Tm) : Decidable tm.Normal := inferInstanceAs (Decidable (_ ∧ _))

/-- `"%Y-%m-%d %H:%M:%S"`, with so many digits of the year at least. -/
def Tm.text (yearWidth : Nat) (tm : Tm) : List Byte :=
  zeroPadded yearWidth (tm.tm_year + 1900) ++ bytes "-" ++ zeroPadded 2 (tm.tm_mon + 1) ++
    bytes "-" ++ zeroPadded 2 tm.tm_mday ++ bytes " " ++ zeroPadded 2 tm.tm_hour ++ bytes ":" ++
    zeroPadded 2 tm.tm_min ++ bytes ":" ++ zeroPadded 2 tm.tm_sec

/-- `strftime` into `tmp`, which has 40 bytes. -/
def strftime (tm : Tm) : Option (List Byte) :=
  if tm.Normal ∧ (tm.text 1).length < 40 then some (tm.text 1) else none

/-- `snprintf` of a text into the bytes from `offset` on, `size` of them with the NUL. -/
def snprintf (buffer : List Byte) (offset size : Nat) (text : List Byte) : List Byte :=
  let stored := text.take (size - 1) ++ [0]
  buffer.take offset ++ stored ++ buffer.drop (offset + stored.length)

/-! ### `formatTime` -/

def kMicroSecondsPerSecond : Int := 1000 * 1000

/-- The thread-locals of the formatter. -/
structure TimeFormat where
  t_formatTime : List Byte
  t_lastSecs : Int
deriving DecidableEq

namespace TimeFormat

def new : TimeFormat where
  t_formatTime := List.replicate 64 0
  t_lastSecs := 0

/-- `formatTime` when the clock shows `microSecs`. -/
def formatTime (s : TimeFormat) (microSecs : Int) : Option TimeFormat := do
  let secs := microSecs.tdiv kMicroSecondsPerSecond
  let us := microSecs.tmod kMicroSecondsPerSecond
  if secs ≠ s.t_lastSecs then
    let tmp ← strftime (← fastSecondToDate secs 8)
    some
      { t_formatTime := snprintf s.t_formatTime 0 64 (tmp ++ bytes "." ++ zeroPadded 6 us)
        t_lastSecs := secs }
  else some { s with t_formatTime := snprintf s.t_formatTime 20 7 (zeroPadded 6 us) }

/-- The string that is returned. -/
def text (s : TimeFormat) : List Byte := s.t_formatTime.takeWhile (· ≠ 0)

/-- What the calls of a thread return. -/
def formatTimes (s : TimeFormat) : List Int → Option (List (List Byte))
  | [] => some []
  | microSecs :: readings => do
      let s ← s.formatTime microSecs
      let texts ← s.formatTimes readings
      some (s.text :: texts)

end TimeFormat

/-- Formatting without the thread-locals. -/
def formatTimeFromScratch (microSecs : Int) : Option (List Byte) := do
  let tmp ← strftime (← fastSecondToDate (microSecs.tdiv kMicroSecondsPerSecond) 8)
  some (tmp ++ bytes "." ++ zeroPadded 6 (microSecs.tmod kMicroSecondsPerSecond))

end CppUtils
