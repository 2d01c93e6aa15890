import CppUtils.FormatTime
import CppUtils.Proof.LogStreamNumerals
import CppUtils.Proof.LogTimeDate
import Mathlib.Data.List.Forall2

/-!
# The cached time is the right one

The first twenty characters of `t_formatTime`, up to the point, always belong to `t_lastSecs`. As
long as the year has four digits, the microseconds come right after them.
-/

namespace CppUtils

open Gregorian

/-! ### Numbers of a fixed width -/

theorem digits_ne_zero : ∀ d ∈ digits, d ≠ (0 : Byte) := by decide +kernel

theorem zeroPadded_of_nonneg {width : Nat} {v : Int} (hv : 0 ≤ v) :
    zeroPadded width v =
      (Numeral.spell digits 0 (Numeral.lowFirst 10 v.natAbs)).leftpad width 0x30 :=
  if_neg hv.not_gt

theorem length_zeroPadded {width : Nat} {v : Int} (hwidth : 0 < width) (hv : 0 ≤ v)
    (hlt : v < 10 ^ width) : (zeroPadded width v).length = width := by
  have hn : v.natAbs < 10 ^ width := by
    zify
    rwa [abs_of_nonneg hv]
  have hlength := (Numeral.length_lowFirst_le_iff (by decide) hwidth v.natAbs).mpr hn
  rw [zeroPadded_of_nonneg hv, List.length_leftpad, Numeral.length_spell]
  exact max_eq_left hlength

theorem ne_zero_of_mem_zeroPadded {width : Nat} {v : Int} (hv : 0 ≤ v) :
    ∀ d ∈ zeroPadded width v, d ≠ 0 := by
  intro d hd
  rw [zeroPadded_of_nonneg hv, List.leftpad, List.mem_append] at hd
  rcases hd with hd | hd
  · rw [List.eq_of_mem_replicate hd]
    decide
  · exact digits_ne_zero d (Numeral.mem_of_mem_spell (fun e => Numeral.lowFirst_lt (by decide)) hd)

/-- A year of four digits needs no padding. -/
theorem zeroPadded_one {v : Int} (hv : 1000 ≤ v) : zeroPadded 1 v = zeroPadded 4 v := by
  have hnot : ¬ (Numeral.lowFirst 10 v.natAbs).length ≤ 3 := by
    rw [Numeral.length_lowFirst_le_iff (by decide) (by decide)]
    omega
  rw [zeroPadded_of_nonneg (by omega), zeroPadded_of_nonneg (by omega), List.leftpad, List.leftpad,
    Numeral.length_spell, Nat.sub_eq_zero_of_le (by omega), Nat.sub_eq_zero_of_le (by omega)]

/-! ### The date -/

theorem Tm.IsDateOf.year_lt {tm : Tm} {t : Int} (h : tm.IsDateOf t) (ht : t < 2 ^ 37) :
    tm.tm_year + 1900 < 10000 := by
  obtain ⟨y, mon, mday, hyear, -, -, hfrom, -, -, -, hday⟩ := h.day
  have hsec := h.sec
  have hmin := h.min
  have hhour := h.hour
  have hdays : daysBeforeYear y ≤ dayNumber y mon mday := by
    unfold dayNumber
    omega
  obtain ⟨k, rfl⟩ := Nat.exists_eq_add_of_le hfrom
  have hcount := daysBeforeYear_add k
  omega

theorem Tm.IsDateOf.normal {tm : Tm} {t : Int} (h : tm.IsDateOf t) : tm.Normal := by
  obtain ⟨y, mon, mday, -, hmon, hmday, -, hmonth, hfirst, hlast, -⟩ := h.day
  have hsec := h.sec
  have hmin := h.min
  have hhour := h.hour
  have hmonthDays : daysInMonth y mon ≤ 31 := by
    unfold daysInMonth
    split <;> first | split | skip
    all_goals omega
  unfold Tm.Normal
  omega

theorem bytes_separators :
    bytes "-" = [0x2d] ∧ bytes " " = [0x20] ∧ bytes ":" = [0x3a] ∧ bytes "." = [0x2e] := by
  decide

theorem Tm.Normal.length_text {tm : Tm} (h : tm.Normal) (hfrom : 0 ≤ tm.tm_year + 1900)
    (hto : tm.tm_year + 1900 < 10000) : (tm.text 4).length = 19 := by
  obtain ⟨hsec, hmin, hhour, hmday, hmon⟩ := h
  obtain ⟨hdash, hblank, hcolon, -⟩ := bytes_separators
  have hfield : ∀ v : Int, 0 ≤ v ∧ v < 100 → (zeroPadded 2 v).length = 2 :=
    fun v hv => length_zeroPadded Nat.two_pos hv.1 hv.2
  have hyear : (zeroPadded 4 (tm.tm_year + 1900)).length = 4 :=
    length_zeroPadded (Nat.succ_pos 3) hfrom hto
  simp only [Tm.text, List.length_append, hdash, hblank, hcolon, List.length_singleton, hyear]
  rw [hfield (tm.tm_mon + 1) (by omega), hfield tm.tm_mday (by omega),
    hfield tm.tm_hour (by omega), hfield tm.tm_min (by omega), hfield tm.tm_sec (by omega)]

theorem Tm.Normal.ne_zero_of_mem_text {tm : Tm} (h : tm.Normal) (hfrom : 0 ≤ tm.tm_year + 1900)
    {yearWidth : Nat} : ∀ c ∈ tm.text yearWidth, c ≠ 0 := by
  obtain ⟨hsec, hmin, hhour, hmday, hmon⟩ := h
  obtain ⟨hdash, hblank, hcolon, -⟩ := bytes_separators
  have hnumber : ∀ (width : Nat) (v : Int), 0 ≤ v → ∀ c ∈ zeroPadded width v, c ≠ 0 :=
    fun width v => ne_zero_of_mem_zeroPadded
  simp only [Tm.text, hdash, hblank, hcolon, List.forall_mem_append, List.forall_mem_singleton,
    and_assoc]
  exact ⟨hnumber _ _ hfrom, by decide, hnumber _ _ (by omega), by decide, hnumber _ _ (by omega),
    by decide, hnumber _ _ hhour.1, by decide, hnumber _ _ hmin.1, by decide, hnumber _ _ hsec.1⟩

/-- `strftime` gives the nineteen characters of the date. -/
theorem Tm.IsDateOf.strftime {tm : Tm} {t : Int} (h : tm.IsDateOf t) (ht : t < 2 ^ 37) :
    CppUtils.strftime tm = some (tm.text 4) ∧ (tm.text 4).length = 19 ∧ ∀ c ∈ tm.text 4, c ≠ 0 := by
  have hnormal := h.normal
  have hto := h.year_lt ht
  have hfrom : 1970 ≤ tm.tm_year + 1900 := by
    obtain ⟨y, -, -, hyear, -, -, hfrom, -⟩ := h.day
    omega
  have hlength := hnormal.length_text (by omega) hto
  have htext : tm.text 1 = tm.text 4 := by
    rw [Tm.text, Tm.text, zeroPadded_one (by omega)]
  refine ⟨?_, hlength, hnormal.ne_zero_of_mem_text (by omega)⟩
  rw [CppUtils.strftime, htext, if_pos ⟨hnormal, by omega⟩]

/-! ### The buffer -/

/-- A string ends before its first NUL. -/
theorem takeWhile_ne_zero_append {text : List Byte} (htext : ∀ c ∈ text, c ≠ 0) (rest : List Byte) :
    (text ++ [0] ++ rest).takeWhile (· ≠ 0) = text := by
  rw [List.append_assoc, List.takeWhile_append_of_pos fun c hc => decide_eq_true (htext c hc)]
  simp

theorem snprintf_of_lt {buffer text : List Byte} {offset size : Nat} (hfits : text.length < size) :
    snprintf buffer offset size text =
      buffer.take offset ++ (text ++ [0]) ++ buffer.drop (offset + (text.length + 1)) := by
  have htake : text.take (size - 1) = text := List.take_of_length_le (by omega)
  rw [snprintf, htake, List.length_append, List.length_singleton]

theorem length_snprintf {buffer text : List Byte} {offset size : Nat} (hfits : text.length < size)
    (hsize : offset + size ≤ buffer.length) :
    (snprintf buffer offset size text).length = buffer.length := by
  rw [snprintf_of_lt hfits]
  simp only [List.length_append, List.length_take, List.length_drop, List.length_singleton]
  omega

/-! ### Readings of the clock -/

/-- From one second after the epoch to the end of the `int` minutes. -/
def InClockRange (microSecs : Int) : Prop :=
  kMicroSecondsPerSecond ≤ microSecs ∧ microSecs < 60 * 2 ^ 31 * kMicroSecondsPerSecond

instance (microSecs : Int) : Decidable (InClockRange microSecs) :=
  inferInstanceAs (Decidable (_ ∧ _))

/-- `YYYY-MM-DD HH:MM:SS.uuuuuu` for the Gregorian date eight hours ahead of the clock. -/
def IsTimeText (microSecs : Int) (text : List Byte) : Prop :=
  ∃ tm : Tm, tm.IsDateOf (microSecs / kMicroSecondsPerSecond + 3600 * 8) ∧ text.length = 26 ∧
    text = tm.text 4 ++ bytes "." ++ zeroPadded 6 (microSecs % kMicroSecondsPerSecond)

/-- What `strftime` leaves in `tmp`. -/
structure IsDateText (secs : Int) (tmp : List Byte) : Prop where
  date : ∃ tm, fastSecondToDate secs 8 = some tm ∧ strftime tm = some tmp ∧
    tm.IsDateOf (secs + 3600 * 8) ∧ tmp = tm.text 4
  length : tmp.length = 19
  ne_zero : ∀ c ∈ tmp, c ≠ 0

theorem exists_isDateText {secs : Int} (hlow : 0 ≤ secs) (hhigh : secs < 60 * 2 ^ 31) :
    ∃ tmp, IsDateText secs tmp := by
  obtain ⟨hours, hhours⟩ := Int.eq_ofNat_of_zero_le (show 0 ≤ secs / 3600 + 8 by omega)
  obtain ⟨a, b, c, d, e, m, h⟩ := exists_quotients (hours / 24)
  have htm := fastSecondToDate_eq hlow hhigh (by decide) hhours rfl h
  have hdate := h.isDateOf hhours
  obtain ⟨hstrftime, hlength, hne⟩ := hdate.strftime (by omega)
  exact ⟨_, ⟨_, htm, hstrftime, hdate, rfl⟩, hlength, hne⟩

section Reading

variable {microSecs : Int}

theorem InClockRange.nonneg (h : InClockRange microSecs) : 0 ≤ microSecs :=
  (show 0 ≤ kMicroSecondsPerSecond by decide).trans h.1

theorem InClockRange.secs_mem (h : InClockRange microSecs) :
    0 < microSecs.tdiv kMicroSecondsPerSecond ∧
      microSecs.tdiv kMicroSecondsPerSecond < 60 * 2 ^ 31 := by
  rw [Int.tdiv_eq_ediv_of_nonneg h.nonneg]
  obtain ⟨hlow, hhigh⟩ := h
  unfold kMicroSecondsPerSecond at hlow hhigh ⊢
  omega

theorem InClockRange.microseconds (h : InClockRange microSecs) :
    (zeroPadded 6 (microSecs.tmod kMicroSecondsPerSecond)).length = 6 ∧
      ∀ c ∈ zeroPadded 6 (microSecs.tmod kMicroSecondsPerSecond), c ≠ 0 := by
  rw [Int.tmod_eq_emod_of_nonneg h.nonneg]
  have hus : 0 ≤ microSecs % kMicroSecondsPerSecond := Int.emod_nonneg _ (by decide)
  have hlt : microSecs % kMicroSecondsPerSecond < 10 ^ 6 := Int.emod_lt_of_pos _ (by decide)
  exact ⟨length_zeroPadded (by decide) hus hlt, ne_zero_of_mem_zeroPadded hus⟩

/-- Without the thread-locals the text is the right one. -/
theorem IsDateText.formatTimeFromScratch {tmp : List Byte} (h : InClockRange microSecs)
    (hdate : IsDateText (microSecs.tdiv kMicroSecondsPerSecond) tmp) :
    CppUtils.formatTimeFromScratch microSecs =
        some (tmp ++ bytes "." ++ zeroPadded 6 (microSecs.tmod kMicroSecondsPerSecond)) ∧
      IsTimeText microSecs
        (tmp ++ bytes "." ++ zeroPadded 6 (microSecs.tmod kMicroSecondsPerSecond)) := by
  obtain ⟨tm, htm, hstrftime, htime, htext⟩ := hdate.date
  constructor
  · rw [CppUtils.formatTimeFromScratch, htm]
    simp only [Option.bind_eq_bind, Option.bind_some, hstrftime]
  · rw [Int.tdiv_eq_ediv_of_nonneg h.nonneg] at htime
    refine ⟨tm, htime, ?_, ?_⟩
    · rw [List.length_append, List.length_append, hdate.length, h.microseconds.1,
        bytes_separators.2.2.2, List.length_singleton]
    · rw [htext, Int.tmod_eq_emod_of_nonneg h.nonneg]

end Reading

/-! ### The thread-locals -/

namespace TimeFormat

/-- The buffer starts with the date of the last second, once there has been a call. -/
structure Cached (s : TimeFormat) : Prop where
  length : s.t_formatTime.length = 64
  prefix_eq : s.t_lastSecs ≠ 0 →
    ∃ tmp, IsDateText s.t_lastSecs tmp ∧ s.t_formatTime.take 20 = tmp ++ bytes "."

theorem cached_new : new.Cached where
  length := List.length_replicate
  prefix_eq h := absurd rfl h

/-- Date and microseconds at the front of the buffer. -/
theorem cached_of_eq {s : TimeFormat} {tmp us rest : List Byte} (hdate : IsDateText s.t_lastSecs tmp)
    (hus : ∀ c ∈ us, c ≠ 0) (hlength : s.t_formatTime.length = 64)
    (hbuffer : s.t_formatTime = tmp ++ bytes "." ++ us ++ [0] ++ rest) :
    s.Cached ∧ s.text = tmp ++ bytes "." ++ us := by
  have hpoint := bytes_separators.2.2.2
  have htwenty : (tmp ++ bytes ".").length = 20 := by
    rw [List.length_append, hdate.length, hpoint, List.length_singleton]
  constructor
  · refine ⟨hlength, fun _ => ⟨tmp, hdate, ?_⟩⟩
    rw [hbuffer, List.append_assoc, List.append_assoc, List.take_left' htwenty]
  · have hne : ∀ c ∈ tmp ++ bytes "." ++ us, c ≠ 0 := by
      rw [hpoint]
      simp only [List.forall_mem_append, List.forall_mem_singleton]
      exact ⟨⟨hdate.ne_zero, by decide⟩, hus⟩
    rw [text, hbuffer, takeWhile_ne_zero_append hne]

section Stored

variable {s s' : TimeFormat} {tmp us : List Byte}

/-- The text is written anew. -/
theorem Cached.of_seconds (h : s.Cached) (hdate : IsDateText s'.t_lastSecs tmp)
    (hus : us.length = 6) (husne : ∀ c ∈ us, c ≠ 0)
    (hbuffer : s'.t_formatTime = snprintf s.t_formatTime 0 64 (tmp ++ bytes "." ++ us)) :
    s'.Cached ∧ s'.text = tmp ++ bytes "." ++ us := by
  have hlt : (tmp ++ bytes "." ++ us).length < 64 := by
    rw [List.length_append, List.length_append, hdate.length, hus, bytes_separators.2.2.2]
    decide
  have hlength : s'.t_formatTime.length = 64 := by
    rw [hbuffer, length_snprintf hlt h.length.ge, h.length]
  rw [snprintf_of_lt hlt] at hbuffer
  exact cached_of_eq hdate husne hlength hbuffer

/-- The microseconds replace the last ones. -/
theorem Cached.of_microseconds (h : s.Cached) (hdate : IsDateText s'.t_lastSecs tmp)
    (hfront : s.t_formatTime.take 20 = tmp ++ bytes ".") (hus : us.length = 6)
    (husne : ∀ c ∈ us, c ≠ 0) (hbuffer : s'.t_formatTime = snprintf s.t_formatTime 20 7 us) :
    s'.Cached ∧ s'.text = tmp ++ bytes "." ++ us := by
  have hlt : us.length < 7 := by omega
  have hroom : 20 + 7 ≤ s.t_formatTime.length := by
    rw [h.length]
    decide
  have hlength : s'.t_formatTime.length = 64 := by
    rw [hbuffer, length_snprintf hlt hroom, h.length]
  rw [snprintf_of_lt hlt, hfront, ← List.append_assoc (tmp ++ bytes ".")] at hbuffer
  exact cached_of_eq hdate husne hlength hbuffer

end Stored

theorem exists_formatTime_of_eq {s : TimeFormat} {microSecs : Int}
    (hsecs : microSecs.tdiv kMicroSecondsPerSecond = s.t_lastSecs) :
    ∃ s', s.formatTime microSecs = some s' ∧ s'.t_lastSecs = s.t_lastSecs ∧
      s'.t_formatTime =
        snprintf s.t_formatTime 20 7 (zeroPadded 6 (microSecs.tmod kMicroSecondsPerSecond)) :=
  ⟨_, if_neg (not_not_intro hsecs), rfl, rfl⟩

theorem exists_formatTime_of_ne {s : TimeFormat} {microSecs : Int} {tmp : List Byte}
    (hsecs : microSecs.tdiv kMicroSecondsPerSecond ≠ s.t_lastSecs)
    (hdate : IsDateText (microSecs.tdiv kMicroSecondsPerSecond) tmp) :
    ∃ s', s.formatTime microSecs = some s' ∧
      s'.t_lastSecs = microSecs.tdiv kMicroSecondsPerSecond ∧
      s'.t_formatTime = snprintf s.t_formatTime 0 64
        (tmp ++ bytes "." ++ zeroPadded 6 (microSecs.tmod kMicroSecondsPerSecond)) := by
  obtain ⟨tm, htm, hstrftime, -, -⟩ := hdate.date
  have hcall : s.formatTime microSecs = some
      { t_formatTime := snprintf s.t_formatTime 0 64
          (tmp ++ bytes "." ++ zeroPadded 6 (microSecs.tmod kMicroSecondsPerSecond))
        t_lastSecs := microSecs.tdiv kMicroSecondsPerSecond } := by
    rw [TimeFormat.formatTime, if_pos hsecs, htm]
    simp only [Option.bind_eq_bind, Option.bind_some, hstrftime]
  exact ⟨_, hcall, rfl, rfl⟩

theorem Cached.formatTime {s : TimeFormat} (h : s.Cached) {microSecs : Int}
    (hrange : InClockRange microSecs) :
    ∃ s', s.formatTime microSecs = some s' ∧ s'.Cached ∧
      formatTimeFromScratch microSecs = some s'.text ∧ IsTimeText microSecs s'.text := by
  obtain ⟨hus, husne⟩ := hrange.microseconds
  by_cases hsecs : microSecs.tdiv kMicroSecondsPerSecond = s.t_lastSecs
  · obtain ⟨tmp, hdate, hfront⟩ := h.prefix_eq (hsecs ▸ hrange.secs_mem.1.ne')
    obtain ⟨s', hcall, hlast, hbuffer⟩ := exists_formatTime_of_eq hsecs
    obtain ⟨hcached, htext⟩ := h.of_microseconds (hlast ▸ hdate) hfront hus husne hbuffer
    refine ⟨s', hcall, hcached, ?_⟩
    rw [htext]
    exact IsDateText.formatTimeFromScratch hrange (hsecs ▸ hdate)
  · obtain ⟨tmp, hdate⟩ := exists_isDateText hrange.secs_mem.1.le hrange.secs_mem.2
    obtain ⟨s', hcall, hlast, hbuffer⟩ := exists_formatTime_of_ne hsecs hdate
    obtain ⟨hcached, htext⟩ := h.of_seconds (hlast ▸ hdate) hus husne hbuffer
    refine ⟨s', hcall, hcached, ?_⟩
    rw [htext]
    exact hdate.formatTimeFromScratch hrange

theorem Cached.formatTimes {s : TimeFormat} (h : s.Cached) {readings : List Int}
    (hrange : ∀ microSecs ∈ readings, InClockRange microSecs) :
    ∃ texts, s.formatTimes readings = some texts ∧
      List.Forall₂ (fun microSecs text => formatTimeFromScratch microSecs = some text ∧
        IsTimeText microSecs text) readings texts := by
  induction readings generalizing s with
  | nil => exact ⟨[], rfl, .nil⟩
  | cons microSecs readings ih =>
      obtain ⟨s', hcall, hcached, htext⟩ := h.formatTime (hrange microSecs List.mem_cons_self)
      obtain ⟨texts, hrest, hall⟩ :=
        ih hcached fun reading hmem => hrange reading (List.mem_cons_of_mem _ hmem)
      refine ⟨s'.text :: texts, ?_, .cons htext hall⟩
      rw [TimeFormat.formatTimes, hcall]
      simp only [Option.bind_eq_bind, Option.bind_some, hrest]

/-- **The cached formatter agrees with the uncached one.** Whatever the readings of a thread are, each
call returns the time text of its own reading. -/
theorem formatTimes_from_scratch {readings : List Int}
    (hrange : ∀ microSecs ∈ readings, InClockRange microSecs) :
    ∃ texts, new.formatTimes readings = some texts ∧
      List.Forall₂ (fun microSecs text => formatTimeFromScratch microSecs = some text ∧
        IsTimeText microSecs text) readings texts :=
  cached_new.formatTimes hrange

theorem formatTimes_from_scratch_back :
    ∃ texts, new.formatTimes [1640995199000042, 1640995199999999, 1640995198000000] = some texts ∧
      List.Forall₂ (fun microSecs text => formatTimeFromScratch microSecs = some text ∧
        IsTimeText microSecs text) [1640995199000042, 1640995199999999, 1640995198000000] texts :=
  formatTimes_from_scratch (by decide)

end TimeFormat

end CppUtils
