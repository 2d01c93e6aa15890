import CppUtils.LogStream
import CppUtils.Lib.Numeral

/-!
# The numerals the log writes

`formatInteger` takes its digits with the truncating `%`. For a number that is not negative this is
the usual loop and the result its numeral. For a negative one every remainder is zero or negative,
and since not all of them can be zero some index is before the digit table. `formatHex` stops before
the first digit of zero.
-/

namespace CppUtils

/-- The numeral without its sign. -/
def magnitude (text : List Byte) : List Byte :=
  if text.head? = some (0x2d : Byte) then text.tail else text

def readInteger (text : List Byte) : Option Int :=
  (Numeral.read digits (magnitude text)).map fun (n : Nat) =>
    if text.head? = some (0x2d : Byte) then -(n : Int) else n

/-- The canonical decimal numeral. -/
structure IsNumeral (v : Int) (text : List Byte) : Prop where
  value : readInteger text = some v
  sign : text.head? = some (0x2d : Byte) ↔ v < 0
  noLeadingZero : ∀ rest, magnitude text = (0x30 : Byte) :: rest → rest = []

theorem nodup_digits : digits.Nodup := by decide +kernel

theorem length_digits : digits.length = 10 := by decide +kernel

theorem digits_getElem? {d : Nat} (hd : d < 10) : digits[d]? = some (digits.getD d 0) := by
  rw [List.getD_eq_getElem?_getD, List.getElem?_eq_getElem (length_digits.symm ▸ hd),
    Option.getD_some]

/-! ### Numbers that are not negative -/

theorem integerDigits_natCast {n fuel : Nat} (hfuel : n < fuel) :
    integerDigits fuel n = some ((Numeral.lowFirst 10 n).map fun d => digits.getD d 0) := by
  induction fuel generalizing n with
  | zero => omega
  | succ fuel ih =>
      have hmod : (n : Int).tmod 10 = (n % 10 : Nat) := (Int.ofNat_tmod n 10).symm
      have hdiv : (n : Int).tdiv 10 = (n / 10 : Nat) := (Int.ofNat_tdiv n 10).symm
      have hdigit := digits_getElem? (Nat.mod_lt n (show 0 < 10 by decide))
      have hpos : (0 : Int) ≤ (n % 10 : Nat) := Int.natCast_nonneg _
      rw [integerDigits, hmod, hdiv, if_pos hpos, Int.toNat_natCast, hdigit,
        Numeral.lowFirst_eq_cons (by decide) n]
      simp only [Option.bind_eq_bind, Option.bind_some]
      by_cases hlast : n / 10 = 0
      · simp [hlast]
      · have hrest : ((n / 10 : Nat) : Int) ≠ 0 := by omega
        rw [if_neg hrest, if_neg hlast, ih (by omega)]
        rfl

/-- The text of a number that is not negative is its numeral over the digit table. -/
theorem formatInteger_natCast (n : Nat) :
    formatInteger n = some (Numeral.spell digits 0 (Numeral.lowFirst 10 n)) := by
  have hnot : ¬ (n : Int) < 0 := by omega
  rw [formatInteger, integerDigits_natCast (by omega), Option.map_some, if_neg hnot]
  rfl

theorem digit_ne_minus {d : Nat} (hd : d < 10) : digits.getD d 0 ≠ (0x2d : Byte) := by
  have hall : ∀ d < 10, digits.getD d 0 ≠ (0x2d : Byte) := by decide +kernel
  exact hall d hd

theorem head?_spell (digits : List Nat) (table : List Byte) :
    (Numeral.spell table 0 digits).head? = digits.getLast?.map fun d => table.getD d 0 := by
  rw [Numeral.spell, List.head?_reverse, List.getLast?_map]

theorem isNumeral_spell (n : Nat) :
    IsNumeral n (Numeral.spell digits 0 (Numeral.lowFirst 10 n)) := by
  have hlt : ∀ d ∈ Numeral.lowFirst 10 n, d < 10 := fun d => Numeral.lowFirst_lt (by decide)
  have hminus : (Numeral.spell digits 0 (Numeral.lowFirst 10 n)).head? ≠ some (0x2d : Byte) := by
    rw [head?_spell]
    intro h
    obtain ⟨d, hd, heq⟩ := Option.map_eq_some_iff.mp h
    exact digit_ne_minus (hlt d (List.mem_of_getLast? hd)) heq
  have hmagnitude : magnitude (Numeral.spell digits 0 (Numeral.lowFirst 10 n)) =
      Numeral.spell digits 0 (Numeral.lowFirst 10 n) := if_neg hminus
  constructor
  case value =>
    have hread := Numeral.read_spell nodup_digits 0 (Numeral.lowFirst_ne_nil 10 n)
      (fun d hd => length_digits.symm ▸ hlt d hd)
    rw [length_digits, Numeral.ofDigits_lowFirst] at hread
    rw [readInteger, hmagnitude, hread, Option.map_some, if_neg hminus]
  case sign =>
    have hnot : ¬ (n : Int) < 0 := by omega
    simp only [hminus, hnot]
  case noLeadingZero =>
    intro rest hrest
    rw [hmagnitude] at hrest
    exact Numeral.eq_nil_of_spell_eq_cons nodup_digits (by decide) rfl hrest

/-! ### Negative numbers -/

theorem integerDigits_neg {v : Int} (hv : v < 0) (fuel : Nat) : integerDigits fuel v = none := by
  induction fuel generalizing v with
  | zero => rfl
  | succ fuel ih =>
      by_cases hmod : 0 ≤ v.tmod 10
      · -- a remainder zero leaves a negative quotient
        have hsplit := Int.tmod_add_mul_tdiv v 10
        have hdiv : v.tdiv 10 < 0 := by omega
        simp only [integerDigits, if_neg (Int.ne_of_lt hdiv), ih hdiv, Option.bind_eq_bind,
          Option.bind_none, Option.bind_fun_none, ite_self]
      · rw [integerDigits, if_neg hmod]
        rfl

theorem formatInteger_neg {v : Int} (hv : v < 0) : formatInteger v = none := by
  rw [formatInteger, integerDigits_neg hv, Option.map_none]

/-- **The numerals of the log.** `formatInteger` stays inside the digit table and writes the
canonical numeral exactly for the numbers that are not negative. -/
theorem formatInteger_iff (v : Int) :
    (∃ text, formatInteger v = some text ∧ IsNumeral v text) ↔ 0 ≤ v := by
  constructor
  · rintro ⟨text, hformat, -⟩
    by_contra hneg
    rw [formatInteger_neg (Int.not_le.mp hneg)] at hformat
    cases hformat
  · intro hv
    obtain ⟨n, rfl⟩ := Int.eq_ofNat_of_zero_le hv
    exact ⟨_, formatInteger_natCast n, isNumeral_spell n⟩

/-- The `int` value -1 reads before the table. -/
theorem not_formatInteger_int :
    ¬ ∀ v : Int, -2147483648 ≤ v → v ≤ 2147483647 →
      ∃ text, formatInteger v = some text ∧ IsNumeral v text := by
  intro hnumeral
  obtain ⟨text, hformat, -⟩ := hnumeral (-1) (by decide) (by decide)
  have hnone : formatInteger (-1) = none := by decide +kernel
  rw [hnone] at hformat
  cases hformat

/-! ### Hexadecimal numbers -/

/-- `"0x"` and a canonical hexadecimal numeral. -/
def IsHexNumeral (v : BitVec 64) (text : List Byte) : Prop :=
  ∃ word, text = bytes "0x" ++ word ∧ word ≠ [] ∧ (∀ c ∈ word, c ∈ hex) ∧
    (∀ rest, word = (0x30 : Byte) :: rest → rest = []) ∧ Numeral.read hex word = some v.toNat

theorem nodup_hex : hex.Nodup := by decide +kernel

theorem hexDigits_eq_digits {fuel n : Nat} (hfuel : n < 16 ^ fuel) :
    hexDigits fuel n = (Nat.digits 16 n).map fun d => hex.getD d 0 := by
  induction fuel generalizing n with
  | zero =>
      have hzero : n = 0 := by omega
      rw [hzero, Nat.digits_zero]
      rfl
  | succ fuel ih =>
      rw [hexDigits]
      split
      case isTrue hzero => rw [hzero, Nat.digits_zero, List.map_nil]
      case isFalse hne =>
        rw [Nat.digits_def' (by decide) (Nat.pos_of_ne_zero hne), List.map_cons, ih (by omega)]

/-- The digits of a number that is not zero are its numeral over the digit table. -/
theorem formatHex_of_ne_zero {v : BitVec 64} (hv : v ≠ 0) :
    formatHex v = bytes "0x" ++ Numeral.spell hex 0 (Numeral.lowFirst 16 v.toNat) := by
  have hne : v.toNat ≠ 0 := fun hzero => hv (BitVec.eq_of_toNat_eq hzero)
  have hprefix : (bytes "x0").reverse = bytes "0x" := by decide
  rw [formatHex, hexDigits_eq_digits v.isLt, List.reverse_append, hprefix, Numeral.lowFirst,
    if_neg hne]
  rfl

/-- For zero the loop writes no digit. -/
theorem not_isHexNumeral_zero : ¬ IsHexNumeral 0 (formatHex 0) := by
  have hzero : formatHex 0 = bytes "0x" := by decide +kernel
  rintro ⟨word, hword, hne, -⟩
  rw [hzero] at hword
  exact hne (List.self_eq_append_right.mp hword)

/-- **The pointers of the log.** `formatHex` writes the canonical numeral exactly for the numbers
that are not zero, for which there is no digit. -/
theorem formatHex_iff (v : BitVec 64) : IsHexNumeral v (formatHex v) ↔ v ≠ 0 := by
  constructor
  · rintro hnumeral rfl
    exact not_isHexNumeral_zero hnumeral
  · intro hv
    have hlength : hex.length = 16 := by decide
    have hlt : ∀ d ∈ Numeral.lowFirst hex.length v.toNat, d < hex.length := fun d =>
      Numeral.lowFirst_lt (by decide)
    refine ⟨_, formatHex_of_ne_zero hv, ?_, ?_, ?_, ?_⟩ <;> rw [← hlength]
    · simpa [Numeral.spell] using Numeral.lowFirst_ne_nil _ _
    · exact fun c => Numeral.mem_of_mem_spell hlt
    · exact fun rest => Numeral.eq_nil_of_spell_eq_cons nodup_hex (by decide) rfl
    · exact Numeral.read_magnitude nodup_hex (by decide) 0 v.toNat

/-- A null pointer is `"0x"`. -/
theorem not_formatHex : ¬ ∀ v : BitVec 64, IsHexNumeral v (formatHex v) :=
  fun hnumeral => not_isHexNumeral_zero (hnumeral 0)

end CppUtils
