import Mathlib.Data.Nat.Digits.Lemmas
import Mathlib.Data.List.GetD

/-!
# Numerals over a table of digits

A number is written with the symbols of a table, most significant first, in the base that is the
length of the table. `read` is the value of a word over the table, and `write` is the word without
leading zeros that has a given value.
-/

namespace CppUtils.Numeral

variable {α : Type} [DecidableEq α]

/-- The value of a word; there is none for the empty word and for one with another symbol. -/
def read (table : List α) (word : List α) : Option Nat :=
  if word = [] then none
  else word.foldlM (fun n c => (table.idxOf? c).map (table.length * n + ·)) 0

/-- The digits of a number, lowest first; zero has one. -/
def lowFirst (base n : Nat) : List Nat := if n = 0 then [0] else Nat.digits base n

theorem lowFirst_ne_nil (base n : Nat) : lowFirst base n ≠ [] := by
  unfold lowFirst
  split
  · simp
  · simpa [Nat.digits_ne_nil_iff_ne_zero]

theorem lowFirst_lt {base n d : Nat} (hbase : 1 < base) (hd : d ∈ lowFirst base n) : d < base := by
  unfold lowFirst at hd
  split at hd
  · rw [List.mem_singleton.mp hd]
    omega
  · exact Nat.digits_lt_base hbase hd

theorem ofDigits_lowFirst (base n : Nat) : Nat.ofDigits base (lowFirst base n) = n := by
  unfold lowFirst
  split
  case isTrue hzero => simp [hzero]
  case isFalse => exact Nat.ofDigits_digits base n

/-- The last digit comes off, as a loop of divisions takes it. -/
theorem lowFirst_eq_cons {base : Nat} (hbase : 1 < base) (n : Nat) :
    lowFirst base n = n % base :: (if n / base = 0 then [] else lowFirst base (n / base)) := by
  by_cases hzero : n = 0
  · simp [lowFirst, hzero]
  · have hdigits := Nat.digits_def' hbase (Nat.pos_of_ne_zero hzero)
    by_cases hlast : n / base = 0
    · rw [lowFirst, if_neg hzero, hdigits, hlast, if_pos rfl, Nat.digits_zero]
    · rw [lowFirst, if_neg hzero, hdigits, if_neg hlast, lowFirst, if_neg hlast]

/-- Only zero has the highest digit zero. -/
theorem lowFirst_getLast {base n : Nat} (h : (lowFirst base n).getLast? = some 0) : n = 0 := by
  by_contra hzero
  have hdigits : Nat.digits base n ≠ [] := Nat.digits_ne_nil_iff_ne_zero.mpr hzero
  rw [lowFirst, if_neg hzero, List.getLast?_eq_some_getLast hdigits] at h
  exact Nat.getLast_digit_ne_zero base hzero (Option.some.inj h)

/-- A word of `k` digits has room for the numbers below `base ^ k`. -/
theorem length_lowFirst_le_iff {base k : Nat} (hbase : 1 < base) (hk : 0 < k) (n : Nat) :
    (lowFirst base n).length ≤ k ↔ n < base ^ k := by
  unfold lowFirst
  split
  case isTrue hzero =>
    have hpos : 0 < base ^ k := Nat.pow_pos (by omega)
    rw [hzero, List.length_singleton]
    exact iff_of_true hk hpos
  case isFalse => exact Nat.digits_length_le_iff hbase n

/-- The word over the table with the given digits, lowest first. -/
def spell (table : List α) (default : α) (digits : List Nat) : List α :=
  (digits.map fun d => table.getD d default).reverse

omit [DecidableEq α] in
theorem length_spell (table : List α) (default : α) (digits : List Nat) :
    (spell table default digits).length = digits.length := by
  rw [spell, List.length_reverse, List.length_map]

theorem idxOf?_getD {table : List α} (hnodup : table.Nodup) (default : α) {d : Nat}
    (hd : d < table.length) : table.idxOf? (table.getD d default) = some d := by
  rw [List.getD_eq_getElem _ _ hd]
  have hmem : table[d] ∈ table := List.getElem_mem hd
  rw [List.idxOf?_eq_some_iff]
  refine ⟨hd, rfl, fun j hj heq => ?_⟩
  exact hj.ne ((List.Nodup.getElem_inj_iff hnodup).mp heq)

/-- Reading is the inverse of spelling. -/
theorem read_spell {table : List α} (hnodup : table.Nodup) (default : α) {digits : List Nat}
    (hne : digits ≠ []) (hdigits : ∀ d ∈ digits, d < table.length) :
    read table (spell table default digits) = some (Nat.ofDigits table.length digits) := by
  have hword : spell table default digits ≠ [] := by simpa [spell] using hne
  rw [read, if_neg hword]
  clear hne hword
  induction digits with
  | nil => rfl
  | cons d digits ih =>
      have hrest := ih fun d' hd' => hdigits d' (List.mem_cons_of_mem d hd')
      unfold spell at hrest ⊢
      rw [List.map_cons, List.reverse_cons, List.foldlM_append, hrest]
      simp only [Option.bind_eq_bind, Option.bind_some, List.foldlM_cons, List.foldlM_nil,
        idxOf?_getD hnodup default (hdigits d List.mem_cons_self), Option.map_some,
        Nat.ofDigits_cons, Option.pure_def, Nat.add_comm]

/-- A numeral has no superfluous leading zero. -/
theorem eq_nil_of_spell_eq_cons {table : List α} (hnodup : table.Nodup) (hbase : 1 < table.length)
    {default zero : α} (hzero : table.getD 0 default = zero) {n : Nat} {rest : List α}
    (h : spell table default (lowFirst table.length n) = zero :: rest) : rest = [] := by
  have hhead : (spell table default (lowFirst table.length n)).head? = some zero := by
    rw [h, List.head?_cons]
  rw [spell, List.head?_reverse, List.getLast?_map] at hhead
  obtain ⟨d, hd, heq⟩ := Option.map_eq_some_iff.mp hhead
  have hlt : d < table.length := lowFirst_lt hbase (List.mem_of_getLast? hd)
  have hindex := idxOf?_getD hnodup default hlt
  rw [heq, ← hzero, idxOf?_getD hnodup default (by omega)] at hindex
  have hn : n = 0 := lowFirst_getLast ((Option.some.inj hindex).symm ▸ hd)
  have hlength := congrArg List.length h
  simpa [hn, spell, lowFirst] using hlength.symm

omit [DecidableEq α] in
theorem mem_of_mem_spell {table : List α} {default : α} {digits : List Nat}
    (hdigits : ∀ d ∈ digits, d < table.length) {c : α} (hc : c ∈ spell table default digits) :
    c ∈ table := by
  rw [spell, List.mem_reverse, List.mem_map] at hc
  obtain ⟨d, hd, rfl⟩ := hc
  rw [List.getD_eq_getElem _ _ (hdigits d hd)]
  exact List.getElem_mem _

/-! ### Signed numbers -/

/-- A number with the given sign in front if it is negative. -/
def writeSigned (table : List α) (default sign : α) (v : Int) : List α :=
  let magnitude := spell table default (lowFirst table.length v.natAbs)
  if v < 0 then sign :: magnitude else magnitude

def readSigned (table : List α) (sign : α) (word : List α) : Option Int :=
  if word.head? = some sign then (read table word.tail).map fun n : Nat => -(n : Int)
  else (read table word).map fun n : Nat => (n : Int)

theorem read_magnitude {table : List α} (hnodup : table.Nodup) (hbase : 1 < table.length)
    (default : α) (n : Nat) : read table (spell table default (lowFirst table.length n)) = some n := by
  rw [read_spell hnodup default (lowFirst_ne_nil _ _) fun d => lowFirst_lt hbase,
    ofDigits_lowFirst]

theorem readSigned_writeSigned {table : List α} (hnodup : table.Nodup) (hbase : 1 < table.length)
    (default : α) {sign : α} (hsign : sign ∉ table) (v : Int) :
    readSigned table sign (writeSigned table default sign v) = some v := by
  have hread := read_magnitude hnodup hbase default v.natAbs
  by_cases hneg : v < 0
  · rw [writeSigned, if_pos hneg, readSigned, List.head?_cons, if_pos rfl, List.tail_cons, hread,
      Option.map_some, Int.ofNat_natAbs_of_nonpos hneg.le, neg_neg]
  · have hhead : (spell table default (lowFirst table.length v.natAbs)).head? ≠ some sign :=
      fun h => hsign (mem_of_mem_spell (fun d => lowFirst_lt hbase) (List.mem_of_mem_head? h))
    rw [writeSigned, if_neg hneg, readSigned, if_neg hhead, hread, Option.map_some,
      Int.natAbs_of_nonneg (Int.not_lt.mp hneg)]

omit [DecidableEq α] in
theorem mem_of_mem_writeSigned {table : List α} (hbase : 1 < table.length) {default sign c : α}
    {v : Int} (hc : c ∈ writeSigned table default sign v) : c = sign ∨ c ∈ table := by
  have hmagnitude : c ∈ spell table default (lowFirst table.length v.natAbs) → c ∈ table :=
    mem_of_mem_spell fun d => lowFirst_lt hbase
  rw [writeSigned] at hc
  split at hc
  · exact (List.mem_cons.mp hc).imp_right hmagnitude
  · exact .inr (hmagnitude hc)

omit [DecidableEq α] in
theorem writeSigned_ne_nil (table : List α) (default sign : α) (v : Int) :
    writeSigned table default sign v ≠ [] := by
  rw [writeSigned]
  split
  · exact List.cons_ne_nil _ _
  · simpa [spell] using lowFirst_ne_nil _ _

end CppUtils.Numeral
