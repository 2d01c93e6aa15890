import Mathlib.Data.BitVec
import Mathlib.Data.Nat.Digits.Defs

/-!
# Numbers in base 128

A number is a list of bytes, lowest digit first. A byte carries a digit in its low seven bits, and
its high bit says whether another byte follows.
-/

namespace Base128

variable {bytes init : List (BitVec 8)} {b last : BitVec 8}

def digit (b : BitVec 8) : Nat := (b &&& 0x7f#8).toNat

def value (bytes : List (BitVec 8)) : Nat := Nat.ofDigits 128 (bytes.map digit)

/-- The last byte has its high bit clear, all others have it set. -/
def Complete (bytes : List (BitVec 8)) : Prop :=
  ∃ init last, bytes = init ++ [last] ∧ (∀ b ∈ init, 0x80 ≤ b.toNat) ∧ last.toNat < 0x80

theorem digit_lt (b : BitVec 8) : digit b < 128 := by
  rw [digit, BitVec.toNat_and]
  exact Nat.and_lt_two_pow (n := 7) _ (by decide)

theorem digit_of_lt (hb : b.toNat < 0x80) : digit b = b.toNat := by
  rw [digit, BitVec.toNat_and]
  exact Nat.and_two_pow_sub_one_of_lt_two_pow (n := 7) hb

@[simp]
theorem value_nil : value [] = 0 := rfl

@[simp]
theorem value_cons (b : BitVec 8) (bytes : List (BitVec 8)) :
    value (b :: bytes) = digit b + 128 * value bytes :=
  Nat.ofDigits_cons

theorem value_concat (init : List (BitVec 8)) (last : BitVec 8) :
    value (init ++ [last]) = value init + 128 ^ init.length * digit last := by
  rw [value, List.map_append, Nat.ofDigits_append, List.length_map, List.map_singleton,
    Nat.ofDigits_singleton]
  rfl

theorem value_lt (bytes : List (BitVec 8)) : value bytes < 128 ^ bytes.length := by
  have hdigits : ∀ d ∈ bytes.map digit, d < 128 := by
    intro d hd
    obtain ⟨b, -, rfl⟩ := List.mem_map.mp hd
    exact digit_lt b
  have h := Nat.ofDigits_lt_base_pow_length (by decide) hdigits
  rwa [List.length_map] at h

/-- Whether a number fits into `n` bits is decided by its highest digit. -/
theorem value_concat_lt_iff {n : Nat} (hn : 7 * init.length ≤ n) :
    value (init ++ [last]) < 2 ^ n ↔ digit last < 2 ^ (n - 7 * init.length) := by
  have hpow : (128 : Nat) ^ init.length = 2 ^ (7 * init.length) := by
    rw [pow_mul]
    rfl
  have hlow : value init < 2 ^ (7 * init.length) := hpow ▸ value_lt init
  have hhigh : (value init + 2 ^ (7 * init.length) * digit last) / 2 ^ (7 * init.length)
      = digit last := by
    rw [Nat.add_mul_div_left _ _ (Nat.two_pow_pos _), Nat.div_eq_of_lt hlow, Nat.zero_add]
  rw [value_concat, hpow, ← hhigh, Nat.div_lt_iff_lt_mul (Nat.two_pow_pos _), ← pow_add,
    Nat.sub_add_cancel hn, hhigh]

theorem complete_singleton (hb : b.toNat < 0x80) : Complete [b] :=
  ⟨[], b, rfl, by simp, hb⟩

theorem Complete.cons (h : Complete bytes) (hb : 0x80 ≤ b.toNat) : Complete (b :: bytes) := by
  obtain ⟨init, last, rfl, hinit, hlast⟩ := h
  refine ⟨b :: init, last, rfl, ?_, hlast⟩
  rintro c hc
  rcases List.mem_cons.mp hc with rfl | hc
  · exact hb
  · exact hinit c hc

/-- One more digit in an accumulator of `w` bits, which drops what does not fit. -/
theorem toNat_or_shiftLeft {w i : Nat} {acc : BitVec w} (hacc : acc.toNat < 2 ^ i) (b : BitVec 8) :
    (acc ||| b.setWidth w <<< i).toNat = (acc.toNat + 2 ^ i * b.toNat) % 2 ^ w := by
  have hshift : (b.setWidth w <<< i).toNat = 2 ^ i * b.toNat % 2 ^ w := by
    rw [BitVec.toNat_shiftLeft, BitVec.toNat_setWidth, Nat.shiftLeft_eq, Nat.mod_mul_mod,
      Nat.mul_comm]
  rw [BitVec.toNat_or, hshift]
  by_cases hi : i ≤ w
  · have hpow : (2 : Nat) ^ w = 2 ^ i * 2 ^ (w - i) := by rw [← pow_add, Nat.add_sub_cancel' hi]
    have hlow : (acc.toNat + 2 ^ i * b.toNat) % 2 ^ i = acc.toNat := by
      rw [Nat.add_mul_mod_self_left, Nat.mod_eq_of_lt hacc]
    have hhigh : (acc.toNat + 2 ^ i * b.toNat) / 2 ^ i = b.toNat := by
      rw [Nat.add_mul_div_left _ _ (Nat.two_pow_pos i), Nat.div_eq_of_lt hacc, Nat.zero_add]
    rw [hpow, Nat.mul_mod_mul_left, Nat.or_comm, ← Nat.two_pow_add_eq_or_of_lt hacc, Nat.mod_mul,
      hlow, hhigh, Nat.add_comm]
  · have hpow : (2 : Nat) ^ i = 2 ^ w * 2 ^ (i - w) := by
      rw [← pow_add, Nat.add_sub_cancel' (Nat.le_of_not_le hi)]
    rw [hpow, Nat.mul_assoc, Nat.mul_mod_right, Nat.or_zero, Nat.add_mul_mod_self_left,
      Nat.mod_eq_of_lt acc.isLt]

end Base128
