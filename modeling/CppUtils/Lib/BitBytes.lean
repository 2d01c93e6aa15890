import Mathlib.Data.BitVec
import Mathlib.Tactic.Ring

/-!
# Bit vectors as bytes

The bytes of a bit vector, least significant first, and the bit vector that a list of bytes
denotes. A vector whose bits fit into `n` bytes is recovered from them.

The last section is the base 128 digit step: the low seven bits of a value, placed at a shift, and
the value without them, placed seven bits further up, make the value at that shift.
-/

namespace BitBytes

variable {w : Nat}

/-- The first `n` bytes of a vector, least significant first. -/
def bytesLE : Nat → BitVec w → List (BitVec 8)
  | 0, _ => []
  | n + 1, v => v.setWidth 8 :: bytesLE n (v >>> 8)

/-- The vector that a list of bytes denotes, least significant first. -/
def ofBytesLE (w : Nat) : List (BitVec 8) → BitVec w
  | [] => 0
  | b :: bs => b.setWidth w ||| (ofBytesLE w bs <<< 8)

/-- The same bytes, most significant first. -/
def bytesBE (n : Nat) (v : BitVec w) : List (BitVec 8) := (bytesLE n v).reverse

@[simp]
theorem length_bytesLE (n : Nat) (v : BitVec w) : (bytesLE n v).length = n := by
  induction n generalizing v with
  | zero => rfl
  | succ n ih => rw [bytesLE, List.length_cons, ih]

@[simp]
theorem length_bytesBE (n : Nat) (v : BitVec w) : (bytesBE n v).length = n := by
  rw [bytesBE, List.length_reverse, length_bytesLE]

theorem getLsbD_ofBytesLE_bytesLE (n : Nat) (v : BitVec w) (i : Nat) :
    (ofBytesLE w (bytesLE n v)).getLsbD i = (decide (i < 8 * n) && v.getLsbD i) := by
  induction n generalizing v i with
  | zero => simp [bytesLE, ofBytesLE]
  | succ n ih =>
      rw [bytesLE, ofBytesLE, BitVec.getLsbD_or, BitVec.getLsbD_shiftLeft, ih,
        BitVec.getLsbD_setWidth, BitVec.getLsbD_setWidth, BitVec.getLsbD_ushiftRight]
      by_cases hw : i < w
      · by_cases hlow : i < 8
        · simp [hw, hlow, show i < 8 * (n + 1) by omega]
        · have hshift : 8 + (i - 8) = i := by omega
          have hbound : i - 8 < 8 * n ↔ i < 8 * (n + 1) := by omega
          simp [hw, hlow, hshift, hbound]
      · simp [hw, BitVec.getLsbD_of_ge v i (by omega)]

/-- **A vector is recovered from its bytes.** -/
theorem ofBytesLE_bytesLE {n : Nat} (hw : w ≤ 8 * n) (v : BitVec w) :
    ofBytesLE w (bytesLE n v) = v := by
  apply BitVec.eq_of_getLsbD_eq
  intro i hi
  rw [getLsbD_ofBytesLE_bytesLE]
  simp [show i < 8 * n by omega]

/-- The bytes of a vector are those of any vector with the same low bits. -/
theorem bytesLE_congr {n : Nat} {v v' : BitVec w}
    (h : ∀ i, i < 8 * n → v.getLsbD i = v'.getLsbD i) : bytesLE n v = bytesLE n v' := by
  induction n generalizing v v' with
  | zero => rfl
  | succ n ih =>
      have hhead : v.setWidth 8 = v'.setWidth 8 := by
        apply BitVec.eq_of_getLsbD_eq
        intro i hi
        simp [hi, h i (by omega)]
      have htail : bytesLE n (v >>> 8) = bytesLE n (v' >>> 8) := by
        refine ih fun i hi => ?_
        simpa using h (8 + i) (by omega)
      rw [bytesLE, bytesLE, hhead, htail]

/-- **Bytes are recovered from the vector they denote**, when it is wide enough for them. -/
theorem bytesLE_ofBytesLE {bs : List (BitVec 8)} (hw : 8 * bs.length ≤ w) :
    bytesLE bs.length (ofBytesLE w bs) = bs := by
  induction bs with
  | nil => rfl
  | cons b bs ih =>
      rw [List.length_cons] at hw ⊢
      have hhead : (ofBytesLE w (b :: bs)).setWidth 8 = b := by
        apply BitVec.eq_of_getLsbD_eq
        intro i hi
        simp [ofBytesLE, hi, show i < w by omega]
      have htail : bytesLE bs.length (ofBytesLE w (b :: bs) >>> 8)
          = bytesLE bs.length (ofBytesLE w bs) := by
        refine bytesLE_congr fun i hi => ?_
        simp [ofBytesLE, show 8 + i < w by omega, show i < w by omega]
      rw [bytesLE, hhead, htail, ih (by omega)]

/-! ### One base 128 digit -/

theorem getLsbD_digit (v : BitVec w) (i : Nat) :
    ((v.setWidth 8 ||| 128#8) &&& 127#8).getLsbD i = (decide (i < 7) && v.getLsbD i) := by
  have hmask : ∀ k, k < 8 → (127#8).getLsbD k = decide (k < 7) := by decide
  have htop : ∀ k, k < 7 → (128#8).getLsbD k = false := by decide
  rw [BitVec.getLsbD_and, BitVec.getLsbD_or, BitVec.getLsbD_setWidth]
  by_cases hdigit : i < 7
  · rw [hmask i (by omega), htop i hdigit]
    simp [hdigit, show i < 8 by omega]
  · by_cases hbyte : i < 8
    · rw [hmask i hbyte]
      simp [hdigit]
    · rw [BitVec.getLsbD_of_ge (127#8) i (by omega)]
      simp [hdigit]

theorem digit_or_shift (v : BitVec w) (s : Nat) :
    (((v.setWidth 8 ||| 128#8) &&& 127#8).setWidth w <<< s) ||| ((v >>> 7) <<< (s + 7))
      = v <<< s := by
  apply BitVec.eq_of_getLsbD_eq
  intro i hi
  rw [BitVec.getLsbD_or, BitVec.getLsbD_shiftLeft, BitVec.getLsbD_shiftLeft,
    BitVec.getLsbD_shiftLeft, BitVec.getLsbD_setWidth, getLsbD_digit, BitVec.getLsbD_ushiftRight]
  by_cases hlow : i < s
  · simp [hlow, show i < s + 7 by omega]
  · by_cases hdigit : i - s < 7
    · simp [hi, hlow, hdigit, show i < s + 7 by omega, show i - s < w by omega]
    · have hshift : 7 + (i - (s + 7)) = i - s := by omega
      simp [hi, hlow, hdigit, hshift, show ¬ i < s + 7 by omega]

theorem continued_ge (v : BitVec w) : 0x80 ≤ (v.setWidth 8 ||| 128#8).toNat := by
  rw [BitVec.toNat_or]
  exact Nat.right_le_or

theorem last_digit {v : BitVec w} (hv : v.toNat < 0x80) :
    (v.setWidth 8).toNat = v.toNat ∧ (v.setWidth 8).setWidth w = v := by
  have htoNat : (v.setWidth 8).toNat = v.toNat := by
    rw [BitVec.toNat_setWidth]
    exact Nat.mod_eq_of_lt (by omega)
  refine ⟨htoNat, BitVec.eq_of_toNat_eq ?_⟩
  rw [BitVec.toNat_setWidth, htoNat]
  exact Nat.mod_eq_of_lt v.isLt

end BitBytes
