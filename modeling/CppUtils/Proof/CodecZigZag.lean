import CppUtils.Proof.CodecVarintSize

/-!
# Zigzag

The codes are a bijection, and the arithmetic on the way stays inside the signed types, except that
`encodeZigZag32` and `encodeZigZag64` negate the least value of their type. The 16-bit functions
compute in `int`, which has room for that.
-/

namespace CppUtils

/-- What the code of a signed value is. -/
def zigZag (v : Int) : Int := if v < 0 then -2 * v - 1 else 2 * v

/-- The functions are defined at this value and at this code, and inverse to each other there. -/
structure ZigZagAt {w : Nat} (encode decode : BitVec w → Option (BitVec w)) (value code : BitVec w) :
    Prop where
  encoded : ∃ u, encode value = some u ∧ (u.toNat : Int) = zigZag value.toInt ∧ decode u = some value
  decoded : ∃ v, decode code = some v ∧ encode v = some code

/-! ### Operations that do not overflow -/

theorem checkedNeg_of_ne {w : Nat} {x : BitVec w} (h : x ≠ BitVec.intMin w) :
    checkedNeg x = some (-x) := by
  have hnot : ¬ x.negOverflow := by simp [BitVec.negOverflow_eq, h]
  rw [checkedNeg, if_neg hnot]

theorem checkedNeg_intMin {w : Nat} (hw : 0 < w) : checkedNeg (BitVec.intMin w) = none := by
  have hover : (BitVec.intMin w).negOverflow := by simp [BitVec.negOverflow_eq, hw]
  rw [checkedNeg, if_pos hover]

theorem checkedEncodeZigZag_of_ne {w : Nat} {value : BitVec w} (h : value ≠ BitVec.intMin w) :
    checkedEncodeZigZag value = some (encodeZigZag value) := by
  rw [checkedEncodeZigZag, encodeZigZag, checkedNeg_of_ne h, Option.map_some]
  split <;> rfl

theorem checkedEncodeZigZag_intMin {w : Nat} (hw : 0 < w) :
    checkedEncodeZigZag (BitVec.intMin w) = none := by
  have hneg : (BitVec.intMin w).slt 0#w := by
    rw [BitVec.slt_zero_eq_msb, BitVec.msb_intMin]
    simpa using hw
  rw [checkedEncodeZigZag, if_pos hneg, checkedNeg_intMin hw, Option.map_none]

theorem checkedMul_of_mem {w : Nat} {x y : BitVec w} (hlow : -2 ^ (w - 1) ≤ x.toInt * y.toInt)
    (hhigh : x.toInt * y.toInt < 2 ^ (w - 1)) : checkedMul x y = some (x * y) := by
  have hnot : ¬ x.smulOverflow y := by
    simp only [BitVec.smulOverflow, Bool.or_eq_true, decide_eq_true_eq]
    omega
  rw [checkedMul, if_neg hnot]

theorem checkedSub_of_mem {w : Nat} {x y : BitVec w} (hlow : -2 ^ (w - 1) ≤ x.toInt - y.toInt)
    (hhigh : x.toInt - y.toInt < 2 ^ (w - 1)) : checkedSub x y = some (x - y) := by
  have hnot : ¬ x.ssubOverflow y := by
    simp only [BitVec.ssubOverflow, Bool.or_eq_true, decide_eq_true_eq]
    omega
  rw [checkedSub, if_neg hnot]

/-- A `uint16_t` that becomes an `int`. -/
theorem toInt_setWidth_16 (v : BitVec 16) : (v.setWidth 32).toInt = v.toNat := by
  have hlt := v.isLt
  have hwide : (v.setWidth 32).toNat = v.toNat := by
    rw [BitVec.toNat_setWidth]
    omega
  rw [BitVec.toInt_eq_toNat_of_lt] <;> omega

/-- For 16 bits every operation is inside `int`. -/
theorem checkedEncodeZigZag16_eq (value : BitVec 16) :
    checkedEncodeZigZag16 value = some (encodeZigZag16 value) := by
  have hneg : checkedNeg (value.signExtend 32) = some (-value.signExtend 32) := by
    refine checkedNeg_of_ne fun hmin => ?_
    have hvalue : (value.signExtend 32).toInt = value.toInt :=
      BitVec.toInt_signExtend_of_le (by decide)
    have hlow := BitVec.le_toInt value
    rw [hmin, BitVec.toInt_intMin] at hvalue
    omega
  have htwo : (2#32).toInt = 2 := by decide
  have hone : (1#32).toInt = 1 := by decide
  have hdouble (v : BitVec 16) : (v.setWidth 32 * 2#32).toInt = v.toNat * 2 := by
    have hlt := v.isLt
    rw [BitVec.toInt_mul, toInt_setWidth_16, htwo, Int.bmod_eq_of_le] <;> omega
  have hmul (v : BitVec 16) : checkedMul (v.setWidth 32) 2#32 = some (v.setWidth 32 * 2#32) := by
    have hlt := v.isLt
    refine checkedMul_of_mem ?_ ?_ <;> rw [toInt_setWidth_16, htwo] <;> omega
  have hmul' (v : BitVec 16) : checkedMul 2#32 (v.setWidth 32) = some (2#32 * v.setWidth 32) := by
    have hlt := v.isLt
    refine checkedMul_of_mem ?_ ?_ <;> rw [toInt_setWidth_16, htwo] <;> omega
  have hsub (v : BitVec 16) :
      checkedSub (v.setWidth 32 * 2#32) 1#32 = some (v.setWidth 32 * 2#32 - 1#32) := by
    have hlt := v.isLt
    refine checkedSub_of_mem ?_ ?_ <;> rw [hdouble, hone] <;> omega
  rw [checkedEncodeZigZag16, encodeZigZag16]
  simp only [hneg, hmul, hmul', hsub, Option.bind_eq_bind, Option.bind_some]
  split <;> rfl

theorem checkedDecodeZigZag16_eq (value : BitVec 16) :
    checkedDecodeZigZag16 value = some (decodeZigZag16 value) := by
  have hneg : checkedNeg (value.setWidth 32 &&& 1#32) = some (-(value.setWidth 32 &&& 1#32)) := by
    refine checkedNeg_of_ne fun hmin => ?_
    have hbit := congrArg BitVec.msb hmin
    rw [BitVec.msb_and, BitVec.msb_intMin] at hbit
    simp at hbit
  rw [checkedDecodeZigZag16, hneg]
  rfl

/-! ### The two directions -/

section Generic

variable {w : Nat} {value code : BitVec w}

theorem toNat_encodeZigZag_eq_zigZag (value : BitVec w) :
    ((encodeZigZag value).toNat : Int) = zigZag value.toInt := toNat_encodeZigZag value

/-- The code of the least value is the greatest. -/
theorem decodeZigZag_eq_intMin_iff (hw : 0 < w) :
    decodeZigZag code = BitVec.intMin w ↔ code = BitVec.allOnes w := by
  have hmin : encodeZigZag (BitVec.intMin w) = BitVec.allOnes w := by
    apply BitVec.eq_of_toNat_eq
    have hcode := toNat_encodeZigZag_eq_zigZag (BitVec.intMin w)
    have hhalf : (2 : Nat) ^ w = 2 * 2 ^ (w - 1) := by
      rw [← pow_succ', Nat.sub_add_cancel hw]
    have hpos := Nat.two_pow_pos (w - 1)
    have hcast : ((2 ^ (w - 1) : Nat) : Int) = 2 ^ (w - 1) := by push_cast; rfl
    rw [BitVec.toInt_intMin_of_pos hw, ← hcast, zigZag, if_pos (by omega)] at hcode
    rw [BitVec.toNat_allOnes]
    omega
  rw [← hmin]
  constructor
  · intro h
    rw [← h, encodeZigZag_decodeZigZag]
  · rintro rfl
    exact decodeZigZag_encodeZigZag _

theorem zigZagAt_iff (hw : 0 < w) :
    ZigZagAt (checkedEncodeZigZag (w := w)) (fun code => some (decodeZigZag code)) value code ↔
      value ≠ BitVec.intMin w ∧ code ≠ BitVec.allOnes w := by
  constructor
  · rintro ⟨⟨u, hencode, -⟩, v, hdecode, hback⟩
    constructor
    · rintro rfl
      rw [checkedEncodeZigZag_intMin hw] at hencode
      cases hencode
    · intro hcode
      rw [← Option.some.inj hdecode, (decodeZigZag_eq_intMin_iff hw).mpr hcode,
        checkedEncodeZigZag_intMin hw] at hback
      cases hback
  · rintro ⟨hvalue, hcode⟩
    have hdecode : decodeZigZag code ≠ BitVec.intMin w := mt (decodeZigZag_eq_intMin_iff hw).mp hcode
    refine ⟨⟨_, checkedEncodeZigZag_of_ne hvalue, toNat_encodeZigZag_eq_zigZag value, ?_⟩,
      _, rfl, ?_⟩
    · rw [decodeZigZag_encodeZigZag]
    · rw [checkedEncodeZigZag_of_ne hdecode, encodeZigZag_decodeZigZag]

end Generic

theorem zigZagAt_16 (value code : BitVec 16) :
    ZigZagAt checkedEncodeZigZag16 checkedDecodeZigZag16 value code := by
  refine ⟨⟨_, checkedEncodeZigZag16_eq value, ?_, ?_⟩, _, checkedDecodeZigZag16_eq code, ?_⟩
  · rw [encodeZigZag16_eq]
    exact toNat_encodeZigZag_eq_zigZag value
  · rw [checkedDecodeZigZag16_eq, decodeZigZag16_eq, encodeZigZag16_eq, decodeZigZag_encodeZigZag]
  · rw [checkedEncodeZigZag16_eq, decodeZigZag16_eq, encodeZigZag16_eq, encodeZigZag_decodeZigZag]

/-! ### All widths -/

inductive Width where
  | w16
  | w32
  | w64

namespace Width

def bits : Width → Nat
  | w16 => 16
  | w32 => 32
  | w64 => 64

def encodeZigZag : (N : Width) → BitVec N.bits → Option (BitVec N.bits)
  | w16 => checkedEncodeZigZag16
  | w32 => checkedEncodeZigZag32
  | w64 => checkedEncodeZigZag64

def decodeZigZag : (N : Width) → BitVec N.bits → Option (BitVec N.bits)
  | w16 => checkedDecodeZigZag16
  | w32 => checkedDecodeZigZag32
  | w64 => checkedDecodeZigZag64

/-- **Zigzag.** The 16-bit functions are inverse to each other and stay inside `int` everywhere. The
others do so exactly where the value is not the least of its type, nor the code that of the least
value. -/
theorem zigZagAt_iff_of_width (N : Width) (value code : BitVec N.bits) :
    ZigZagAt N.encodeZigZag N.decodeZigZag value code ↔
      N = w16 ∨ value ≠ BitVec.intMin N.bits ∧ code ≠ BitVec.allOnes N.bits := by
  cases N with
  | w16 => exact iff_of_true (zigZagAt_16 value code) (.inl rfl)
  | w32 => exact (zigZagAt_iff (show 0 < 32 by decide)).trans (by simp [bits])
  | w64 => exact (zigZagAt_iff (show 0 < 64 by decide)).trans (by simp [bits])

/-- `encodeZigZag32` negates `INT32_MIN`. -/
theorem not_zigZagAt :
    ¬ ∀ (N : Width) (value code : BitVec N.bits),
      ZigZagAt N.encodeZigZag N.decodeZigZag value code := by
  intro hzigZag
  obtain ⟨⟨u, hencode, -⟩, -⟩ := hzigZag w32 (BitVec.intMin 32) 0#32
  have hnone : checkedEncodeZigZag (BitVec.intMin 32) = none :=
    checkedEncodeZigZag_intMin (by decide)
  cases hnone.symm.trans hencode

end Width

end CppUtils
