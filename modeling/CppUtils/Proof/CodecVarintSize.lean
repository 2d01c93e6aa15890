import CppUtils.Proof.CodecRoundTrip
import CppUtils.Proof.CodecVarintInput
import Mathlib.Order.Bounds.Basic

/-!
# Varints are as short as they can be

The writer stops at the first number of bytes whose base 128 digits hold the value, and a reader
that consumes `k` bytes returns a value below `128 ^ k`. So no shorter string is read as the value.
Zigzag makes of the signed values between `-2 ^ (7 * k - 1)` and `2 ^ (7 * k - 1)` the unsigned ones
below `128 ^ k`.
-/

namespace CppUtils

open Base128

/-! ### The length of what is written -/

theorem length_varintBytes_le {w room k : Nat} {value : BitVec w} {out : List Byte}
    (hout : varintBytes room value = some out) (hk : 1 ≤ k) (hvalue : value.toNat < 128 ^ k) :
    out.length ≤ k := by
  induction room generalizing value k out with
  | zero => cases hout
  | succ room ih =>
      rw [varintBytes] at hout
      split at hout
      case isTrue hbig =>
        obtain ⟨tail, htail, rfl⟩ := Option.map_eq_some_iff.mp hout
        obtain ⟨k, rfl⟩ : ∃ m, k = m + 1 := ⟨k - 1, by omega⟩
        have hshift : (value >>> 7).toNat < 128 ^ k := by
          rw [BitVec.toNat_ushiftRight, Nat.shiftRight_eq_div_pow]
          rw [pow_succ] at hvalue
          omega
        have hpos : 1 ≤ k := by
          by_contra hzero
          obtain rfl : k = 0 := by omega
          omega
        exact Nat.succ_le_succ (ih htail hpos hshift)
      case isFalse =>
        cases hout
        exact hk

theorem lt_of_varintBytes {w room : Nat} {value : BitVec w} {out : List Byte}
    (hout : varintBytes room value = some out) : value.toNat < 128 ^ out.length := by
  induction room generalizing value out with
  | zero => cases hout
  | succ room ih =>
      rw [varintBytes] at hout
      split at hout
      case isTrue =>
        obtain ⟨tail, htail, rfl⟩ := Option.map_eq_some_iff.mp hout
        have hrest := ih htail
        rw [BitVec.toNat_ushiftRight, Nat.shiftRight_eq_div_pow] at hrest
        rw [List.length_cons, pow_succ]
        omega
      case isFalse hsmall =>
        cases hout
        exact Nat.lt_of_not_le hsmall

theorem isLeast_length_varintBytes {w room : Nat} {value : BitVec w} {out : List Byte}
    (hout : varintBytes room value = some out) :
    IsLeast {k | 1 ≤ k ∧ value.toNat < 128 ^ k} out.length :=
  ⟨⟨length_varintBytes_pos hout, lt_of_varintBytes hout⟩,
    fun _ hk => length_varintBytes_le hout hk.1 hk.2⟩

/-! ### What the readers consume -/

/-- A deserializer on these bytes; their number fits `_readed`. -/
structure Deserializer.On (s : Deserializer) (bytes : List Byte) : Prop where
  buf : s.buf = some bytes
  readed_le : s.readed ≤ bytes.length
  fits : bytes.length < 2 ^ 32

section Consume

variable {s t : Deserializer} {bytes out : List Byte}

theorem Deserializer.On.read (h : s.On bytes) {n : Nat} (hread : s.read n = some (out, t)) :
    t.On bytes ∧ t.readed = s.readed + n ∧ out.length = n := by
  have hlength := length_of_read hread
  have hfits := h.fits
  unfold Deserializer.read at hread
  split at hread
  · rw [h.buf] at hread
    simp only at hread
    split at hread
    case isTrue hroom =>
      cases hread
      have hreaded : u32 (s.readed + n) = s.readed + n := u32_of_lt (by omega)
      refine ⟨⟨rfl, ?_, hfits⟩, hreaded, hlength⟩
      rw [hreaded]
      exact hroom
    case isFalse => cases hread
  · cases hread

theorem Deserializer.On.readByte (h : s.On bytes) {b : Byte}
    (hread : s.readByte = some (b, t)) : t.On bytes ∧ t.readed = s.readed + 1 := by
  unfold Deserializer.readByte at hread
  split at hread
  case h_1 b' mid hmid =>
    cases hread
    obtain ⟨hon, hreaded, -⟩ := h.read hmid
    exact ⟨hon, hreaded⟩
  case h_2 => cases hread

theorem Deserializer.On.consumes (h : s.On bytes) (hout : s.Consumes out t) :
    t.On bytes ∧ t.readed = s.readed + out.length := by
  induction hout with
  | nil s => exact ⟨h, rfl⟩
  | cons hbyte _ ih =>
      obtain ⟨hon, hreaded⟩ := h.readByte hbyte
      obtain ⟨hon', hreaded'⟩ := ih hon
      rw [List.length_cons]
      exact ⟨hon', by omega⟩

/-- A varint of `k` bytes has a value below `128 ^ k`. -/
theorem Deserializer.On.readVarint {n : Nat} (h : s.On bytes) (hn : 0 < n) {value : BitVec n}
    (hread : CppUtils.readVarint n s = some (value, t)) :
    t.On bytes ∧ ∃ k, 1 ≤ k ∧ t.readed = s.readed + k ∧ value.toNat < 128 ^ k := by
  obtain ⟨out, hout, -, hvalue, hend⟩ :=
    readVarintFrom_spec (i := 0) (by rw [BitVec.toNat_ofNat]; simp) hread
  obtain ⟨hon, hreaded⟩ := h.consumes hout
  refine ⟨hon, out.length, ?_, hreaded, ?_⟩
  · rcases hend with ⟨init, last, rfl, -⟩ | ⟨hfull, -⟩
    · rw [List.length_append, List.length_singleton]
      omega
    · omega
  · have hsum : value.toNat = Base128.value out % 2 ^ n := by simpa using hvalue
    rw [hsum]
    exact (Nat.mod_le _ _).trans_lt (value_lt out)

theorem Deserializer.on_new (hs : Deserializer.new bytes = some s) (hfits : bytes.length < 2 ^ 32) :
    s.On bytes ∧ s.readed = 0 ∧ 0 < bytes.length := by
  unfold Deserializer.new at hs
  split at hs
  case isTrue hpos =>
    cases hs
    exact ⟨⟨rfl, Nat.zero_le _, hfits⟩, rfl, hpos⟩
  case isFalse => cases hs

end Consume

/-! ### Shortest encodings -/

/-- What `write` hands over is one block of no more than `room` bytes, as many as the least `k` that
`Fits` the value, and `read` does not get the value from fewer. -/
def Shortest {α : Type} (write : α → Option (List (List Byte)))
    (read : Deserializer → Option (α × Deserializer)) (room : Nat) (Fits : Nat → α → Prop) : Prop :=
  ∀ value, ∃ bytes, write value = some [bytes] ∧ bytes.length ≤ room ∧
    IsLeast {k | 1 ≤ k ∧ Fits k value} bytes.length ∧
    ∀ shorter s t, shorter.length < bytes.length → Deserializer.new shorter = some s →
      read s ≠ some (value, t)

theorem shortest_writeVarint {n : Nat} (hn : 0 < n) (hfits : (n + 6) / 7 < 2 ^ 32) :
    Shortest (writeVarint ((n + 6) / 7)) (readVarint n) ((n + 6) / 7)
      (fun k value => value.toNat < 128 ^ k) := by
  intro value
  have hroom : 1 ≤ (n + 6) / 7 := by omega
  have hwidth : 2 ^ n ≤ 128 ^ ((n + 6) / 7) := by
    rw [show (128 : Nat) = 2 ^ 7 from rfl, ← pow_mul]
    exact Nat.pow_le_pow_right (by decide) (by omega)
  have hvalue : value.toNat < 128 ^ ((n + 6) / 7) := value.isLt.trans_le hwidth
  obtain ⟨bytes, hbytes⟩ := varintBytes_isSome hroom hvalue
  have hle := length_varintBytes_le hbytes hroom hvalue
  refine ⟨bytes, by rw [writeVarint, hbytes, Option.map_some], hle,
    isLeast_length_varintBytes hbytes, fun shorter s t hshorter hnew hread => ?_⟩
  obtain ⟨hon, hstart, hpos⟩ := Deserializer.on_new hnew (by omega)
  obtain ⟨hon', k, hk, hreaded, hlt⟩ := hon.readVarint hn hread
  have hend := hon'.readed_le
  have hlong := length_varintBytes_le hbytes hk hlt
  omega

/-- The law for values that are mapped to unsigned ones before they are written. -/
theorem Shortest.comp {α β : Type} {write : α → Option (List (List Byte))}
    {read : Deserializer → Option (α × Deserializer)} {room : Nat} {Fits : Nat → α → Prop}
    {Fits' : Nat → β → Prop} {encode : β → α} {decode : α → β} (h : Shortest write read room Fits)
    (hdecode : ∀ u, encode (decode u) = u)
    (hfits : ∀ k, 1 ≤ k → ∀ value, Fits' k value ↔ Fits k (encode value)) :
    Shortest (fun value => write (encode value))
      (fun s => (read s).map fun (value, s) => (decode value, s)) room Fits' := by
  intro value
  obtain ⟨bytes, hwrite, hroom, hleast, hread⟩ := h (encode value)
  have hset : {k | 1 ≤ k ∧ Fits' k value} = {k | 1 ≤ k ∧ Fits k (encode value)} := by
    ext k
    exact and_congr_right fun hk => hfits k hk value
  refine ⟨bytes, hwrite, hroom, hset ▸ hleast, fun shorter s t hshorter hnew hmap => ?_⟩
  obtain ⟨⟨u, t'⟩, hu, heq⟩ := Option.map_eq_some_iff.mp hmap
  obtain ⟨rfl, rfl⟩ := Prod.mk.inj heq
  exact hread shorter s t' hshorter hnew (by rw [hdecode, hu])

theorem toNat_encodeZigZag {w : Nat} (value : BitVec w) :
    ((encodeZigZag value).toNat : Int)
      = if value.toInt < 0 then -2 * value.toInt - 1 else 2 * value.toInt := by
  have hlt := value.isLt
  cases hmsb : value.msb with
  | false =>
      have hint : value.toInt = value.toNat := by rw [BitVec.toInt_eq_msb_cond, hmsb, if_neg (by simp)]
      rw [toNat_encodeZigZag_of_nonneg hmsb, hint, if_neg (by omega)]
      omega
  | true =>
      have hint : value.toInt = value.toNat - (2 ^ w : Nat) := by
        rw [BitVec.toInt_eq_msb_cond, hmsb, if_pos rfl]
      rw [toNat_encodeZigZag_of_neg hmsb, BitVec.toNat_not, hint, if_pos (by omega)]
      omega

theorem encodeZigZag_lt_iff {w k : Nat} (hk : 1 ≤ k) (value : BitVec w) :
    -2 ^ (7 * k - 1) ≤ value.toInt ∧ value.toInt < 2 ^ (7 * k - 1) ↔
      (encodeZigZag value).toNat < 128 ^ k := by
  have hpow : (128 : Nat) ^ k = 2 * 2 ^ (7 * k - 1) := by
    rw [← pow_succ', Nat.sub_add_cancel (by omega), pow_mul]
    rfl
  have hcast : ((2 ^ (7 * k - 1) : Nat) : Int) = 2 ^ (7 * k - 1) := by push_cast; rfl
  have hvalue := toNat_encodeZigZag value
  rw [hpow, ← hcast]
  split_ifs at hvalue <;> omega

/-- **The sizes of varints.** Every writer emits the least number of bytes whose digits hold the
value, which fits its array, and no shorter string is read as the value. -/
theorem varint_sizes :
    (Shortest writeVarUint16 readVarUint16 3 fun k value => value.toNat < 128 ^ k) ∧
    (Shortest writeVarUint32 readVarUint32 5 fun k value => value.toNat < 128 ^ k) ∧
    (Shortest writeVarUint64 readVarUint64 10 fun k value => value.toNat < 128 ^ k) ∧
    (Shortest writeVarInt16 readVarInt16 3 fun k value =>
      -2 ^ (7 * k - 1) ≤ value.toInt ∧ value.toInt < 2 ^ (7 * k - 1)) ∧
    (Shortest writeVarInt32 readVarInt32 5 fun k value =>
      -2 ^ (7 * k - 1) ≤ value.toInt ∧ value.toInt < 2 ^ (7 * k - 1)) ∧
    (Shortest writeVarInt64 readVarInt64 10 fun k value =>
      -2 ^ (7 * k - 1) ≤ value.toInt ∧ value.toInt < 2 ^ (7 * k - 1)) := by
  have h16 := shortest_writeVarint (n := 16) (by decide) (by decide)
  have h32 := shortest_writeVarint (n := 32) (by decide) (by decide)
  have h64 := shortest_writeVarint (n := 64) (by decide) (by decide)
  refine ⟨h16, h32, h64, h16.comp (fun u => ?_) fun k hk value => ?_,
    h32.comp encodeZigZag_decodeZigZag fun k hk => encodeZigZag_lt_iff hk,
    h64.comp encodeZigZag_decodeZigZag fun k hk => encodeZigZag_lt_iff hk⟩
  · rw [decodeZigZag16_eq, encodeZigZag16_eq, encodeZigZag_decodeZigZag]
  · rw [encodeZigZag16_eq]
    exact encodeZigZag_lt_iff hk value

end CppUtils
