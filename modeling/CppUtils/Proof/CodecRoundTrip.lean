import CppUtils.Codec
import Mathlib.Tactic.Ring

/-!
# What is written is read back

Each reader undoes its writer wherever the written bytes stand in the buffer and whatever follows
them: it returns the value and has consumed exactly these bytes (`Decodes`). That is what makes the
round trip of a sequence an induction, since the next reader then starts where the next writer did.
-/

namespace CppUtils

open BitBytes

/-- A deserializer that has consumed the bytes `pre` and has `rest` before it. -/
def Deserializer.between (pre rest : List Byte) : Deserializer where
  buf := some (pre ++ rest)
  len := (pre ++ rest).length
  readed := pre.length

/-- A reader that consumes exactly `bytes`, wherever they stand, and returns `v`. -/
def Decodes {α : Type} (f : Deserializer → Option (α × Deserializer)) (bytes : List Byte) (v : α) :
    Prop :=
  ∀ pre rest, (pre ++ bytes ++ rest).length < 2 ^ 32 →
    f (.between pre (bytes ++ rest)) = some (v, .between (pre ++ bytes) rest)

theorem decodes_read (bytes : List Byte) : Decodes (·.read bytes.length) bytes bytes := by
  intro pre rest hlen
  have hwrap : (bytes.length + pre.length) % 2 ^ 64 = bytes.length + pre.length := by
    simp only [List.length_append] at hlen
    exact Nat.mod_eq_of_lt (by omega)
  have hreaded : u32 (pre.length + bytes.length) = pre.length + bytes.length := by
    simp only [List.length_append] at hlen
    exact u32_of_lt (by omega)
  have hassert : bytes.length + pre.length ≤ (pre ++ (bytes ++ rest)).length := by
    simp only [List.length_append]
    omega
  simp only [Deserializer.read, Deserializer.between, hwrap, hreaded]
  rw [if_pos hassert, if_pos (by omega)]
  simp

theorem decodes_readByte (b : Byte) : Decodes Deserializer.readByte [b] b := by
  intro pre rest hlen
  have hread := decodes_read [b] pre rest hlen
  rw [List.length_singleton] at hread
  simp only [Deserializer.readByte, hread]

theorem Decodes.map {α β : Type} {f : Deserializer → Option (α × Deserializer)}
    {bytes : List Byte} {v : α} (h : Decodes f bytes v) (g : α → β) :
    Decodes (fun s => (f s).map fun (v, s) => (g v, s)) bytes (g v) := by
  intro pre rest hlen
  simp only [h pre rest hlen, Option.map_some]

/-! ### Fixed width -/

theorem bytesLE_bswap {n : Nat} (v : BitVec (8 * n)) : bytesLE n (bswap n v) = bytesBE n v := by
  have hlen : 8 * (bytesLE n v).reverse.length = 8 * n := by simp
  have h := bytesLE_ofBytesLE hlen.le
  rwa [List.length_reverse, length_bytesLE] at h

theorem bswap_bswap {n : Nat} (v : BitVec (8 * n)) : bswap n (bswap n v) = v := by
  rw [bswap, bytesLE_bswap, bytesBE, List.reverse_reverse, ofBytesLE_bytesLE le_rfl]

theorem isLittleEndian_littleEndian : ByteOrder.littleEndian.isLittleEndian = true := by decide

theorem isLittleEndian_bigEndian : ByteOrder.bigEndian.isLittleEndian = false := by decide

/-- Whatever the host, the bytes handed to `write` are those of the pattern, high byte first. -/
theorem writeBit_eq {n : Nat} (order : ByteOrder) (v : BitVec (8 * n)) :
    writeBit order n v = [bytesBE n v] := by
  cases order with
  | littleEndian =>
      rw [writeBit, isLittleEndian_littleEndian, if_pos rfl, ByteOrder.store, bytesLE_bswap]
  | bigEndian =>
      rw [writeBit, isLittleEndian_bigEndian, if_neg Bool.false_ne_true, ByteOrder.store, bytesBE]

/-- On a little-endian host both sides swap, and the reader gets back what the writer was given. -/
theorem decodes_readBit {n : Nat} (v : BitVec (8 * n)) :
    Decodes (readBit .littleEndian n) (writeBit .littleEndian n v).flatten v := by
  intro pre rest hlen
  rw [writeBit_eq, List.flatten_singleton, ← bytesLE_bswap] at hlen ⊢
  have hread := decodes_read (bytesLE n (bswap n v)) pre rest hlen
  rw [length_bytesLE] at hread
  simp only [readBit, hread, Option.map_some, ByteOrder.load, ofBytesLE_bytesLE le_rfl, bswap_bswap]

/-! ### Zigzag -/

theorem toNat_encodeZigZag_of_nonneg {w : Nat} {value : BitVec w} (h : value.msb = false) :
    (encodeZigZag value).toNat = 2 * value.toNat := by
  have hlt := BitVec.msb_eq_false_iff_two_mul_lt.mp h
  rw [encodeZigZag, BitVec.slt_zero_eq_msb, h, if_neg Bool.false_ne_true, BitVec.toNat_mul,
    BitVec.toNat_ofNat, Nat.mod_mul_mod]
  exact Nat.mod_eq_of_lt hlt

theorem toNat_encodeZigZag_of_neg {w : Nat} {value : BitVec w} (h : value.msb = true) :
    (encodeZigZag value).toNat = 2 * (~~~value).toNat + 1 := by
  have hge := BitVec.msb_eq_true_iff_two_mul_ge.mp h
  have hlt := value.isLt
  have hring : -value * 2#w - 1#w = 2#w * ~~~value + 1#w := by
    have hone : 1#w = 1 := rfl
    have htwo : 2#w = 2 := rfl
    rw [BitVec.neg_eq_not_add, hone, htwo]
    ring
  rw [encodeZigZag, BitVec.slt_zero_eq_msb, h, if_pos rfl, hring, BitVec.toNat_add,
    BitVec.toNat_mul, BitVec.toNat_ofNat, BitVec.toNat_ofNat, Nat.mod_mul_mod, Nat.mod_add_mod,
    Nat.add_mod_mod]
  refine Nat.mod_eq_of_lt ?_
  rw [BitVec.toNat_not]
  omega

theorem decodeZigZag_of_even {w : Nat} {u k : BitVec w} (hu : u.toNat = 2 * k.toNat) :
    decodeZigZag u = k := by
  have hshift : u >>> 1 = k := by
    apply BitVec.eq_of_toNat_eq
    rw [BitVec.toNat_ushiftRight, Nat.shiftRight_eq_div_pow]
    omega
  have hbit : u &&& 1#w = 0#w := by
    apply BitVec.eq_of_toNat_eq
    have hone : (1#w).toNat = 0 ∨ (1#w).toNat = 1 := by
      have := Nat.mod_le 1 (2 ^ w)
      rw [BitVec.toNat_ofNat]
      omega
    rw [BitVec.toNat_and]
    rcases hone with hone | hone
    · rw [hone]
      simp
    · rw [hone, Nat.and_one_is_mod]
      simp
      omega
  rw [decodeZigZag, hshift, hbit, BitVec.neg_zero, BitVec.xor_zero]

theorem decodeZigZag_of_odd {w : Nat} {u k : BitVec w} (hu : u.toNat = 2 * k.toNat + 1) :
    decodeZigZag u = ~~~k := by
  have hlt := u.isLt
  have hshift : u >>> 1 = k := by
    apply BitVec.eq_of_toNat_eq
    rw [BitVec.toNat_ushiftRight, Nat.shiftRight_eq_div_pow]
    omega
  have hbit : u &&& 1#w = 1#w := by
    apply BitVec.eq_of_toNat_eq
    have hone : (1#w).toNat = 1 := by
      rw [BitVec.toNat_ofNat]
      exact Nat.mod_eq_of_lt (by omega)
    rw [BitVec.toNat_and, hone, Nat.and_one_is_mod]
    omega
  rw [decodeZigZag, hshift, hbit, BitVec.neg_one_eq_allOnes, BitVec.xor_allOnes]

theorem decodeZigZag_encodeZigZag {w : Nat} (value : BitVec w) :
    decodeZigZag (encodeZigZag value) = value := by
  cases h : value.msb with
  | false => exact decodeZigZag_of_even (toNat_encodeZigZag_of_nonneg h)
  | true =>
      rw [decodeZigZag_of_odd (toNat_encodeZigZag_of_neg h), BitVec.not_not]

theorem encodeZigZag_decodeZigZag {w : Nat} (value : BitVec w) :
    encodeZigZag (decodeZigZag value) = value := by
  apply BitVec.eq_of_toNat_eq
  have hlt := value.isLt
  have hhalf : (value >>> 1).toNat = value.toNat / 2 := by
    rw [BitVec.toNat_ushiftRight, Nat.shiftRight_eq_div_pow, pow_one]
  have hmsb : (value >>> 1).msb = false := by
    rw [BitVec.msb_eq_false_iff_two_mul_lt, hhalf]
    omega
  rcases Nat.mod_two_eq_zero_or_one value.toNat with heven | hodd
  · rw [decodeZigZag_of_even (k := value >>> 1) (by omega),
      toNat_encodeZigZag_of_nonneg hmsb, hhalf]
    omega
  · have hneg : (~~~(value >>> 1)).msb = true := by
      have hpos : 0 < w := by
        by_contra hzero
        obtain rfl : w = 0 := by omega
        omega
      rw [BitVec.msb_not, hmsb]
      simpa using hpos
    rw [decodeZigZag_of_odd (k := value >>> 1) (by omega), toNat_encodeZigZag_of_neg hneg,
      BitVec.not_not, hhalf]
    omega

theorem encodeZigZag16_eq (value : BitVec 16) : encodeZigZag16 value = encodeZigZag value := by
  have hsign : (value.signExtend 32).slt 0#32 = value.slt 0#16 := by
    rw [BitVec.slt_zero_eq_msb, BitVec.slt_zero_eq_msb, BitVec.msb_signExtend]
    simp
  have htrunc : (value.signExtend 32).setWidth 16 = value := by
    apply BitVec.eq_of_getLsbD_eq
    intro i hi
    rw [BitVec.getLsbD_setWidth, BitVec.getLsbD_signExtend]
    simp [hi, show i < 32 by omega]
  have hback : ∀ v : BitVec 16, (v.setWidth 32).setWidth 16 = v := by
    intro v
    apply BitVec.eq_of_toNat_eq
    have := v.isLt
    simp only [BitVec.toNat_setWidth]
    omega
  have htwo : (2#32).setWidth 16 = 2#16 := by decide
  have hone : (-1#32).setWidth 16 = -1#16 := by decide
  simp only [encodeZigZag16, encodeZigZag, hsign, htrunc]
  split
  · rw [BitVec.sub_eq_add_neg, BitVec.setWidth_add _ _ (by decide),
      BitVec.setWidth_mul _ _ (by decide), hback, BitVec.setWidth_neg_of_le (by decide), htrunc,
      htwo, hone, ← BitVec.sub_eq_add_neg]
  · rw [BitVec.setWidth_mul _ _ (by decide), hback, htwo]

theorem decodeZigZag16_eq (value : BitVec 16) : decodeZigZag16 value = decodeZigZag value := by
  have hshift : (value.setWidth 32 >>> 1).setWidth 16 = value >>> 1 := by
    apply BitVec.eq_of_toNat_eq
    have := value.isLt
    simp only [BitVec.toNat_setWidth, BitVec.toNat_ushiftRight, Nat.shiftRight_eq_div_pow]
    omega
  have hbit : (value.setWidth 32 &&& 1#32).setWidth 16 = value &&& 1#16 := by
    apply BitVec.eq_of_toNat_eq
    have := value.isLt
    simp only [BitVec.toNat_setWidth, BitVec.toNat_and, BitVec.toNat_ofNat, Nat.reducePow,
      Nat.reduceMod, Nat.and_one_is_mod]
    omega
  rw [decodeZigZag16, decodeZigZag, BitVec.setWidth_xor, hshift,
    BitVec.setWidth_neg_of_le (by decide), hbit]

/-! ### Varints -/

theorem varintBytes_isSome {w room : Nat} {value : BitVec w} (hroom : 0 < room)
    (hvalue : value.toNat < 128 ^ room) : ∃ bytes, varintBytes room value = some bytes := by
  induction room generalizing value with
  | zero => omega
  | succ room ih =>
      rw [varintBytes]
      by_cases hbig : 0x80 ≤ value.toNat
      · have hshift : (value >>> 7).toNat < 128 ^ room := by
          rw [BitVec.toNat_ushiftRight, Nat.shiftRight_eq_div_pow]
          rw [pow_succ] at hvalue
          omega
        have hroom' : 0 < room := by
          by_contra hzero
          obtain rfl : room = 0 := by omega
          omega
        obtain ⟨bytes, hbytes⟩ := ih hroom' hshift
        exact ⟨_, by rw [if_pos hbig, hbytes, Option.map_some]⟩
      · exact ⟨_, by rw [if_neg hbig]⟩

theorem length_varintBytes_pos {w room : Nat} {value : BitVec w} {bytes : List Byte}
    (hbytes : varintBytes room value = some bytes) : 0 < bytes.length := by
  cases room with
  | zero => cases hbytes
  | succ room =>
      rw [varintBytes] at hbytes
      split at hbytes
      · obtain ⟨_, _, rfl⟩ := Option.map_eq_some_iff.mp hbytes
        exact Nat.succ_pos _
      · obtain rfl := Option.some.inj hbytes
        exact Nat.succ_pos _

/-- From any shift on, the reader's loop adds the value at that shift and stops where the writer's
loop stopped. -/
theorem decodes_readVarintFrom {w room : Nat} {value : BitVec w} {bytes : List Byte} (s : Nat)
    (ret : BitVec w) (hbytes : varintBytes room value = some bytes) :
    Decodes (readVarintFrom (List.range' s room 7) ret) bytes (ret ||| value <<< s) := by
  induction room generalizing value bytes s ret with
  | zero => cases hbytes
  | succ room ih =>
      intro pre rest hlen
      rw [varintBytes] at hbytes
      by_cases hbig : 0x80 ≤ value.toNat
      · rw [if_pos hbig] at hbytes
        obtain ⟨tail, htail, rfl⟩ := Option.map_eq_some_iff.mp hbytes
        set b := value.setWidth 8 ||| 0x80#8 with hb
        have hbyte := decodes_readByte b pre (tail ++ rest) (by simpa using hlen)
        have hcontinued : ¬ b.toNat < 0x80 := Nat.not_lt.mpr (continued_ge value)
        have hrest := ih (s + 7) (ret ||| ((b &&& 0x7f#8).setWidth w <<< s)) htail
          (pre ++ [b]) rest (by simpa using hlen)
        rw [List.range'_succ, readVarintFrom, List.cons_append]
        rw [List.singleton_append] at hbyte
        simp only [hbyte, hcontinued, if_false]
        rw [hrest, BitVec.or_assoc, hb, digit_or_shift, List.append_assoc, List.singleton_append]
      · rw [if_neg hbig] at hbytes
        obtain rfl := Option.some.inj hbytes
        obtain ⟨htoNat, hvalue⟩ := last_digit (Nat.not_le.mp hbig)
        have hbyte := decodes_readByte (value.setWidth 8) pre rest hlen
        rw [List.range'_succ, readVarintFrom]
        simp only [hbyte]
        rw [if_pos (by omega), hvalue]

theorem decodes_readVarint {n : Nat} {value : BitVec n} {bytes : List Byte}
    (hbytes : varintBytes ((n + 6) / 7) value = some bytes) :
    Decodes (readVarint n) bytes value := by
  have h := decodes_readVarintFrom 0 0#n hbytes
  rwa [BitVec.shiftLeft_zero, BitVec.zero_or] at h

theorem decodes_writeVarint {n : Nat} {value : BitVec n} {blocks : List (List Byte)}
    (hblocks : writeVarint ((n + 6) / 7) value = some blocks) :
    Decodes (readVarint n) blocks.flatten value := by
  obtain ⟨bytes, hbytes, rfl⟩ := Option.map_eq_some_iff.mp hblocks
  rw [List.flatten_singleton]
  exact decodes_readVarint hbytes

theorem writeVarint_isSome {w n : Nat} (value : BitVec w) (hn : 0 < n) (hw : 2 ^ w ≤ 128 ^ n) :
    ∃ blocks, writeVarint n value = some blocks := by
  obtain ⟨bytes, hbytes⟩ := varintBytes_isSome hn (value.isLt.trans_le hw)
  exact ⟨[bytes], by rw [writeVarint, hbytes]; rfl⟩

/-! ### Strings -/

theorem writeString_isSome (str : List Byte) : ∃ blocks, writeString str = some blocks := by
  obtain ⟨header, hheader⟩ :=
    writeVarint_isSome (n := 5) (BitVec.ofNat 32 str.length) (by decide) (by decide)
  exact ⟨_, by rw [writeString, writeVarUint32, hheader]; rfl⟩

theorem decodes_readString {str : List Byte} {blocks : List (List Byte)}
    (hstr : str.length < 2 ^ 32) (hblocks : writeString str = some blocks) :
    Decodes readString blocks.flatten str := by
  have hlen : (BitVec.ofNat 32 str.length).toNat = str.length := by
    rw [BitVec.toNat_ofNat]
    exact Nat.mod_eq_of_lt hstr
  obtain ⟨header, hheader⟩ :=
    writeVarint_isSome (n := 5) (BitVec.ofNat 32 str.length) (by decide) (by decide)
  have hdecodes := decodes_writeVarint hheader
  simp only [writeString, writeVarUint32, hheader, Option.map_some, Option.some.injEq] at hblocks
  intro pre rest hfits
  by_cases hzero : BitVec.ofNat 32 str.length = 0#32
  · -- only the length was written, and the reader does not read on
    have hnil : str = [] := by
      rw [hzero] at hlen
      exact List.eq_nil_of_length_eq_zero hlen.symm
    rw [if_pos hzero] at hblocks
    subst hblocks
    have hread := hdecodes pre rest hfits
    simp only [readString, readVarUint32, hread]
    rw [if_pos hzero, hnil]
  · rw [if_neg hzero, hlen, List.take_length] at hblocks
    subst hblocks
    rw [List.flatten_append, List.flatten_singleton] at hfits ⊢
    have hread := hdecodes pre (str ++ rest) (by simpa [Nat.add_assoc] using hfits)
    have hbody := decodes_read str (pre ++ header.flatten) rest (by simpa using hfits)
    simp only [readString, readVarUint32, List.append_assoc, hread, hzero, if_false, hlen]
    simpa using hbody

/-! ### Values and sequences -/

/-- A string whose length fits the `uint32_t` in front of it; every other value is encodable. -/
def Value.Encodable : Value → Prop
  | .string str => str.length < 2 ^ 32
  | _ => True

instance (v : Value) : Decidable v.Encodable := by
  cases v <;> (unfold Value.Encodable; infer_instance)

theorem writeValue_isSome (order : ByteOrder) (v : Value) :
    ∃ blocks, writeValue order v = some blocks := by
  cases v with
  | fixed32 v | fixed64 v | sFixed32 v | sFixed64 v | varInt8 v | varUint8 v | float v | double v =>
      exact ⟨_, rfl⟩
  | varInt16 v | varUint16 v | varInt32 v | varUint32 v | varInt64 v | varUint64 v =>
      exact writeVarint_isSome _ (by decide) (by decide)
  | string str => exact writeString_isSome str

theorem decodes_readValue {v : Value} {blocks : List (List Byte)} (hv : v.Encodable)
    (hblocks : writeValue .littleEndian v = some blocks) :
    Decodes (readValue .littleEndian · v.kind) blocks.flatten v := by
  cases v with
  | fixed32 v =>
      obtain rfl := Option.some.inj hblocks
      exact (decodes_readBit (n := 4) v).map Value.fixed32
  | fixed64 v =>
      obtain rfl := Option.some.inj hblocks
      exact (decodes_readBit (n := 8) v).map Value.fixed64
  | sFixed32 v =>
      obtain rfl := Option.some.inj hblocks
      have h :=
        ((decodes_readBit (n := 4) (encodeZigZag32 v)).map decodeZigZag32).map Value.sFixed32
      rwa [decodeZigZag32, encodeZigZag32, decodeZigZag_encodeZigZag] at h
  | sFixed64 v =>
      obtain rfl := Option.some.inj hblocks
      have h :=
        ((decodes_readBit (n := 8) (encodeZigZag64 v)).map decodeZigZag64).map Value.sFixed64
      rwa [decodeZigZag64, encodeZigZag64, decodeZigZag_encodeZigZag] at h
  | varInt8 v =>
      obtain rfl := Option.some.inj hblocks
      exact (decodes_readByte v).map Value.varInt8
  | varUint8 v =>
      obtain rfl := Option.some.inj hblocks
      exact (decodes_readByte v).map Value.varUint8
  | varInt16 v =>
      have h := ((decodes_writeVarint (n := 16) hblocks).map decodeZigZag16).map Value.varInt16
      rwa [decodeZigZag16_eq, encodeZigZag16_eq, decodeZigZag_encodeZigZag] at h
  | varUint16 v => exact (decodes_writeVarint (n := 16) hblocks).map Value.varUint16
  | varInt32 v =>
      have h := ((decodes_writeVarint (n := 32) hblocks).map decodeZigZag32).map Value.varInt32
      rwa [decodeZigZag32, encodeZigZag32, decodeZigZag_encodeZigZag] at h
  | varUint32 v => exact (decodes_writeVarint (n := 32) hblocks).map Value.varUint32
  | varInt64 v =>
      have h := ((decodes_writeVarint (n := 64) hblocks).map decodeZigZag64).map Value.varInt64
      rwa [decodeZigZag64, encodeZigZag64, decodeZigZag_encodeZigZag] at h
  | varUint64 v => exact (decodes_writeVarint (n := 64) hblocks).map Value.varUint64
  | float v =>
      obtain rfl := Option.some.inj hblocks
      exact (decodes_readBit (n := 4) v).map Value.float
  | double v =>
      obtain rfl := Option.some.inj hblocks
      exact (decodes_readBit (n := 8) v).map Value.double
  | string str => exact (decodes_readString hv hblocks).map Value.string

theorem writeValues_isSome (order : ByteOrder) (vs : List Value) :
    ∃ blocks, writeValues order vs = some blocks := by
  induction vs with
  | nil => exact ⟨[], rfl⟩
  | cons v vs ih =>
      obtain ⟨blocks, hblocks⟩ := writeValue_isSome order v
      obtain ⟨rest, hrest⟩ := ih
      exact ⟨blocks ++ rest, by simp only [writeValues, hblocks, hrest]⟩

theorem decodes_readValues {vs : List Value} {blocks : List (List Byte)}
    (hvs : ∀ v ∈ vs, v.Encodable) (hblocks : writeValues .littleEndian vs = some blocks) :
    Decodes (readValues .littleEndian · (vs.map Value.kind)) blocks.flatten vs := by
  induction vs generalizing blocks with
  | nil =>
      obtain rfl := Option.some.inj hblocks
      intro pre rest _
      simp [readValues]
  | cons v vs ih =>
      obtain ⟨first, hfirst⟩ := writeValue_isSome .littleEndian v
      obtain ⟨others, hothers⟩ := writeValues_isSome .littleEndian vs
      simp only [writeValues, hfirst, hothers, Option.some.injEq] at hblocks
      subst hblocks
      intro pre rest hfits
      rw [List.flatten_append] at hfits ⊢
      have hread := decodes_readValue (hvs v List.mem_cons_self) hfirst pre
        (others.flatten ++ rest) (by simpa using hfits)
      have hreads := ih (fun v hv => hvs v (List.mem_cons_of_mem _ hv)) hothers
        (pre ++ first.flatten) rest (by simpa using hfits)
      simp only [List.map_cons, readValues, List.append_assoc] at hread hreads ⊢
      simp only [hread, hreads, Option.map_some]

/-- No value is written as nothing, so there is something to build the deserializer on. -/
theorem length_writeValue_pos {order : ByteOrder} {v : Value} {blocks : List (List Byte)}
    (hblocks : writeValue order v = some blocks) : 0 < blocks.flatten.length := by
  have hbit : ∀ {w n : Nat} (v : BitVec w), 0 < n → 0 < (writeBit order n v).flatten.length := by
    intro w n v hn
    cases order <;> simp [writeBit, ByteOrder.store, hn]
  have hvarint : ∀ {w n : Nat} {v : BitVec w} {blocks : List (List Byte)},
      writeVarint n v = some blocks → 0 < blocks.flatten.length := by
    intro w n v blocks h
    obtain ⟨bytes, hbytes, rfl⟩ := Option.map_eq_some_iff.mp h
    rw [List.flatten_singleton]
    exact length_varintBytes_pos hbytes
  cases v with
  | fixed32 v | sFixed32 v | float v =>
      obtain rfl := Option.some.inj hblocks
      exact hbit _ (by decide : 0 < 4)
  | fixed64 v | sFixed64 v | double v =>
      obtain rfl := Option.some.inj hblocks
      exact hbit _ (by decide : 0 < 8)
  | varInt8 v | varUint8 v =>
      obtain rfl := Option.some.inj hblocks
      exact Nat.one_pos
  | varInt16 v | varUint16 v | varInt32 v | varUint32 v | varInt64 v | varUint64 v =>
      exact hvarint hblocks
  | string str =>
      obtain ⟨header, hheader, rfl⟩ := Option.map_eq_some_iff.mp hblocks
      have hpos := hvarint hheader
      split
      · exact hpos
      · rw [List.flatten_append, List.length_append]
        omega

theorem length_writeValues_pos {order : ByteOrder} {vs : List Value} {blocks : List (List Byte)}
    (hne : vs ≠ []) (hblocks : writeValues order vs = some blocks) :
    0 < blocks.flatten.length := by
  obtain ⟨v, vs, rfl⟩ := List.exists_cons_of_ne_nil hne
  obtain ⟨first, hfirst⟩ := writeValue_isSome order v
  obtain ⟨others, hothers⟩ := writeValues_isSome order vs
  have hpos := length_writeValue_pos hfirst
  simp only [writeValues, hfirst, hothers, Option.some.injEq] at hblocks
  subst hblocks
  rw [List.flatten_append, List.length_append]
  omega

/-- **What is written is read back.** The bytes of a sequence of values, read with the matching
readers, give back the values and are consumed to the last one; no assert fails on the way. -/
theorem readValues_writeValues (vs : List Value) (hne : vs ≠ []) (hvs : ∀ v ∈ vs, v.Encodable) :
    ∃ blocks, writeValues .littleEndian vs = some blocks ∧
      (blocks.flatten.length < 2 ^ 32 →
        ∃ s s', Deserializer.new blocks.flatten = some s ∧
          readValues .littleEndian s (vs.map Value.kind) = some (vs, s') ∧
          s'.readed = blocks.flatten.length) := by
  obtain ⟨blocks, hblocks⟩ := writeValues_isSome .littleEndian vs
  refine ⟨blocks, hblocks, fun hlen => ?_⟩
  have hpos : 0 < blocks.flatten.length := length_writeValues_pos hne hblocks
  have hreads := decodes_readValues hvs hblocks [] [] (by simpa using hlen)
  rw [List.append_nil, List.nil_append] at hreads
  refine ⟨.between [] blocks.flatten, _, ?_, hreads, rfl⟩
  rw [Deserializer.new, if_pos hpos]
  rfl

theorem readValues_writeValues_mixed :
    ∃ blocks, writeValues .littleEndian [.varInt32 (-1#32), .string [104#8, 105#8]] = some blocks ∧
      (blocks.flatten.length < 2 ^ 32 →
        ∃ s s', Deserializer.new blocks.flatten = some s ∧
          readValues .littleEndian s [.varInt32, .string]
            = some ([.varInt32 (-1#32), .string [104#8, 105#8]], s') ∧
          s'.readed = blocks.flatten.length) :=
  readValues_writeValues [.varInt32 (-1#32), .string [104#8, 105#8]] (by simp)
    (by simp [Value.Encodable])

end CppUtils
