import CppUtils.Proof.CodecRoundTrip

/-!
# Fixed-width values on hosts of either byte order

`writeBit32` and `writeBit64` put the high byte first on every host. `readBit32` and `readBit64`
swap the bytes they have loaded on every host, which is right on a little-endian one and turns the
pattern around on a big-endian one.
-/

namespace CppUtils

open BitBytes

theorem bswap_eq_iff {n : Nat} (v : BitVec (8 * n)) :
    bswap n v = v ↔ (bytesBE n v).reverse = bytesBE n v := by
  have hback : (bytesBE n v).reverse = bytesLE n v := List.reverse_reverse _
  rw [hback]
  constructor
  · intro h
    rw [← bytesLE_bswap, h]
  · intro h
    rw [bswap, ← bytesBE, ← h, ofBytesLE_bytesLE le_rfl]

theorem readBit_bytesBE {n : Nat} (order : ByteOrder) {v : BitVec (8 * n)} {s t : Deserializer}
    (hread : s.read n = some (bytesBE n v, t)) :
    readBit order n s = some (match order with
      | .littleEndian => v
      | .bigEndian => bswap n v, t) := by
  rw [readBit, hread, Option.map_some]
  cases order with
  | littleEndian =>
      simp only [ByteOrder.load]
      rw [← bytesLE_bswap, ofBytesLE_bytesLE le_rfl, bswap_bswap]
  | bigEndian =>
      simp only [ByteOrder.load, bytesBE, List.reverse_reverse]
      rw [ofBytesLE_bytesLE le_rfl]

theorem readBit_eq_iff {n : Nat} {order : ByteOrder} {v : BitVec (8 * n)} {s t : Deserializer}
    (hread : s.read n = some (bytesBE n v, t)) :
    readBit order n s = some (v, t) ↔
      order = .littleEndian ∨ (bytesBE n v).reverse = bytesBE n v := by
  rw [readBit_bytesBE order hread, Option.some.injEq, Prod.mk.injEq, and_iff_left rfl]
  cases order with
  | littleEndian => simp
  | bigEndian => simp [bswap_eq_iff]

theorem readBit_map_eq_iff {α : Type} {n : Nat} (order : ByteOrder) {v : BitVec (8 * n)}
    {s t : Deserializer} {g : BitVec (8 * n) → α} (hg : Function.Injective g)
    (hread : s.read n = some (bytesBE n v, t)) :
    ((readBit order n s).map fun r => (g r.1, r.2)) = some (g v, t) ↔
      order = .littleEndian ∨ (bytesBE n v).reverse = bytesBE n v := by
  rw [← readBit_eq_iff hread, Option.map_eq_some_iff]
  constructor
  · rintro ⟨r, hr, heq⟩
    obtain ⟨hvalue, hend⟩ := Prod.mk.inj heq
    rw [hr, ← hg hvalue, ← hend]
  · intro h
    exact ⟨(v, t), h, rfl⟩

/-- The bytes that stand for a `Fixed`, `SFixed`, `Float` or `Double`, high byte first. -/
def Value.fixedBytes : Value → Option (List Byte)
  | .fixed32 v => some (bytesBE 4 v)
  | .fixed64 v => some (bytesBE 8 v)
  | .sFixed32 v => some (bytesBE 4 (encodeZigZag32 v))
  | .sFixed64 v => some (bytesBE 8 (encodeZigZag64 v))
  | .float v => some (bytesBE 4 v)
  | .double v => some (bytesBE 8 v)
  | _ => none

theorem writeValue_of_fixedBytes {v : Value} {bytes : List Byte} (hv : v.fixedBytes = some bytes)
    (order : ByteOrder) : writeValue order v = some [bytes] := by
  cases v with
  | fixed32 v | sFixed32 v | float v =>
      obtain rfl := Option.some.inj hv
      exact congrArg some (writeBit_eq (n := 4) order _)
  | fixed64 v | sFixed64 v | double v =>
      obtain rfl := Option.some.inj hv
      exact congrArg some (writeBit_eq (n := 8) order _)
  | varInt8 v | varUint8 v | varInt16 v | varUint16 v | varInt32 v | varUint32 v | varInt64 v
  | varUint64 v | string v => cases hv

theorem injective_decodeZigZag {w : Nat} :
    Function.Injective (decodeZigZag : BitVec w → BitVec w) :=
  Function.LeftInverse.injective encodeZigZag_decodeZigZag

theorem readValue_of_fixedBytes {v : Value} {bytes : List Byte} (hv : v.fixedBytes = some bytes)
    {order : ByteOrder} {s t : Deserializer} (hread : s.read bytes.length = some (bytes, t)) :
    readValue order s v.kind = some (v, t) ↔ order = .littleEndian ∨ bytes.reverse = bytes := by
  cases v with
  | fixed32 v =>
      obtain rfl := Option.some.inj hv
      rw [length_bytesBE] at hread
      exact readBit_map_eq_iff order (n := 4) (g := Value.fixed32) (fun _ _ h => Value.fixed32.inj h)
        hread
  | fixed64 v =>
      obtain rfl := Option.some.inj hv
      rw [length_bytesBE] at hread
      exact readBit_map_eq_iff order (n := 8) (g := Value.fixed64) (fun _ _ h => Value.fixed64.inj h)
        hread
  | sFixed32 v =>
      obtain rfl := Option.some.inj hv
      rw [length_bytesBE] at hread
      have hmap : readValue order s .sFixed32 =
          (readBit order 4 s).map fun r => (Value.sFixed32 (decodeZigZag32 r.1), r.2) := by
        simp only [readValue, readSFixed32, readFixed32, Option.map_map]
        rfl
      have h := readBit_map_eq_iff order (n := 4)
        (g := fun u => Value.sFixed32 (decodeZigZag32 u))
        (fun _ _ h => injective_decodeZigZag (Value.sFixed32.inj h)) hread
      rwa [decodeZigZag32, encodeZigZag32, decodeZigZag_encodeZigZag, ← hmap] at h
  | sFixed64 v =>
      obtain rfl := Option.some.inj hv
      rw [length_bytesBE] at hread
      have hmap : readValue order s .sFixed64 =
          (readBit order 8 s).map fun r => (Value.sFixed64 (decodeZigZag64 r.1), r.2) := by
        simp only [readValue, readSFixed64, readFixed64, Option.map_map]
        rfl
      have h := readBit_map_eq_iff order (n := 8)
        (g := fun u => Value.sFixed64 (decodeZigZag64 u))
        (fun _ _ h => injective_decodeZigZag (Value.sFixed64.inj h)) hread
      rwa [decodeZigZag64, encodeZigZag64, decodeZigZag_encodeZigZag, ← hmap] at h
  | float v =>
      obtain rfl := Option.some.inj hv
      rw [length_bytesBE] at hread
      exact readBit_map_eq_iff order (n := 4) (g := Value.float) (fun _ _ h => Value.float.inj h) hread
  | double v =>
      obtain rfl := Option.some.inj hv
      rw [length_bytesBE] at hread
      exact readBit_map_eq_iff order (n := 8) (g := Value.double) (fun _ _ h => Value.double.inj h) hread
  | varInt8 v | varUint8 v | varInt16 v | varUint16 v | varInt32 v | varUint32 v | varInt64 v
  | varUint64 v | string v => cases hv

/-- **Byte order.** On every host the bytes written are those of the pattern, high byte first. They
are read back on a little-endian host, and on a big-endian one exactly if they read the same
backwards. -/
theorem byteOrder_iff (order : ByteOrder) :
    (∀ (n : Nat) (v : BitVec (8 * n)), writeBit order n v = [bytesBE n v] ∧
      ∀ s t, s.read n = some (bytesBE n v, t) →
        (readBit order n s = some (v, t) ↔
          order = .littleEndian ∨ (bytesBE n v).reverse = bytesBE n v)) ∧
    ∀ (v : Value) (bytes : List Byte), v.fixedBytes = some bytes →
      writeValue order v = some [bytes] ∧
      ∀ s t, s.read bytes.length = some (bytes, t) →
        (readValue order s v.kind = some (v, t) ↔
          order = .littleEndian ∨ bytes.reverse = bytes) :=
  ⟨fun _ v => ⟨writeBit_eq order v, fun _ _ hread => readBit_eq_iff hread⟩,
    fun _ _ hv => ⟨writeValue_of_fixedBytes hv order,
      fun _ _ hread => readValue_of_fixedBytes hv hread⟩⟩

/-- The `float` 1, written on a big-endian host and read on a little-endian one. -/
theorem byteOrder_iff_one :
    let bytes : List Byte := [0x3f#8, 0x80#8, 0#8, 0#8]
    let s : Deserializer := ⟨some bytes, 4, 0⟩
    let t : Deserializer := ⟨some bytes, 4, 4⟩
    Deserializer.new bytes = some s ∧
      writeValue .bigEndian (.float 0x3f800000#32) = some [bytes] ∧
      readBit .littleEndian 4 s = some (0x3f800000#32, t) ∧
      readValue .littleEndian s .float = some (.float 0x3f800000#32, t) ∧
      readValue .bigEndian s .float ≠ some (.float 0x3f800000#32, t) := by
  intro bytes s t
  have hbytes : bytesBE 4 0x3f800000#32 = bytes := by decide
  have hfixed : (Value.float 0x3f800000#32).fixedBytes = some bytes := congrArg some hbytes
  have hread : s.read 4 = some (bytes, t) := rfl
  obtain ⟨hbit, hvalue⟩ := byteOrder_iff .littleEndian
  obtain ⟨-, hvalue'⟩ := byteOrder_iff .bigEndian
  refine ⟨rfl, (hvalue' _ _ hfixed).1, ?_, ?_, ?_⟩
  · exact ((hbit 4 0x3f800000#32).2 s t (by rw [hbytes, hread])).mpr (.inl rfl)
  · exact ((hvalue _ _ hfixed).2 s t hread).mpr (.inl rfl)
  · exact fun h => absurd (((hvalue' _ _ hfixed).2 s t hread).mp h) (by decide)

/-- On a big-endian host 1 is read back as 2^24. -/
theorem not_byteOrder :
    ¬ ∀ (order : ByteOrder) (v : BitVec 32) (s t : Deserializer),
      s.read 4 = some (bytesBE 4 v, t) → readFixed32 order s = some (v, t) := by
  intro hreads
  have hone := hreads .bigEndian 1#32 ⟨some [0#8, 0#8, 0#8, 1#8], 4, 0⟩ _ rfl
  exact absurd (congrArg (Option.map Prod.fst) hone) (by decide)

end CppUtils
