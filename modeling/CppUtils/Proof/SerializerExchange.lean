import CppUtils.Proof.CodecStreams
import CppUtils.Proof.SerializerCursor

/-!
# Messages from one object to another

A serializer writes typed values, a deserializer is built on its `toString` and reads as many of the
same kinds. The values arrive where the blocks they are written as stay clear of the cursor that a
full node leaves behind. That is always so while the message fits one node.
-/

namespace CppUtils

namespace Serialize

/-- As in `Person::serializeToString`, for any values. -/
def serializeToString (order : ByteOrder) (baseSize : Nat) (vs : List Value) :
    Option (List Byte) :=
  (writeValues order vs).bind (Serializer.collect baseSize)

/-- As in `Person::deserializeToPerson`. -/
def deserialize (order : ByteOrder) (ks : List Kind) (str : List Byte) : Option (List Value) := do
  let de ← Deserializer.new str
  let (vs, _) ← readValues order de ks
  some vs

open Serializer

variable {baseSize : Nat} {vs : List Value} {blocks : List (List Byte)}

theorem serializeToString_of_cursorValid (hpos : 0 < baseSize) (hbase : baseSize < 2 ^ 32)
    (hblocks : writeValues .littleEndian vs = some blocks) (htotal : blocks.flatten.length < 2 ^ 32)
    (hvalid : CursorValid baseSize blocks) :
    serializeToString .littleEndian baseSize vs = some blocks.flatten := by
  rw [serializeToString, hblocks, Option.bind_some, collect_of_cursorValid hpos hbase htotal hvalid]

theorem serializeToString_eq_none (hpos : 0 < baseSize) (hbase : baseSize < 2 ^ 32)
    (hblocks : writeValues .littleEndian vs = some blocks) (htotal : blocks.flatten.length < 2 ^ 32)
    (hinvalid : ¬ CursorValid baseSize blocks) :
    serializeToString .littleEndian baseSize vs = none := by
  rw [serializeToString, hblocks, Option.bind_some,
    collect_of_not_cursorValid hpos hbase htotal hinvalid]

theorem deserialize_flatten (hne : vs ≠ []) (hvs : ∀ v ∈ vs, v.Encodable)
    (hblocks : writeValues .littleEndian vs = some blocks)
    (htotal : blocks.flatten.length < 2 ^ 32) :
    deserialize .littleEndian (vs.map Value.kind) blocks.flatten = some vs := by
  have hnew : Deserializer.new blocks.flatten = some (.between [] blocks.flatten) :=
    if_pos (length_writeValues_pos hne hblocks)
  have hread := (decodes_readValues hvs hblocks).at_front htotal
  simp only [deserialize, hnew, hread, Option.bind_eq_bind, Option.bind_some]

/-- **When a message arrives.** The values are read back exactly if every non-empty block of their
encoding starts where the cursor of the serializer is right, and so whenever the message fits into
the first node. -/
theorem exchange_iff (hpos : 0 < baseSize) (hbase : baseSize < 2 ^ 32) (hne : vs ≠ [])
    (hvs : ∀ v ∈ vs, v.Encodable) (hblocks : writeValues .littleEndian vs = some blocks)
    (htotal : blocks.flatten.length < 2 ^ 32) :
    ((serializeToString .littleEndian baseSize vs).bind
        (deserialize .littleEndian (vs.map Value.kind)) = some vs ↔
      CursorValid baseSize blocks) ∧
    (blocks.flatten.length ≤ baseSize →
      (serializeToString .littleEndian baseSize vs).bind
        (deserialize .littleEndian (vs.map Value.kind)) = some vs) := by
  have harrives : CursorValid baseSize blocks →
      (serializeToString .littleEndian baseSize vs).bind
        (deserialize .littleEndian (vs.map Value.kind)) = some vs := by
    intro hvalid
    rw [serializeToString_of_cursorValid hpos hbase hblocks htotal hvalid, Option.bind_some]
    exact deserialize_flatten hne hvs hblocks htotal
  refine ⟨⟨fun hread => ?_, harrives⟩, fun hle => harrives (cursorValid_of_le hle)⟩
  by_contra hinvalid
  rw [serializeToString_eq_none hpos hbase hblocks htotal hinvalid] at hread
  cases hread

/-- A string and a number, in nodes of eight bytes. -/
theorem exchange_of_two : (serializeToString .littleEndian 8
    [.string [0x61#8, 0x62#8], .varUint32 300#32]).bind
      (deserialize .littleEndian [.string, .varUint32]) =
        some [.string [0x61#8, 0x62#8], .varUint32 300#32] := by
  have hvs : ∀ v ∈ [Value.string [0x61#8, 0x62#8], .varUint32 300#32], v.Encodable := by decide
  have hblocks : writeValues .littleEndian [.string [0x61#8, 0x62#8], .varUint32 300#32] =
      some [[2#8], [0x61#8, 0x62#8], [0xac#8, 2#8]] := rfl
  exact (exchange_iff (by decide) (by decide) (by simp) hvs hblocks (by decide)).2 (by decide)

end Serialize

end CppUtils
