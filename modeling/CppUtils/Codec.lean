import CppUtils.Deserializer
import CppUtils.Lib.BitBytes

/-!
# The typed values of `Serialize`

A `writeX` hands blocks of bytes to `write`, and is modelled by the list of these blocks; a `readX`
is a function of the deserializer. Signed and unsigned values are bit vectors of their width, a
`float` or a `double` is its bit pattern, and integer negation wraps around.
-/

namespace CppUtils

open BitBytes

/-- How the host lays out an integer in memory. -/
inductive ByteOrder where
  | littleEndian
  | bigEndian
deriving DecidableEq

namespace ByteOrder

variable {w : Nat}

def store (order : ByteOrder) (n : Nat) (v : BitVec w) : List Byte :=
  match order with
  | littleEndian => bytesLE n v
  | bigEndian => (bytesLE n v).reverse

def load (order : ByteOrder) (bytes : List Byte) : BitVec w :=
  match order with
  | littleEndian => ofBytesLE w bytes
  | bigEndian => ofBytesLE w bytes.reverse

/-- `unsigned short a = 0x1234`, and a look at its first byte. -/
def isLittleEndian (order : ByteOrder) : Bool :=
  (order.store 2 0x1234#16).head? != some 0x12#8

end ByteOrder

/-- `bswap_32` and `bswap_64`, at 4 and 8 bytes. -/
def bswap {w : Nat} (n : Nat) (v : BitVec w) : BitVec w := ofBytesLE w (bytesLE n v).reverse

/-! ### Zigzag -/

/-- The arithmetic of `encodeZigZag32` and `encodeZigZag64`, at the width of their type. -/
def encodeZigZag {w : Nat} (value : BitVec w) : BitVec w :=
  if value.slt 0#w then -value * 2#w - 1#w else 2#w * value

/-- `value` is promoted to `int`, and so are the `uint16_t` operands. -/
def encodeZigZag16 (value : BitVec 16) : BitVec 16 :=
  let value : BitVec 32 := value.signExtend 32
  let result : BitVec 32 :=
    if value.slt 0#32 then ((-value).setWidth 16).setWidth 32 * 2#32 - 1#32
    else 2#32 * (value.setWidth 16).setWidth 32
  result.setWidth 16

def encodeZigZag32 (value : BitVec 32) : BitVec 32 := encodeZigZag value

def encodeZigZag64 (value : BitVec 64) : BitVec 64 := encodeZigZag value

/-- The arithmetic of `decodeZigZag32` and `decodeZigZag64`. -/
def decodeZigZag {w : Nat} (value : BitVec w) : BitVec w := (value >>> 1) ^^^ -(value &&& 1#w)

def decodeZigZag16 (value : BitVec 16) : BitVec 16 :=
  let value : BitVec 32 := value.setWidth 32
  ((value >>> 1) ^^^ -(value &&& 1#32)).setWidth 16

def decodeZigZag32 (value : BitVec 32) : BitVec 32 := decodeZigZag value

def decodeZigZag64 (value : BitVec 64) : BitVec 64 := decodeZigZag value

/-! ### Zigzag without overflow

The same arithmetic, where an operation on signed operands fails if its exact value does not fit.
-/

def checkedNeg {w : Nat} (x : BitVec w) : Option (BitVec w) :=
  if x.negOverflow then none else some (-x)

def checkedMul {w : Nat} (x y : BitVec w) : Option (BitVec w) :=
  if x.smulOverflow y then none else some (x * y)

def checkedSub {w : Nat} (x y : BitVec w) : Option (BitVec w) :=
  if x.ssubOverflow y then none else some (x - y)

/-- Only the negation is signed. -/
def checkedEncodeZigZag {w : Nat} (value : BitVec w) : Option (BitVec w) :=
  if value.slt 0#w then (checkedNeg value).map fun negated => negated * 2#w - 1#w
  else some (2#w * value)

def checkedEncodeZigZag16 (value : BitVec 16) : Option (BitVec 16) := do
  let value : BitVec 32 := value.signExtend 32
  let result : BitVec 32 ←
    if value.slt 0#32 then do
      let negated ← checkedNeg value
      let doubled ← checkedMul ((negated.setWidth 16).setWidth 32) 2#32
      checkedSub doubled 1#32
    else checkedMul 2#32 ((value.setWidth 16).setWidth 32)
  some (result.setWidth 16)

def checkedEncodeZigZag32 (value : BitVec 32) : Option (BitVec 32) := checkedEncodeZigZag value

def checkedEncodeZigZag64 (value : BitVec 64) : Option (BitVec 64) := checkedEncodeZigZag value

/-- Here `value` is an `int`. -/
def checkedDecodeZigZag16 (value : BitVec 16) : Option (BitVec 16) := do
  let value : BitVec 32 := value.setWidth 32
  let sign ← checkedNeg (value &&& 1#32)
  some (((value >>> 1) ^^^ sign).setWidth 16)

/-- All operands are unsigned. -/
def checkedDecodeZigZag32 (value : BitVec 32) : Option (BitVec 32) := some (decodeZigZag value)

def checkedDecodeZigZag64 (value : BitVec 64) : Option (BitVec 64) := some (decodeZigZag value)

/-! ### Writing -/

/-- `writeBit32` and `writeBit64`, at 4 and 8 bytes. -/
def writeBit {w : Nat} (order : ByteOrder) (n : Nat) (v : BitVec w) : List (List Byte) :=
  [order.store n (if order.isLittleEndian then bswap n v else v)]

def writeFixed32 (order : ByteOrder) (value : BitVec 32) : List (List Byte) :=
  writeBit order 4 value

def writeFixed64 (order : ByteOrder) (value : BitVec 64) : List (List Byte) :=
  writeBit order 8 value

def writeSFixed32 (order : ByteOrder) (value : BitVec 32) : List (List Byte) :=
  writeFixed32 order (encodeZigZag32 value)

def writeSFixed64 (order : ByteOrder) (value : BitVec 64) : List (List Byte) :=
  writeFixed64 order (encodeZigZag64 value)

def writeFloat (order : ByteOrder) (value : BitVec 32) : List (List Byte) := writeBit order 4 value

def writeDouble (order : ByteOrder) (value : BitVec 64) : List (List Byte) := writeBit order 8 value

def writeVarInt8 (value : BitVec 8) : List (List Byte) := [[value]]

def writeVarUint8 (value : BitVec 8) : List (List Byte) := [[value]]

/-- The loop of `XX(n)` with this much room left in `tmp`; storing past the array fails. -/
def varintBytes {w : Nat} : Nat → BitVec w → Option (List Byte)
  | 0, _ => none
  | room + 1, value =>
      if 0x80 ≤ value.toNat then
        (varintBytes room (value >>> 7)).map ((value.setWidth 8 ||| 0x80#8) :: ·)
      else
        some [value.setWidth 8]

/-- `XX(n)` of the writers. -/
def writeVarint {w : Nat} (n : Nat) (value : BitVec w) : Option (List (List Byte)) :=
  (varintBytes n value).map ([·])

def writeVarUint16 (value : BitVec 16) : Option (List (List Byte)) := writeVarint 3 value

def writeVarUint32 (value : BitVec 32) : Option (List (List Byte)) := writeVarint 5 value

def writeVarUint64 (value : BitVec 64) : Option (List (List Byte)) := writeVarint 10 value

def writeVarInt16 (value : BitVec 16) : Option (List (List Byte)) :=
  writeVarUint16 (encodeZigZag16 value)

def writeVarInt32 (value : BitVec 32) : Option (List (List Byte)) :=
  writeVarUint32 (encodeZigZag32 value)

def writeVarInt64 (value : BitVec 64) : Option (List (List Byte)) :=
  writeVarUint64 (encodeZigZag64 value)

def writeString (str : List Byte) : Option (List (List Byte)) :=
  let len := BitVec.ofNat 32 str.length
  (writeVarUint32 len).map fun blocks =>
    if len = 0#32 then blocks else blocks ++ [str.take len.toNat]

/-! ### Reading -/

/-- `readBit32` and `readBit64`, at 4 and 8 bytes. The condition `if (isLittleEndian)` is the
address of a function, which is never null, and not a call of it: the bytes are always swapped. -/
def readBit {w : Nat} (order : ByteOrder) (n : Nat) (s : Deserializer) :
    Option (BitVec w × Deserializer) :=
  (s.read n).map fun (bytes, s) => (bswap n (order.load bytes), s)

def readFixed32 (order : ByteOrder) (s : Deserializer) : Option (BitVec 32 × Deserializer) :=
  readBit order 4 s

def readFixed64 (order : ByteOrder) (s : Deserializer) : Option (BitVec 64 × Deserializer) :=
  readBit order 8 s

def readSFixed32 (order : ByteOrder) (s : Deserializer) : Option (BitVec 32 × Deserializer) :=
  (readFixed32 order s).map fun (value, s) => (decodeZigZag32 value, s)

def readSFixed64 (order : ByteOrder) (s : Deserializer) : Option (BitVec 64 × Deserializer) :=
  (readFixed64 order s).map fun (value, s) => (decodeZigZag64 value, s)

def readFloat (order : ByteOrder) (s : Deserializer) : Option (BitVec 32 × Deserializer) :=
  readBit order 4 s

def readDouble (order : ByteOrder) (s : Deserializer) : Option (BitVec 64 × Deserializer) :=
  readBit order 8 s

def readVarInt8 (s : Deserializer) : Option (BitVec 8 × Deserializer) := s.readByte

def readVarUint8 (s : Deserializer) : Option (BitVec 8 × Deserializer) := s.readByte

/-- The loop of `XX(n)` over the shifts still to come. The promotion of a 16-bit operand to `int` is
not visible, since the result is stored back into 16 bits. -/
def readVarintFrom {w : Nat} : List Nat → BitVec w → Deserializer →
    Option (BitVec w × Deserializer)
  | [], ret, s => some (ret, s)
  | i :: shifts, ret, s =>
      match s.readByte with
      | none => none
      | some (b, s) =>
          if b.toNat < 0x80 then some (ret ||| (b.setWidth w <<< i), s)
          else readVarintFrom shifts (ret ||| ((b &&& 0x7f#8).setWidth w <<< i)) s

/-- The values of `i` in `for (int i = 0; i < n; i += 7)`. -/
def varintShifts (n : Nat) : List Nat := List.range' 0 ((n + 6) / 7) 7

/-- `XX(n)` of the readers. -/
def readVarint (n : Nat) (s : Deserializer) : Option (BitVec n × Deserializer) :=
  readVarintFrom (varintShifts n) 0#n s

def readVarUint16 (s : Deserializer) : Option (BitVec 16 × Deserializer) := readVarint 16 s

def readVarUint32 (s : Deserializer) : Option (BitVec 32 × Deserializer) := readVarint 32 s

def readVarUint64 (s : Deserializer) : Option (BitVec 64 × Deserializer) := readVarint 64 s

def readVarInt16 (s : Deserializer) : Option (BitVec 16 × Deserializer) :=
  (readVarUint16 s).map fun (value, s) => (decodeZigZag16 value, s)

def readVarInt32 (s : Deserializer) : Option (BitVec 32 × Deserializer) :=
  (readVarUint32 s).map fun (value, s) => (decodeZigZag32 value, s)

def readVarInt64 (s : Deserializer) : Option (BitVec 64 × Deserializer) :=
  (readVarUint64 s).map fun (value, s) => (decodeZigZag64 value, s)

def readString (s : Deserializer) : Option (List Byte × Deserializer) :=
  match readVarUint32 s with
  | none => none
  | some (len, s) => if len = 0#32 then some ([], s) else s.read len.toNat

/-! ### Values of any type -/

inductive Kind where
  | fixed32 | fixed64 | sFixed32 | sFixed64
  | varInt8 | varUint8 | varInt16 | varUint16 | varInt32 | varUint32 | varInt64 | varUint64
  | float | double
  | string

inductive Value where
  | fixed32 (v : BitVec 32) | fixed64 (v : BitVec 64)
  | sFixed32 (v : BitVec 32) | sFixed64 (v : BitVec 64)
  | varInt8 (v : BitVec 8) | varUint8 (v : BitVec 8)
  | varInt16 (v : BitVec 16) | varUint16 (v : BitVec 16)
  | varInt32 (v : BitVec 32) | varUint32 (v : BitVec 32)
  | varInt64 (v : BitVec 64) | varUint64 (v : BitVec 64)
  | float (bits : BitVec 32) | double (bits : BitVec 64)
  | string (str : List Byte)

def Value.kind : Value → Kind
  | fixed32 _ => .fixed32
  | fixed64 _ => .fixed64
  | sFixed32 _ => .sFixed32
  | sFixed64 _ => .sFixed64
  | varInt8 _ => .varInt8
  | varUint8 _ => .varUint8
  | varInt16 _ => .varInt16
  | varUint16 _ => .varUint16
  | varInt32 _ => .varInt32
  | varUint32 _ => .varUint32
  | varInt64 _ => .varInt64
  | varUint64 _ => .varUint64
  | float _ => .float
  | double _ => .double
  | string _ => .string

/-- The `writeX` of a value. -/
def writeValue (order : ByteOrder) : Value → Option (List (List Byte))
  | .fixed32 v => some (writeFixed32 order v)
  | .fixed64 v => some (writeFixed64 order v)
  | .sFixed32 v => some (writeSFixed32 order v)
  | .sFixed64 v => some (writeSFixed64 order v)
  | .varInt8 v => some (writeVarInt8 v)
  | .varUint8 v => some (writeVarUint8 v)
  | .varInt16 v => writeVarInt16 v
  | .varUint16 v => writeVarUint16 v
  | .varInt32 v => writeVarInt32 v
  | .varUint32 v => writeVarUint32 v
  | .varInt64 v => writeVarInt64 v
  | .varUint64 v => writeVarUint64 v
  | .float v => some (writeFloat order v)
  | .double v => some (writeDouble order v)
  | .string v => writeString v

/-- The `readX` of a kind. -/
def readValue (order : ByteOrder) (s : Deserializer) : Kind → Option (Value × Deserializer)
  | .fixed32 => (readFixed32 order s).map fun (v, s) => (.fixed32 v, s)
  | .fixed64 => (readFixed64 order s).map fun (v, s) => (.fixed64 v, s)
  | .sFixed32 => (readSFixed32 order s).map fun (v, s) => (.sFixed32 v, s)
  | .sFixed64 => (readSFixed64 order s).map fun (v, s) => (.sFixed64 v, s)
  | .varInt8 => (readVarInt8 s).map fun (v, s) => (.varInt8 v, s)
  | .varUint8 => (readVarUint8 s).map fun (v, s) => (.varUint8 v, s)
  | .varInt16 => (readVarInt16 s).map fun (v, s) => (.varInt16 v, s)
  | .varUint16 => (readVarUint16 s).map fun (v, s) => (.varUint16 v, s)
  | .varInt32 => (readVarInt32 s).map fun (v, s) => (.varInt32 v, s)
  | .varUint32 => (readVarUint32 s).map fun (v, s) => (.varUint32 v, s)
  | .varInt64 => (readVarInt64 s).map fun (v, s) => (.varInt64 v, s)
  | .varUint64 => (readVarUint64 s).map fun (v, s) => (.varUint64 v, s)
  | .float => (readFloat order s).map fun (v, s) => (.float v, s)
  | .double => (readDouble order s).map fun (v, s) => (.double v, s)
  | .string => (readString s).map fun (v, s) => (.string v, s)

/-- The blocks of a sequence of values, in order. -/
def writeValues (order : ByteOrder) : List Value → Option (List (List Byte))
  | [] => some []
  | v :: vs =>
      match writeValue order v, writeValues order vs with
      | some blocks, some rest => some (blocks ++ rest)
      | _, _ => none

def readValues (order : ByteOrder) : Deserializer → List Kind → Option (List Value × Deserializer)
  | s, [] => some ([], s)
  | s, k :: ks =>
      match readValue order s k with
      | none => none
      | some (v, s) => (readValues order s ks).map fun (vs, s) => (v :: vs, s)

end CppUtils
