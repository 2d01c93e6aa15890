import CppUtils.Machine

/-!
# `Serialize` as a deserializer

The bytes to be read sit in one malloc'ed buffer, with their number and the number already read
beside it. A failed `assert` ends the program; it is the result `none` below. As with the serializer
`_type` is not modelled.
-/

namespace CppUtils

structure Deserializer where
  buf : Option (List Byte)
  len : Nat
  readed : Nat

namespace Deserializer

/-- `assert(t == DESERIALIZER && bytearray.size() > 0)`. -/
def new (bytearray : List Byte) : Option Deserializer :=
  if bytearray.length > 0 then
    some { buf := some bytearray, len := bytearray.length, readed := 0 }
  else
    none

def reset (s : Deserializer) : Deserializer :=
  match s.buf with
  | some _ => { buf := none, len := 0, readed := 0 }
  | none => s

def resetWith (s : Deserializer) (bytearray : List Byte) : Deserializer :=
  { s.reset with buf := some bytearray, len := bytearray.length }

/-- The sum in the assert is a `size_t`, `_readed` is a `uint32_t`. A read past the end of the
buffer that the assert lets through is outside the C++ memory model, and fails here too. -/
def read (s : Deserializer) (len : Nat) : Option (List Byte × Deserializer) :=
  if (len + s.readed) % 2 ^ 64 ≤ s.len then
    match s.buf with
    | some bytes =>
        if s.readed + len ≤ bytes.length then
          some ((bytes.drop s.readed).take len, { s with readed := u32 (s.readed + len) })
        else
          none
    | none => none
  else
    none

/-- `uint8_t b; read(&b, 1);` -/
def readByte (s : Deserializer) : Option (Byte × Deserializer) :=
  match s.read 1 with
  | some ([b], s) => some (b, s)
  | _ => none

end Deserializer

end CppUtils
