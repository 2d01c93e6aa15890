import CppUtils.Codec
import CppUtils.Serializer
import Mathlib.Logic.Function.Basic

/-!
# Serialized data in files

`Serialize::toFile` and `Serialize::fromFile`, and the `Person` of `serialize/example.hpp`. Of the
file system the model has the contents of the files and which paths an `ofstream` and an `ifstream`
can open.
-/

namespace CppUtils

structure FileSystem (Path : Type) where
  contents : Path → Option (List Byte)
  /-- `std::ofstream of(path)` does not fail. -/
  writable : Path → Bool
  /-- `std::ifstream infile(path)` does not fail if there is such a file. -/
  readable : Path → Bool

/-- `std::isspace` in the "C" locale. -/
def isSpace (b : Byte) : Bool := b = 0x20 || (0x09 ≤ b && b ≤ 0x0d)

/-- `infile >> ret` for a `std::string`. -/
def extract (bytes : List Byte) : List Byte :=
  (bytes.dropWhile isSpace).takeWhile fun b => !isSpace b

namespace Serialize

variable {Path : Type} [DecidableEq Path]

def toFile (files : FileSystem Path) (filepath : Path) (str : List Byte) :
    Bool × FileSystem Path :=
  if files.writable filepath then
    (true, { files with contents := Function.update files.contents filepath (some str) })
  else
    (false, files)

def fromFile (files : FileSystem Path) (filepath : Path) : List Byte :=
  match files.contents filepath with
  | some bytes => if files.readable filepath then extract bytes else []
  | none => []

/-- The default `base_size`. -/
def defaultBaseSize : Nat := 4096

end Serialize

/-! ### Persons -/

structure Person where
  name : List Byte
  sex : List Byte
  age : BitVec 8
  property : BitVec 32
deriving DecidableEq

namespace Person

/-- What the four calls of `serializeToString` hand to `write`. -/
def blocks (p : Person) : Option (List (List Byte)) := do
  let name ← writeString p.name
  let sex ← writeString p.sex
  let property ← writeVarUint32 p.property
  some (name ++ sex ++ writeVarUint8 p.age ++ property)

def serializeToString (p : Person) : Option (List Byte) :=
  p.blocks.bind (Serializer.collect Serialize.defaultBaseSize)

def deserializeToPerson (str : List Byte) : Option Person := do
  let de ← Deserializer.new str
  let (name, de) ← readString de
  let (sex, de) ← readString de
  let (age, de) ← readVarUint8 de
  let (property, _) ← readVarUint32 de
  some { name, sex, age, property }

variable {Path : Type} [DecidableEq Path]

def serializeToFile (p : Person) (files : FileSystem Path) (filepath : Path) :
    Option (Bool × FileSystem Path) :=
  p.serializeToString.map (Serialize.toFile files filepath)

def deserializeFromFile (files : FileSystem Path) (filepath : Path) : Option Person :=
  deserializeToPerson (Serialize.fromFile files filepath)

end Person

end CppUtils
