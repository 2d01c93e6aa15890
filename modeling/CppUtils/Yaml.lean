import CppUtils.Machine

/-!
# YAML documents

The tree that `YAML::Node` refers to, and the two functions between trees and text. The keys of a
map are scalars here, so a key is its text.
-/

namespace CppUtils

/-- A `std::string`. -/
abbrev Str := List Byte

inductive Node where
  | null
  | scalar (value : Str)
  | sequence (items : List Node)
  | map (entries : List (Str × Node))

/-- `YAML::Load`, which may throw, and the text that `<<` writes. -/
structure Yaml where
  load : Str → Option Node
  emit : Node → Str

end CppUtils
