import Mathlib.Algebra.Group.Int.Defs
import Mathlib.Algebra.Group.Nat.Defs
import Mathlib.Order.Defs.LinearOrder

/-!
# The machine the code runs on

Bytes, and the conversions between the integer types the code mixes: `size_t` and pointers have 64
bits, `int` and `unsigned int` have 32. A quantity the code keeps in a wide type is a natural number
or an integer here, and every store into a narrower type goes through the conversion below.
-/

namespace CppUtils

abbrev Byte := BitVec 8

def bytes (s : String) : List Byte := s.toList.map fun c => BitVec.ofNat 8 c.toNat

/-- The store of a `size_t` into a `uint32_t`. -/
def u32 (n : Nat) : Nat := n % 2 ^ 32

/-- The conversion to `int` of an unsigned quantity, which may be given modulo its type. -/
def toInt (z : Int) : Int := z.bmod (2 ^ 32)

/-- The conversion of an `int` to `uint32`. -/
def toUInt32 (z : Int) : Nat := (z % 2 ^ 32).toNat

/-- The conversion of an `int` to `size_t`. -/
def toSizeT (z : Int) : Nat := (z % 2 ^ 64).toNat

/-- The result of an `int` operation, which fails where the exact value does not fit. -/
def checkInt (z : Int) : Option Int := if -2 ^ 31 ≤ z ∧ z < 2 ^ 31 then some z else none

theorem u32_of_lt {n : Nat} (h : n < 2 ^ 32) : u32 n = n := Nat.mod_eq_of_lt h

theorem toInt_of_mem {z : Int} (hlow : -2 ^ 31 ≤ z) (hhigh : z < 2 ^ 31) : toInt z = z := by
  unfold toInt
  rw [Int.bmod_eq_of_le] <;> omega

theorem checkInt_of_mem {z : Int} (hlow : -2 ^ 31 ≤ z) (hhigh : z < 2 ^ 31) :
    checkInt z = some z :=
  if_pos ⟨hlow, hhigh⟩

theorem toUInt32_of_lt {n : Nat} (h : n < 2 ^ 32) : toUInt32 n = n := by
  unfold toUInt32
  omega

theorem toSizeT_of_lt {n : Nat} (h : n < 2 ^ 64) : toSizeT n = n := by
  unfold toSizeT
  omega

end CppUtils
