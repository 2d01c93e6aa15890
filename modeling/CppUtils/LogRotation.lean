import CppUtils.Machine
import Mathlib.Data.Finset.Sort
import Mathlib.Data.List.DropRight
import Mathlib.Data.List.Lex
import Mathlib.Logic.Function.Basic

/-!
# The rotation of the log files

`TarLogFile` of `log/jiaoben.py`, from the unpacked archive on: the files `frontname.log*` are
listed, the list is reversed, and each name is replaced by one whose last character is counted up.
The commands are run by the shell, so a frontname is one word for it, without blanks and wildcards,
and it does not begin with '-', which the commands would take for an option.
-/

namespace CppUtils.LogRotation

abbrev Name := List Byte

/-! ### Directories -/

structure Directory (α : Type) where
  names : Finset Name
  /-- Read at the names of files only. -/
  content : Name → α

namespace Directory

variable {α : Type}

/-- `mv a b`. -/
def mv (dir : Directory α) (a b : Name) : Directory α :=
  if a ∈ dir.names ∧ a ≠ b then
    { names := insert b (dir.names.erase a)
      content := Function.update dir.content b (dir.content a) }
  else dir

/-- `mv a b` replaces a file. -/
def Overwrites (dir : Directory α) (a b : Name) : Prop := a ∈ dir.names ∧ a ≠ b ∧ b ∈ dir.names

instance (dir : Directory α) (a b : Name) : Decidable (dir.Overwrites a b) :=
  inferInstanceAs (Decidable (_ ∧ _))

end Directory

/-! ### The order of `ls` -/

def byteLt (x y : Byte) : Prop := x.toNat < y.toNat

instance : DecidableRel byteLt := fun x y => Nat.decLt x.toNat y.toNat

instance : IsStrictTotalOrder Byte byteLt where
  irrefl x := Nat.lt_irrefl x.toNat
  trans _ _ _ := Nat.lt_trans
  trichotomous x y hxy hyx := by
    apply BitVec.eq_of_toNat_eq
    exact Nat.le_antisymm (Nat.not_lt.mp hyx) (Nat.not_lt.mp hxy)

/-- The lexicographic order of the bytes. -/
def NameLe (a b : Name) : Prop := a = b ∨ List.Lex byteLt a b

instance : DecidableRel NameLe := fun _ _ => inferInstanceAs (Decidable (_ ∨ _))

instance : IsStrictWeakOrder Name (List.Lex byteLt) := isStrictWeakOrder_of_isOrderConnected

instance : IsTrans Name NameLe where
  trans a b c hab hbc := by
    rcases hab with rfl | hab
    · exact hbc
    · rcases hbc with rfl | hbc
      · exact Or.inr hab
      · exact Or.inr (trans_of (List.Lex byteLt) hab hbc)

instance : Std.Antisymm NameLe where
  antisymm a b hab hba := by
    rcases hab with rfl | hab
    · rfl
    · rcases hba with rfl | hba
      · rfl
      · exact absurd hba (asymm_of (List.Lex byteLt) hab)

instance : Std.Total NameLe where
  total a b := by
    rcases trichotomous_of (List.Lex byteLt) a b with hab | rfl | hba
    · exact Or.inl (Or.inr hab)
    · exact Or.inl (Or.inl rfl)
    · exact Or.inr (Or.inr hba)

/-! ### The script -/

/-- Letters, digits and the punctuation that stands for itself in a command. -/
def isPlain (b : Byte) : Bool :=
  (0x30 ≤ b && b ≤ 0x39) || (0x41 ≤ b && b ≤ 0x5a) || (0x61 ≤ b && b ≤ 0x7a) ||
    b ∈ bytes "./_-+,:@%"

structure Frontname where
  name : Name
  plain : ∀ b ∈ name, isPlain b = true

/-- `frontname + ".log"`. -/
def Frontname.log (front : Frontname) : Name := front.name ++ bytes ".log"

/-- `os.popen("ls " + frontname + ".log*").readlines()`, each line with its newline. -/
def Directory.lines {α : Type} (dir : Directory α) (front : Frontname) : List (List Byte) :=
  ((dir.names.filter fun name => front.log <+: name).sort NameLe).map (· ++ bytes "\n")

/-- What `str.strip` removes. -/
def isStripped (b : Byte) : Bool :=
  b = 0x20 || (0x09 ≤ b && b ≤ 0x0d) || (0x1c ≤ b && b ≤ 0x1f)

def strip (line : List Byte) : List Byte := (line.dropWhile isStripped).rdropWhile isStripped

/-- `str(n)`. -/
def str (n : Nat) : List Byte := bytes (toString n)

/-- `int(c)` for a single character. -/
def int (c : Byte) : Option Nat := (bytes "0123456789").idxOf? c

/-- `line[:-1] + str(int(line[-1]) + 1)`. -/
def newname (line : Name) : Option Name := do
  some (line.dropLast ++ str ((← int (← line.getLast?)) + 1))

/-- The body of the loop over the lines, with the names of the files that a `mv` replaced. -/
def rename {α : Type} : List (List Byte) → Directory α → Option (Directory α × List Name)
  | [], dir => some (dir, [])
  | line :: lines, dir => do
      let line := strip line
      let newname ← newname line
      let (dir', replaced) ← rename lines (dir.mv line newname)
      some (dir', if dir.Overwrites line newname then newname :: replaced else replaced)

/-- The rename loop of `TarLogFile`. -/
def renameLogs {α : Type} (front : Frontname) (dir : Directory α) :
    Option (Directory α × List Name) :=
  rename (dir.lines front).reverse dir

end CppUtils.LogRotation
