import Mathlib.Data.List.Basic

/-!
# A memory of cells

An address is the index of a cell. Allocation never gives an address out twice and a deleted cell
stays behind as `none`, so an access through a dangling pointer is a read of `none`.
-/

structure Memory (β : Type*) where
  cells : List (Option β)
deriving DecidableEq

namespace Memory

variable {β : Type*} {h : Memory β} {p q : Nat} {b b' : β}

def empty : Memory β := ⟨[]⟩

/-- The address the next allocation returns. -/
def fresh (h : Memory β) : Nat := h.cells.length

/-- `none` where there is no live cell. -/
def read (h : Memory β) (p : Nat) : Option β := h.cells[p]?.join

def write (h : Memory β) (p : Nat) (b : β) : Memory β := ⟨h.cells.set p (some b)⟩

def alloc (h : Memory β) (b : β) : Memory β := ⟨h.cells ++ [some b]⟩

def free (h : Memory β) (p : Nat) : Memory β := ⟨h.cells.set p none⟩

theorem lt_fresh_of_read (hp : h.read p = some b) : p < h.fresh := by
  rw [read, Option.join_eq_some_iff] at hp
  exact (List.getElem?_eq_some_iff.mp hp).1

theorem ne_fresh_of_read (hp : h.read p = some b) : p ≠ h.fresh :=
  Nat.ne_of_lt (lt_fresh_of_read hp)

@[simp] theorem fresh_write : (h.write p b).fresh = h.fresh := List.length_set

@[simp] theorem read_alloc_fresh : (h.alloc b).read h.fresh = some b := by
  simp [read, alloc, fresh]

theorem read_alloc_of_ne (hp : p ≠ h.fresh) : (h.alloc b).read p = h.read p := by
  rcases Nat.lt_or_gt_of_ne hp with hlt | hgt
  · rw [read, alloc, List.getElem?_append_left hlt, read]
  · have hold : h.cells[p]? = none := List.getElem?_eq_none (Nat.le_of_lt hgt)
    have hnew : (h.cells ++ [some b])[p]? = none :=
      List.getElem?_eq_none (by rw [List.length_append]; exact hgt)
    rw [read, alloc, hnew, read, hold]

theorem read_write_self (hp : p < h.fresh) : (h.write p b).read p = some b := by
  rw [read, write, List.getElem?_set_self hp, Option.join_some]

theorem read_write_of_ne (hne : q ≠ p) : (h.write p b).read q = h.read q := by
  rw [read, write, List.getElem?_set_ne hne.symm, read]

theorem read_free_self : (h.free p).read p = none := by
  rw [read, free, List.getElem?_set_self']
  cases h.cells[p]? <;> rfl

theorem read_free_of_ne (hne : q ≠ p) : (h.free p).read q = h.read q := by
  rw [read, free, List.getElem?_set_ne hne.symm, read]

end Memory
