import CppUtils.Lib.SortedKeys
import Mathlib.Data.List.Lex
import Mathlib.Data.Prod.Lex
import Mathlib.Data.List.Nodup

/-!
# Associative containers

A container holds at most one element for every key, and an insertion of a second one changes
nothing. In a tree the elements are passed in the order of their keys; in a hash table they are
passed in any order, and two tables are equal if they hold the same elements. A set is the case of
the key `id`, a map that of the key `Prod.fst`.
-/

namespace Associative

variable {α κ : Type} {f : α → κ}

/-! ### Trees -/

section Tree

variable [LinearOrder κ]

structure Tree (f : α → κ) where
  elems : List α
  sorted : SortedKeys.Sorted f elems

def Tree.empty : Tree f := ⟨[], .nil⟩

theorem Tree.ext {t u : Tree f} (h : t.elems = u.elems) : t = u := by
  cases t
  cases u
  cases h
  rfl

def Tree.insert (t : Tree f) (a : α) : Tree f :=
  if h : ∃ b ∈ t.elems, f b = f a then t
  else
    { elems := SortedKeys.below f (f a) t.elems ++ a :: SortedKeys.atLeast f (f a) t.elems
      sorted := t.sorted.insert rfl fun b hb heq => h ⟨b, hb, heq⟩ }

theorem Tree.insert_elems_of_lt {t : Tree f} {a : α} (h : ∀ b ∈ t.elems, f b < f a) :
    (t.insert a).elems = t.elems ++ [a] := by
  have hnew : ¬ ∃ b ∈ t.elems, f b = f a := fun ⟨b, hb, heq⟩ => (h b hb).ne heq
  have hbelow : SortedKeys.below f (f a) t.elems = t.elems :=
    List.filter_eq_self.mpr fun b hb => by simpa using h b hb
  have habove : SortedKeys.atLeast f (f a) t.elems = [] :=
    List.filter_eq_nil_iff.mpr fun b hb => by simpa using h b hb
  rw [insert, dif_neg hnew]
  show SortedKeys.below f (f a) t.elems ++ a :: SortedKeys.atLeast f (f a) t.elems = _
  rw [hbelow, habove]

/-- The elements of a tree, inserted in the order in which they are passed. -/
theorem Tree.foldl_insert {l : List α} (h : SortedKeys.Sorted f l) :
    (l.foldl Tree.insert (Tree.empty : Tree f)).elems = l := by
  suffices hgen : ∀ (rest : List α) (t : Tree f), SortedKeys.Sorted f (t.elems ++ rest) →
      (rest.foldl Tree.insert t).elems = t.elems ++ rest from hgen l Tree.empty h
  intro rest
  induction rest with
  | nil => simp
  | cons a rest ih =>
      intro t ht
      have hlt : ∀ b ∈ t.elems, f b < f a :=
        fun b hb => (List.pairwise_append.mp ht).2.2 b hb a List.mem_cons_self
      have hinsert := Tree.insert_elems_of_lt hlt
      have hsplit : t.elems ++ a :: rest = (t.insert a).elems ++ rest := by
        rw [hinsert, List.append_assoc]
        rfl
      rw [List.foldl_cons, ih (t.insert a) (hsplit ▸ ht), hsplit]

/-- Trees are compared like the sequences of their elements. -/
abbrev Tree.linearOrder {ρ : Type} [LinearOrder ρ] (key : α → ρ) (hkey : Function.Injective key) :
    LinearOrder (Tree f) :=
  LinearOrder.lift' (fun t => t.elems.map key) fun _ _ h =>
    Tree.ext (List.map_injective_iff.mpr hkey h)

end Tree

/-! ### Hash tables -/

section HashTable

structure HashTable (f : α → κ) where
  elems : List α
  nodup : (elems.map f).Nodup

def HashTable.empty : HashTable f := ⟨[], List.nodup_nil⟩

variable [DecidableEq κ]

/-- Where the new element comes in the order is left to the table; it is the first one here. -/
def HashTable.insert (t : HashTable f) (a : α) : HashTable f :=
  if h : f a ∈ t.elems.map f then t
  else { elems := a :: t.elems, nodup := List.nodup_cons.mpr ⟨h, t.nodup⟩ }

theorem HashTable.foldl_insert {l : List α} (h : (l.map f).Nodup) :
    (l.foldl HashTable.insert (HashTable.empty : HashTable f)).elems.Perm l := by
  suffices hgen : ∀ (rest : List α) (t : HashTable f), (t.elems.map f ++ rest.map f).Nodup →
      (rest.foldl HashTable.insert t).elems.Perm (t.elems ++ rest) from hgen l HashTable.empty h
  intro rest
  induction rest with
  | nil => simp
  | cons a rest ih =>
      intro t ht
      have hnew : f a ∉ t.elems.map f := fun hmem =>
        (List.nodup_append.mp ht).2.2 _ hmem _ List.mem_cons_self rfl
      have hinsert : (t.insert a).elems = a :: t.elems := by rw [insert, dif_neg hnew]
      have hperm : (a :: t.elems ++ rest).Perm (t.elems ++ a :: rest) := List.perm_middle.symm
      rw [List.foldl_cons]
      refine (ih (t.insert a) ?_).trans (hinsert ▸ hperm)
      have hkeys := (hperm.map f).nodup_iff
      rw [hinsert, ← List.map_append, hkeys, List.map_append]
      exact ht

end HashTable

end Associative
