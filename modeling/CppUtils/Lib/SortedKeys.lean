import Mathlib.Data.List.Basic
import Mathlib.Order.Lattice

/-!
# Lists sorted by a key

A list strictly sorted by a key falls into the part `below` a given key and the part `atLeast` it.
Both are filters, so they commute with every other filter, and the first is also where a scan for
the key stops.
-/

namespace SortedKeys

variable {α K : Type*} [LinearOrder K] {f : α → K} {key : K} {l l' : List α}

/-- Strictly sorted by the key `f`. -/
def Sorted (f : α → K) (l : List α) : Prop := l.Pairwise fun a b => f a < f b

def below (f : α → K) (key : K) (l : List α) : List α := l.filter fun a => f a < key

def atLeast (f : α → K) (key : K) (l : List α) : List α := l.filter fun a => key ≤ f a

theorem Sorted.sublist (h : Sorted f l) (hsub : l'.Sublist l) : Sorted f l' :=
  List.Pairwise.sublist hsub h

theorem mem_below {a : α} : a ∈ below f key l ↔ a ∈ l ∧ f a < key := by
  simp [below]

theorem mem_atLeast {a : α} : a ∈ atLeast f key l ↔ a ∈ l ∧ key ≤ f a := by
  simp [atLeast]

theorem below_filter (p : α → Bool) : below f key (l.filter p) = (below f key l).filter p :=
  List.filter_comm _ _ _

theorem atLeast_filter (p : α → Bool) : atLeast f key (l.filter p) = (atLeast f key l).filter p :=
  List.filter_comm _ _ _

theorem Sorted.below_eq_nil_of_head {a : α} (h : Sorted f (a :: l)) (ha : key ≤ f a) :
    below f key (a :: l) = [] := by
  refine List.filter_eq_nil_iff.mpr fun b hb => ?_
  have hle : key ≤ f b := by
    rcases List.mem_cons.mp hb with rfl | hb
    · exact ha
    · exact ha.trans (List.rel_of_pairwise_cons h hb).le
  simpa using hle

/-- The scan for `key` passes exactly the part below it. -/
theorem Sorted.takeWhile_eq (h : Sorted f l) :
    l.takeWhile (fun a => f a < key) = below f key l := by
  induction l with
  | nil => rfl
  | cons a l ih =>
      by_cases ha : f a < key
      · rw [List.takeWhile_cons_of_pos (by simpa using ha), ih h.of_cons, below, below,
          List.filter_cons_of_pos (by simpa using ha)]
      · rw [List.takeWhile_cons_of_neg (by simpa using ha),
          h.below_eq_nil_of_head (not_lt.mp ha)]

theorem Sorted.below_append_atLeast (h : Sorted f l) : below f key l ++ atLeast f key l = l := by
  induction l with
  | nil => rfl
  | cons a l ih =>
      by_cases ha : f a < key
      · have hnot : ¬ key ≤ f a := not_le.mpr ha
        rw [below, atLeast, List.filter_cons_of_pos (by simpa using ha),
          List.filter_cons_of_neg (by simpa using hnot), List.cons_append]
        exact congrArg _ (ih h.of_cons)
      · have hall : atLeast f key (a :: l) = a :: l := by
          refine List.filter_eq_self.mpr fun b hb => ?_
          rcases List.mem_cons.mp hb with rfl | hb
          · simpa using ha
          · simpa using (not_lt.mp ha).trans (List.rel_of_pairwise_cons h hb).le
        rw [h.below_eq_nil_of_head (not_lt.mp ha), hall, List.nil_append]

theorem Sorted.atLeast_eq_cons {a : α} (h : Sorted f l) (ha : a ∈ l) (hkey : f a = key) :
    ∃ rest, atLeast f key l = a :: rest := by
  have hsorted : Sorted f (atLeast f key l) := h.sublist List.filter_sublist
  have hmem : a ∈ atLeast f key l := mem_atLeast.mpr ⟨ha, hkey.ge⟩
  cases hlist : atLeast f key l with
  | nil => simp [hlist] at hmem
  | cons b rest =>
      rw [hlist] at hmem hsorted
      rcases List.mem_cons.mp hmem with rfl | hmem
      · exact ⟨rest, rfl⟩
      · have hlt := List.rel_of_pairwise_cons hsorted hmem
        have hb : b ∈ atLeast f key l := by
          rw [hlist]
          exact List.mem_cons_self
        have hge := (mem_atLeast.mp hb).2
        exact absurd (hkey ▸ hlt) (not_lt.mpr hge)

theorem Sorted.eq_of_key_eq {a b : α} (h : Sorted f l) (ha : a ∈ l) (hb : b ∈ l)
    (hkey : f a = f b) : a = b := by
  obtain ⟨rest, hrest⟩ := h.atLeast_eq_cons ha hkey
  obtain ⟨rest', hrest'⟩ := h.atLeast_eq_cons hb rfl
  exact (List.cons.inj (hrest.symm.trans hrest')).1

/-- A scan for the key looks at the first element that is not below it. -/
theorem Sorted.find?_eq (h : Sorted f l) :
    l.find? (fun a => f a = key) = (atLeast f key l).head?.filter fun a => f a = key := by
  have hlow : (below f key l).find? (fun a => f a = key) = none := by
    refine List.find?_eq_none.mpr fun a ha => ?_
    simpa using (mem_below.mp ha).2.ne
  have hsplit : below f key l ++ atLeast f key l = l := h.below_append_atLeast
  rw [← hsplit, List.find?_append, hlow, Option.none_or, hsplit]
  cases hlist : atLeast f key l with
  | nil => rfl
  | cons a rest =>
      have hsorted : Sorted f (a :: rest) := hlist ▸ h.sublist List.filter_sublist
      by_cases ha : f a = key
      · rw [List.find?_cons_of_pos (by simpa using ha), List.head?_cons,
          Option.filter_some_pos (by simpa using ha)]
      · have hle : key ≤ f a := (mem_atLeast.mp (hlist ▸ List.mem_cons_self)).2
        rw [List.find?_cons_of_neg (by simpa using ha), List.head?_cons,
          Option.filter_some_neg (by simpa using ha)]
        refine List.find?_eq_none.mpr fun b hb => ?_
        simpa using (hle.trans_lt (List.rel_of_pairwise_cons hsorted hb)).ne'

theorem Sorted.insert {a : α} (h : Sorted f l) (hkey : f a = key) (hnew : ∀ b ∈ l, f b ≠ key) :
    Sorted f (below f key l ++ a :: atLeast f key l) := by
  have hlow : Sorted f (below f key l) := h.sublist List.filter_sublist
  have hhigh : Sorted f (atLeast f key l) := h.sublist List.filter_sublist
  refine List.pairwise_append.mpr ⟨hlow, List.pairwise_cons.mpr ⟨fun b hb => ?_, hhigh⟩, ?_⟩
  · obtain ⟨hmem, hle⟩ := mem_atLeast.mp hb
    rw [hkey]
    exact hle.lt_of_ne (hnew b hmem).symm
  · intro b hb c hc
    obtain ⟨-, hlt⟩ := mem_below.mp hb
    rcases List.mem_cons.mp hc with rfl | hc
    · rwa [hkey]
    · exact hlt.trans_le (mem_atLeast.mp hc).2

theorem mem_insert_iff {a b : α} (h : Sorted f l) :
    b ∈ below f key l ++ a :: atLeast f key l ↔ b = a ∨ b ∈ l := by
  have hsplit : below f key l ++ atLeast f key l = l := h.below_append_atLeast
  conv_rhs => rw [← hsplit]
  simp only [List.mem_append, List.mem_cons]
  tauto

end SortedKeys
