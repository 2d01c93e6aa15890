import Mathlib.Data.List.Basic
import Mathlib.Logic.Function.Basic

/-!
# Interleavings

A list of items that each carry the thread they come from, and what every thread contributed to it.
If each contribution is the image of some finer sequence, then so is the whole list.
-/

namespace Interleaving

variable {τ α β : Type*}

section OfThread

variable [DecidableEq τ]

/-- What `t` contributed, in order. -/
def ofThread (t : τ) (l : List (τ × β)) : List β := (l.filter fun item => item.1 = t).map Prod.snd

@[simp] theorem ofThread_nil (t : τ) : ofThread t ([] : List (τ × β)) = [] := rfl

theorem ofThread_append (t : τ) (l m : List (τ × β)) :
    ofThread t (l ++ m) = ofThread t l ++ ofThread t m := by
  rw [ofThread, List.filter_append, List.map_append]
  rfl

@[simp] theorem ofThread_cons_self (t : τ) (b : β) (l : List (τ × β)) :
    ofThread t ((t, b) :: l) = b :: ofThread t l := by
  simp [ofThread]

theorem ofThread_cons_of_ne {t u : τ} (h : u ≠ t) (b : β) (l : List (τ × β)) :
    ofThread t ((u, b) :: l) = ofThread t l := by
  simp [ofThread, h]

/-- An interleaving of images is the image of an interleaving. -/
theorem exists_map_eq {f : α → β} {l : List (τ × β)} {parts : τ → List α}
    (h : ∀ t, ofThread t l = (parts t).map f) :
    ∃ m : List (τ × α), (m.map fun item => (item.1, f item.2)) = l ∧
      ∀ t, ofThread t m = parts t := by
  induction l generalizing parts with
  | nil =>
      refine ⟨[], rfl, fun t => ?_⟩
      have hmap := h t
      rw [ofThread_nil] at hmap
      exact (List.map_eq_nil_iff.mp hmap.symm).symm
  | cons item l ih =>
      obtain ⟨u, b⟩ := item
      have hu := h u
      rw [ofThread_cons_self] at hu
      obtain ⟨a, rest, hparts, ha, hrest⟩ := List.map_eq_cons_iff.mp hu.symm
      have hih : ∀ t, ofThread t l = (Function.update parts u rest t).map f := by
        intro t
        by_cases htu : t = u
        · rw [htu, Function.update_self]
          exact hrest.symm
        · rw [Function.update_of_ne htu, ← h t, ofThread_cons_of_ne (Ne.symm htu)]
      obtain ⟨m, hm, hthreads⟩ := ih hih
      refine ⟨(u, a) :: m, by rw [List.map_cons, hm, ha], fun t => ?_⟩
      by_cases htu : t = u
      · rw [htu, ofThread_cons_self, hthreads u, Function.update_self, hparts]
      · rw [ofThread_cons_of_ne (Ne.symm htu), hthreads t, Function.update_of_ne htu]

end OfThread

/-- An interleaving of sequences, item by item. -/
def expand (l : List (τ × List β)) : List (τ × β) := l.flatMap fun group => group.2.map (group.1, ·)

theorem map_snd_expand (l : List (τ × List β)) :
    (expand l).map Prod.snd = (l.map Prod.snd).flatten := by
  induction l with
  | nil => rfl
  | cons group l ih =>
      have hgroup : (group.2.map fun b => (group.1, b)).map Prod.snd = group.2 := by
        rw [List.map_map]
        exact List.map_id _
      rw [List.map_cons, List.flatten_cons, ← ih, expand, List.flatMap_cons, List.map_append,
        hgroup]
      rfl

theorem ofThread_expand [DecidableEq τ] (t : τ) (l : List (τ × List β)) :
    ofThread t (expand l) = (ofThread t l).flatten := by
  induction l with
  | nil => rfl
  | cons group l ih =>
      obtain ⟨u, bs⟩ := group
      have hsplit : expand ((u, bs) :: l) = bs.map (u, ·) ++ expand l := rfl
      rw [hsplit, ofThread_append, ih]
      by_cases htu : u = t
      · have hall : ofThread t (bs.map (u, ·)) = bs := by
          simp [ofThread, htu, List.filter_map, Function.comp_def]
        rw [hall, htu, ofThread_cons_self, List.flatten_cons]
      · have hnone : ofThread t (bs.map (u, ·)) = [] := by
          simp [ofThread, htu, List.filter_map, Function.comp_def]
        rw [hnone, ofThread_cons_of_ne htu, List.nil_append]

theorem expand_flatten (ls : List (List (τ × List β))) :
    expand ls.flatten = (ls.map expand).flatten := by
  induction ls with
  | nil => rfl
  | cons l ls ih =>
      rw [List.flatten_cons, List.map_cons, List.flatten_cons, ← ih]
      exact List.flatMap_append

/-- A cut of the images is the image of a cut. -/
theorem exists_flatten_eq {f : α → β} {l : List α} {parts : List (List β)}
    (h : l.map f = parts.flatten) :
    ∃ ls : List (List α), ls.flatten = l ∧ ls.map (List.map f) = parts := by
  induction parts generalizing l with
  | nil => exact ⟨[], (List.map_eq_nil_iff.mp h).symm, rfl⟩
  | cons part parts ih =>
      obtain ⟨first, rest, rfl, hfirst, hrest⟩ := List.map_eq_append_iff.mp h
      obtain ⟨ls, hls, hparts⟩ := ih hrest
      exact ⟨first :: ls, by rw [List.flatten_cons, hls], by rw [List.map_cons, hfirst, hparts]⟩

end Interleaving
