import CppUtils.Lib.Memory
import Mathlib.Data.Finset.Card

/-!
# Which cells of a memory are live

What `alloc`, `write` and `free` do to the set of live addresses. Where a program knows as many live
addresses as there are, it knows them all (`mem_live_iff`): nothing has leaked.
-/

namespace Memory

variable {β : Type*} {h : Memory β} {p q : Nat} {b b' : β}

def live (h : Memory β) : Finset Nat := (Finset.range h.fresh).filter fun p => (h.read p).isSome

theorem mem_live : p ∈ h.live ↔ (h.read p).isSome = true := by
  rw [live, Finset.mem_filter, Finset.mem_range, and_iff_right_iff_imp]
  intro hread
  obtain ⟨b, hb⟩ := Option.isSome_iff_exists.mp hread
  exact lt_fresh_of_read hb

theorem live_empty : (empty : Memory β).live = ∅ := rfl

theorem fresh_notMem_live : h.fresh ∉ h.live := by
  rw [live, Finset.mem_filter, Finset.mem_range]
  exact fun hlt => Nat.lt_irrefl _ hlt.1

theorem live_alloc : (h.alloc b).live = insert h.fresh h.live := by
  ext q
  rw [mem_live, Finset.mem_insert, mem_live]
  by_cases hq : q = h.fresh
  · simp [hq]
  · rw [read_alloc_of_ne hq, or_iff_right hq]

theorem live_write (hp : h.read p = some b') : (h.write p b).live = h.live := by
  ext q
  rw [mem_live, mem_live]
  by_cases hq : q = p
  · rw [hq, read_write_self (lt_fresh_of_read hp), hp]
    simp
  · rw [read_write_of_ne hq]

theorem live_free : (h.free p).live = h.live.erase p := by
  ext q
  rw [mem_live, Finset.mem_erase, mem_live]
  by_cases hq : q = p
  · simp [hq, read_free_self]
  · rw [read_free_of_ne hq, and_iff_right hq]

theorem card_live_alloc : (h.alloc b).live.card = h.live.card + 1 := by
  rw [live_alloc, Finset.card_insert_of_notMem fresh_notMem_live]

theorem card_live_free (hp : h.read p = some b) : (h.free p).live.card + 1 = h.live.card := by
  rw [live_free, Finset.card_erase_add_one (mem_live.mpr (by rw [hp]; rfl))]

/-- **No leak.** Distinct live addresses that are as many as there are live cells are all there are.
-/
theorem mem_live_iff {addrs : List Nat} (hnodup : addrs.Nodup)
    (hlive : ∀ p ∈ addrs, (h.read p).isSome = true) (hcard : h.live.card = addrs.length) :
    p ∈ h.live ↔ p ∈ addrs := by
  have hsubset : addrs.toFinset ⊆ h.live := by
    intro q hq
    exact mem_live.mpr (hlive q (List.mem_toFinset.mp hq))
  have hsame : addrs.toFinset = h.live :=
    Finset.eq_of_subset_of_card_le hsubset (by rw [hcard, List.toFinset_card_of_nodup hnodup])
  rw [← hsame, List.mem_toFinset]

end Memory
