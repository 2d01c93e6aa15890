import CppUtils.Lib.LiveMemory
import CppUtils.Proof.SkipListDisplay

/-!
# The skip list and its nodes

Where the list refines the map, the head and a node for each key are live and nothing else is:
`insert` and `erase` leak nothing. `~SkipList` deletes the head alone, so every node that is still
on the list leaks.
-/

namespace CppUtils.SkipList

open LinkedMemory SortedKeys

variable {K V : Type} [LinearOrder K] {s : SkipList K V} {l : List (Entry K V)} {p : Nat}

theorem WellFormed.mem_live_iff (h : s.WellFormed l) :
    p ∈ s.heap.live ↔ p = s.head ∨ p ∈ l.map Entry.addr := by
  rw [Memory.mem_live, Option.isSome_iff_exists]
  constructor
  · rintro ⟨n, hread⟩
    exact h.only p n hread
  · rintro (rfl | hp)
    · obtain ⟨n, hread, -⟩ := h.leveled.read_head
      exact ⟨n, hread⟩
    · obtain ⟨e, he, rfl⟩ := List.mem_map.mp hp
      obtain ⟨n, hread, -⟩ := h.leveled.read_eq he
      exact ⟨n, hread⟩

/-- The destructor leaks the nodes of the list. -/
theorem WellFormed.destroy_spec (h : s.WellFormed l) :
    ∃ heap, s.destroy = some heap ∧ heap.live = (l.map Entry.addr).toFinset ∧
      (heap.live.card : Int) = s.counts := by
  obtain ⟨n, hread, -⟩ := h.leveled.read_head
  obtain ⟨hhead, hnodup⟩ := List.nodup_cons.mp h.nodup
  have hlive : (s.heap.free s.head).live = (l.map Entry.addr).toFinset := by
    ext p
    rw [Memory.live_free, Finset.mem_erase, h.mem_live_iff, List.mem_toFinset]
    constructor
    · rintro ⟨hne, hp⟩
      exact hp.resolve_left hne
    · intro hp
      exact ⟨fun heq => hhead (heq ▸ hp), Or.inr hp⟩
  refine ⟨s.heap.free s.head, by rw [destroy, hread, Option.map_some], hlive, ?_⟩
  rw [hlive, List.toFinset_card_of_nodup hnodup, List.length_map, h.counts_eq]

/-- **What leaks.** Along a run that erases no node on level `_curLevel`, the live nodes are the
head and those of the keys of the map; the destructor then leaks exactly `size()` nodes, the one of
each key. -/
theorem nodes_leaked_of_run [Inhabited K] [Inhabited V] {maxLevel : Nat} {c : Mapped K V}
    (hc : Transition.Reachable (· = ⟨new maxLevel, fun _ => none⟩)
      (fun c call c' => Step c call c' ∧ OffCurLevel c.list call) c) :
    ∃ l, c.list.WellFormed l ∧ Carries l c.live ∧
      (∀ p, p ∈ c.list.heap.live ↔ p = c.list.head ∨ p ∈ l.map Entry.addr) ∧
      ∃ heap, c.list.destroy = some heap ∧ heap.live = (l.map Entry.addr).toFinset ∧
        (heap.live.card : Int) = c.list.counts := by
  obtain ⟨l, hl, hlive⟩ := sound_of_reachable hc
  exact ⟨l, hl, hlive, fun _ => hl.mem_live_iff, hl.destroy_spec⟩

/-- A list destroyed with one key in it. -/
theorem nodes_leaked_of_one :
    ∃ c : Mapped Nat Nat, c.list.counts = 1 ∧
      ∃ l, c.list.WellFormed l ∧ Carries l c.live ∧
      (∀ p, p ∈ c.list.heap.live ↔ p = c.list.head ∨ p ∈ l.map Entry.addr) ∧
      ∃ heap, c.list.destroy = some heap ∧ heap.live = (l.map Entry.addr).toFinset ∧
        (heap.live.card : Int) = c.list.counts :=
  ⟨_, rfl, nodes_leaked_of_run reachable_one⟩

end CppUtils.SkipList
