import CppUtils.Proof.SkipListErase
import CppUtils.Proof.SkipListInsert

/-!
# Removal of an absent key

The last lines of `erase` run whether or not the key was found. `current` is then the first node
above the key, which is deleted although every level still links it, and `_counts` is decremented
even if there is no such node.
-/

namespace CppUtils.SkipList

open LinkedMemory SortedKeys

variable {K V : Type}

/-- The chains of the levels `0.._maxLevel`, those above `_curLevel` empty. -/
structure Chains [LinearOrder K] (s : SkipList K V) (lev : Nat → List (Entry K V)) : Prop where
  levels : s.Levels s.maxLevel lev
  empty : ∀ i ≤ s.maxLevel, s.curLevel < i → lev i = []
  curLevel_le : s.curLevel ≤ s.maxLevel
  counts_eq : s.counts = (lev 0).length

/-- No link, no node and not the number of nodes differs. -/
structure Unchanged (s t : SkipList K V) : Prop where
  links : ∀ i p, t.nextAt i p = s.nextAt i p
  nodes : ∀ p, t.heap.read p = s.heap.read p
  counts : t.counts = s.counts

/-- The heap after `delete current`. -/
def heapAfter (s : SkipList K V) (above : List (Entry K V)) : Memory (Node K V) :=
  match above with
  | [] => s.heap
  | e :: _ => s.heap.free e.addr

theorem delete_of_mem {above : List (Entry K V)} (m : SkipList K V)
    (hread : ∀ e ∈ above, (m.heap.read e.addr).isSome) :
    m.delete (above.map Entry.addr).head? = some { m with heap := heapAfter m above } := by
  cases above with
  | nil => rfl
  | cons e rest =>
      obtain ⟨node, hnode⟩ := Option.isSome_iff_exists.mp (hread e List.mem_cons_self)
      rw [List.map_cons, List.head?_cons, delete, hnode]
      rfl

section Erase

variable [LinearOrder K] {s : SkipList K V} {lev : Nat → List (Entry K V)} {key : K}

theorem WellFormed.chains {l : List (Entry K V)} (h : s.WellFormed l) :
    s.Chains fun i => onLevel i l where
  levels := h.leveled.levels
  empty := fun _ _ hi => h.leveled.onLevel_eq_nil hi
  curLevel_le := h.curLevel_le
  counts_eq := by rw [h.leveled.onLevel_zero]; exact h.counts_eq

/-- A node at or above the key is not the predecessor. -/
theorem Levels.pre_ne_addr {n : Nat} (h : s.Levels n lev) {i : Nat} (hi : i ≤ n) {e : Entry K V}
    (he : e ∈ atLeast Entry.k key (lev i)) : s.pre (lev i) key ≠ e.addr := by
  have hnodup := (h.linked i hi).nodup
  rw [h.split_map hi key, ← List.cons_append] at hnodup
  have hpre := getLastD_mem_cons s.head ((below Entry.k key (lev i)).map Entry.addr)
  exact (List.nodup_append.mp hnodup).2.2 _ hpre _ (List.mem_map_of_mem he)

/-- What `erase` does for an absent key. -/
theorem Chains.erase_eq (h : s.Chains lev) (hkey : ∀ e ∈ lev 0, e.k ≠ key) :
    ∃ c, s.erase key = some { s with
      curLevel := c
      counts := s.counts - 1
      heap := heapAfter s (atLeast Entry.k key (lev 0)) } := by
  obtain ⟨update, hlocate, -⟩ :=
    (h.levels.mono h.curLevel_le).locate_eq h.curLevel_le key
  have hnext := h.levels.next_pre (Nat.zero_le _) key
  have hkeyEq := h.levels.keyEq_of_not_mem hkey
  obtain ⟨c, hlower, -⟩ := exists_lower (s := s) (c := s.curLevel) fun i hi => by
    rw [(h.levels.linked i (hi.trans h.curLevel_le)).next_eq]
    rfl
  have hread : ∀ e ∈ atLeast Entry.k key (lev 0), (s.heap.read e.addr).isSome := by
    intro e he
    have hk := h.levels.key_eq 0 (Nat.zero_le _) e (mem_atLeast.mp he).1
    obtain ⟨node, hnode, -⟩ := Option.map_eq_some_iff.mp hk
    rw [hnode]
    rfl
  have hdelete := delete_of_mem { s with curLevel := c, counts := s.counts - 1 } hread
  refine ⟨c, ?_⟩
  rw [erase, hlocate]
  simp only [Option.bind_eq_bind, Option.bind_some, hnext, hkeyEq]
  cases hcurrent : ((atLeast Entry.k key (lev 0)).map Entry.addr).head? with
  | none =>
      rw [hcurrent] at hdelete
      simp only [Option.bind_some, hlower]
      exact hdelete
  | some p =>
      rw [hcurrent] at hdelete
      simp only [Option.bind_some, hlower]
      exact hdelete

/-- **Removal of an absent key is never without effect.** `erase` decrements `_counts`; and if some
key is above the absent one, the first such node is deleted while level 0 still links it. -/
theorem erase_absent (h : s.Chains lev) (hkey : ∀ e ∈ lev 0, e.k ≠ key) :
    ∃ t, s.erase key = some t ∧ ¬ Unchanged s t ∧ t.counts = s.counts - 1 ∧
      ∀ e rest, atLeast Entry.k key (lev 0) = e :: rest →
        t.heap.read e.addr = none ∧ t.nextAt 0 (s.pre (lev 0) key) = some (some e.addr) := by
  obtain ⟨c, herase⟩ := h.erase_eq hkey
  refine ⟨_, herase, fun hsame => ?_, rfl, fun e rest habove => ?_⟩
  · have hcounts : s.counts - 1 = s.counts := hsame.counts
    omega
  · have hnext := h.levels.next_pre (Nat.zero_le _) key
    have hne : s.pre (lev 0) key ≠ e.addr :=
      h.levels.pre_ne_addr (Nat.zero_le _) (by rw [habove]; exact List.mem_cons_self)
    rw [habove] at hnext
    simp only [habove, heapAfter]
    refine ⟨Memory.read_free_self, ?_⟩
    rw [nextAt, Memory.read_free_of_ne hne]
    exact hnext

end Erase

theorem chains_insert_five :
    ∃ s lev, (new 1 : SkipList Nat Nat).insert 5 50 1 = some (0, s) ∧ s.Chains lev ∧
      ∀ e ∈ lev 0, e.k ≠ 3 := by
  have hnone : ∀ e ∈ ([] : List (Entry Nat Nat)), e.k ≠ 5 := by simp
  obtain ⟨s, hinsert, hs, -⟩ :=
    (wellFormed_new 1).insert_of_not_mem hnone 50 (R := 1) ⟨le_rfl, le_rfl⟩
  exact ⟨s, _, hinsert, hs.chains, by simp [onLevel, inserted, below, atLeast]⟩

theorem erase_absent_below_five :
    ∃ s t, (new 1 : SkipList Nat Nat).insert 5 50 1 = some (0, s) ∧ s.erase 3 = some t ∧
      ¬ Unchanged s t := by
  obtain ⟨s, lev, hinsert, hs, hkey⟩ := chains_insert_five
  obtain ⟨t, herase, hchanged, -⟩ := erase_absent hs hkey
  exact ⟨s, t, hinsert, herase, hchanged⟩

/-- Removing 3 from a list that holds 5 decrements `_counts`. -/
theorem not_unchanged_of_absent :
    ¬ ∀ (s : SkipList Nat Nat) (lev : Nat → List (Entry Nat Nat)) (key : Nat), s.Chains lev →
      (∀ e ∈ lev 0, e.k ≠ key) → ∃ t, s.erase key = some t ∧ Unchanged s t := by
  intro hunchanged
  obtain ⟨s, lev, -, hs, hkey⟩ := chains_insert_five
  obtain ⟨t, herase, hsame⟩ := hunchanged s lev 3 hs hkey
  obtain ⟨c, herase'⟩ := hs.erase_eq hkey
  have hcounts := hsame.counts
  rw [← Option.some.inj (herase'.symm.trans herase)] at hcounts
  have hless : s.counts - 1 = s.counts := hcounts
  omega

end CppUtils.SkipList
