import CppUtils.Proof.LinkedListSequence

/-!
# Positions outside and at the ends of the range

The comment above `posPos` gives `insert` the positions from `-n - 1` to `n`, the negative ones
counted from the end of the longer list. `insert` counts them from the end of the list as it was,
and so puts the new item one place too far to the front; the position `-n - 1` comes out as -1,
which is also how `posPos` says that a position is bad. `get` does not look for that value, and
walks along the list with it as an `unsigned int`.
-/

namespace CppUtils.LinkedList

open LinkedMemory

variable {α : Type} {s : LinkedList α} {cells : List (Nat × α)} {l : List α}

/-- What `get` reads at a position after an insertion at that position. -/
theorem Holds.get_of_insert (h : s.Holds cells) (hlen : cells.length < 2 ^ 31 - 1) {pos : Int}
    (hlow : -cells.length ≤ pos) (hhigh : pos ≤ cells.length) (x : α) :
    ∃ p t, p ≤ cells.length ∧ s.insert pos x = some (0, t) ∧
      t.Holds (cells.insertIdx p (s.heap.fresh, x)) ∧
      t.get pos = if 0 ≤ pos then some x else cells[(cells.length + pos).toNat]?.map Prod.snd := by
  rcases h.insert_spec hlen.le pos x with ⟨p, t, hp, hle, hinsert, hholds⟩ | ⟨hrange, -⟩
  · have hlength : (cells.insertIdx p (s.heap.fresh, x)).length = cells.length + 1 :=
      List.length_insertIdx_of_le_length hle _
    have hlow' : -((cells.insertIdx p (s.heap.fresh, x)).length : Int) ≤ pos := by
      rw [hlength]
      omega
    obtain ⟨q, hq, hindex, hget⟩ := hholds.get_spec (by omega) hlow' (by rw [hlength]; omega)
    refine ⟨p, t, hle, hinsert, hholds, ?_⟩
    rw [hlength] at hindex
    have hread : t.get pos = (cells.insertIdx p (s.heap.fresh, x))[q]?.map Prod.snd := by
      rw [hget, List.getElem?_eq_getElem hq, Option.map_some]
    unfold index at hp hindex
    split_ifs at hp hindex ⊢ with hpos
    · obtain rfl : q = p := by omega
      rw [hread, List.getElem?_insertIdx_self, if_pos hle, Option.map_some]
    · obtain rfl : q = p + 1 := by omega
      have hold : (cells.length + pos).toNat = p := by omega
      rw [hread, List.getElem?_insertIdx_of_gt (Nat.lt_succ_self p), hold, Nat.succ_sub_one]
  · exact absurd ⟨hlow, hhigh⟩ hrange

/-- At a documented position the item is inserted and found there again, the others keep their
order; at another position the list stays as it is. -/
def InsertsAsDocumented (s : LinkedList α) (l : List α) (pos : Int) (x : α) : Prop :=
  if -l.length - 1 ≤ pos ∧ pos ≤ l.length then
    ∃ p t, p ≤ l.length ∧ s.insert pos x = some (0, t) ∧ t.Represents (l.insertIdx p x) ∧
      t.get pos = some x
  else
    s.insert pos x = some (-1, s)

/-- **Documented positions.** `insert` does what the comment says at the positions that are not
negative and at those it rejects; at `-n .. -1` only if the item that is there is the new one
already, and never at `-n - 1`. -/
theorem insertsAsDocumented_iff (h : s.Represents l) (hlen : l.length < 2 ^ 31 - 1) (pos : Int)
    (x : α) :
    InsertsAsDocumented s l pos x ↔ 0 ≤ pos ∨ pos < -l.length - 1 ∨
      -l.length ≤ pos ∧ l[(l.length + pos).toNat]? = some x := by
  obtain ⟨cells, hholds, rfl⟩ := h
  rw [List.length_map] at hlen
  simp only [InsertsAsDocumented, List.length_map, List.getElem?_map]
  by_cases hrange : -(cells.length : Int) ≤ pos ∧ pos ≤ cells.length
  · obtain ⟨p, t, hp, hinsert, hinserted, hget⟩ :=
      hholds.get_of_insert hlen hrange.1 hrange.2 x
    rw [if_pos ⟨by omega, hrange.2⟩]
    have hiff : (∃ p t, p ≤ cells.length ∧ s.insert pos x = some (0, t) ∧
        t.Represents ((cells.map Prod.snd).insertIdx p x) ∧ t.get pos = some x) ↔
        t.get pos = some x := by
      constructor
      · rintro ⟨_, t', -, hinsert', -, hget'⟩
        obtain rfl := (Prod.mk.inj (Option.some.inj (hinsert.symm.trans hinsert'))).2
        exact hget'
      · intro hget'
        exact ⟨p, t, hp, hinsert, ⟨_, hinserted, by rw [List.map_insertIdx]⟩, hget'⟩
    rw [hiff, hget]
    split_ifs with hpos
    · exact iff_of_true rfl (.inl hpos)
    · constructor
      · intro hsome
        exact .inr (.inr ⟨hrange.1, hsome⟩)
      · rintro (hpos' | hbelow | ⟨-, hsome⟩)
        · exact absurd hpos' hpos
        · omega
        · exact hsome
  · have hreject : s.insert pos x = some (-1, s) := by
      rcases hholds.insert_spec hlen.le pos x with ⟨p, t, hp, hle, -⟩ | ⟨-, hinsert⟩
      · unfold index at hp
        split_ifs at hp <;> omega
      · exact hinsert
    split_ifs with hdocumented
    · -- the position is `-n - 1`
      refine iff_of_false ?_ ?_
      · rintro ⟨_, _, -, hinsert, -⟩
        have hret := (Prod.mk.inj (Option.some.inj (hreject.symm.trans hinsert))).1
        exact absurd hret (by decide)
      · rintro (hpos | hbelow | ⟨hlow, -⟩)
        · exact hrange ⟨by omega, hdocumented.2⟩
        · omega
        · exact hrange ⟨hlow, hdocumented.2⟩
    · refine iff_of_true hreject ?_
      by_cases hpos : 0 ≤ pos
      · exact .inl hpos
      · exact .inr (.inl (by omega))

/-- Into the list 7, at 1 and at -2. -/
theorem insertsAsDocumented_iff_one :
    let s : LinkedList Nat := ⟨⟨[some ⟨7, none⟩]⟩, some 0, 1⟩
    InsertsAsDocumented s [7] 1 8 ∧ ¬ InsertsAsDocumented s [7] (-2) 8 := by
  intro s
  have hs : s.Represents [7] := by
    refine ⟨[(0, 7)], ⟨⟨[], rfl, rfl⟩, List.nodup_singleton 0, ?_, rfl⟩, rfl⟩
    intro c hc
    obtain rfl := List.mem_singleton.mp hc
    rfl
  refine ⟨(insertsAsDocumented_iff hs (by decide) 1 8).mpr (.inl (by decide)), fun h => ?_⟩
  exact absurd ((insertsAsDocumented_iff hs (by decide) (-2) 8).mp h) (by decide)

/-- After `insert(-1, 8)` into the list 7, `get(-1)` gives 7. -/
theorem not_insertsAsDocumented :
    ¬ ∀ (s : LinkedList Nat) (l : List Nat) (pos : Int) (x : Nat), s.Represents l →
      l.length < 2 ^ 31 - 1 → InsertsAsDocumented s l pos x := by
  intro hinserts
  obtain ⟨p, t, -, hinsert, -, hget⟩ := hinserts ⟨⟨[some ⟨7, none⟩]⟩, some 0, 1⟩ [7] (-1) 8
    ⟨[(0, 7)], ⟨⟨[], rfl, rfl⟩, List.nodup_singleton 0, by simp [Memory.read], rfl⟩, rfl⟩ (by decide)
  have hcall : LinkedList.insert ⟨⟨[some ⟨7, none⟩]⟩, some 0, 1⟩ (-1) 8
      = some (0, ⟨⟨[some ⟨7, none⟩, some ⟨8, some 0⟩]⟩, some 1, 2⟩) := by decide +kernel
  obtain rfl := (Prod.mk.inj (Option.some.inj (hcall.symm.trans hinsert))).2
  exact absurd hget (by decide +kernel)

/-! ### The walk -/

/-- The index with which `get` enters `pToPos`. -/
def getIndex (s : LinkedList α) (pos : Int) : Nat :=
  toUInt32 (posPos (toInt (s.len - 1)) (toInt s.len) pos)

theorem get_eq_none_of_walk {pos : Int} (h : s.pToPos (s.getIndex pos) = none) :
    s.get pos = none := by
  unfold getIndex at h
  rw [get]
  split
  · rfl
  · simp only [h]
    rfl

theorem Holds.walk_of_bad_pos (h : s.Holds cells) (hlen : cells.length ≤ 2 ^ 31 - 1)
    (hne : cells ≠ []) {pos : Int}
    (hpos : ¬(-cells.length ≤ pos ∧ pos ≤ (cells.length : Int) - 1)) :
    s.pToPos (s.getIndex pos) = none := by
  have hpositive := List.length_pos_iff.mpr hne
  have hint : toInt s.len = cells.length := by
    rw [h.len_eq]
    exact toInt_of_mem (by omega) (by omega)
  have hint' : toInt (s.len - 1) = (cells.length : Int) - 1 := by
    rw [h.len_eq]
    exact toInt_of_mem (by omega) (by omega)
  have hbad := posPos_eq (Or.inr rfl : (cells.length : Int) - 1 = cells.length ∨ _) pos
  rw [if_neg hpos] at hbad
  rw [getIndex, hint, hint', hbad, pToPos]
  refine follow_chain_eq_none h.chain ?_
  rw [List.length_map, show toUInt32 (-1) = 2 ^ 32 - 1 from rfl]
  omega

theorem Holds.walk_of_good_pos (h : s.Holds cells) (hlen : cells.length ≤ 2 ^ 31 - 1) {pos : Int}
    (hlow : -cells.length ≤ pos) (hhigh : pos ≤ (cells.length : Int) - 1) :
    (s.get pos).isSome ∧ (s.pToPos (s.getIndex pos)).isSome := by
  obtain ⟨p, hp, -, hget⟩ := h.get_spec hlen hlow hhigh
  refine ⟨by rw [hget]; rfl, ?_⟩
  by_contra hwalk
  rw [Option.not_isSome_iff_eq_none] at hwalk
  have hnone := get_eq_none_of_walk hwalk
  rw [hget] at hnone
  cases hnone

/-- **Walks.** On every list that a run leads to, `insert` and `remove` dereference no null pointer,
whatever the position, and `get` none exactly if its position is on the list; otherwise it is the
walk that runs past the end. Every call of the run finds a list whose length plus one is an `int`
(`Step`), so that `posPos` takes the lengths as they are. -/
theorem walk_iff [Inhabited α] (hs : Transition.Reachable (· = new) Step s) :
    (∀ pos x, (s.insert pos x).isSome) ∧ (∀ pos, (s.remove pos).isSome) ∧
    (s.empty = false → ∀ pos : Int,
      ((s.pToPos (s.getIndex pos)).isSome ↔ -s.len ≤ pos ∧ pos ≤ (s.len : Int) - 1) ∧
      ((s.get pos).isSome ↔ -s.len ≤ pos ∧ pos ≤ (s.len : Int) - 1)) := by
  obtain ⟨cells, h, hlen⟩ := exists_holds_of_reachable hs
  refine ⟨fun pos x => ?_, fun pos => ?_, fun hempty pos => ?_⟩
  · rcases h.insert_spec hlen pos x with ⟨p, t, -, -, hinsert, -⟩ | ⟨-, hinsert⟩
    · rw [hinsert]
      rfl
    · rw [hinsert]
      rfl
  · rcases h.remove_spec hlen pos with ⟨p, t, -, -, -, -, hremove, -⟩ | ⟨-, hremove⟩
    · rw [hremove]
      rfl
    · rw [hremove]
      rfl
  · have hne : cells ≠ [] := by
      intro hcells
      rw [h.empty_iff.mpr hcells] at hempty
      cases hempty
    rw [h.len_eq]
    by_cases hpos : -cells.length ≤ pos ∧ pos ≤ (cells.length : Int) - 1
    · obtain ⟨hget, hwalk⟩ := h.walk_of_good_pos hlen hpos.1 hpos.2
      exact ⟨iff_of_true hwalk hpos, iff_of_true hget hpos⟩
    · have hwalk := h.walk_of_bad_pos hlen hne hpos
      have hget := get_eq_none_of_walk hwalk
      exact ⟨iff_of_false (by simp [hwalk]) hpos, iff_of_false (by simp [hget]) hpos⟩

theorem reachable_seven :
    Transition.Reachable (· = (new : LinkedList Nat)) Step ⟨⟨[some ⟨7, none⟩]⟩, some 0, 1⟩ :=
  ⟨new, [.insertTail 7], rfl, .cons ⟨by simp [new], 0, by decide +kernel⟩ (.nil _)⟩

/-- `get(-1)` and `get(1)` on the list 7. -/
theorem walk_iff_seven :
    let s : LinkedList Nat := ⟨⟨[some ⟨7, none⟩]⟩, some 0, 1⟩
    (s.get (-1)).isSome ∧ ¬(s.pToPos (s.getIndex 1)).isSome := by
  intro s
  obtain ⟨-, -, hget⟩ := walk_iff reachable_seven
  exact ⟨((hget rfl (-1)).2).mpr (by decide), fun h => absurd ((hget rfl 1).1.mp h) (by decide)⟩

/-- `get(1)` on a list of one item. -/
theorem not_walk :
    ¬ ∀ s : LinkedList Nat, Transition.Reachable (· = new) Step s → s.empty = false →
      ∀ pos : Int, (s.pToPos (s.getIndex pos)).isSome := by
  intro hwalks
  have hone := hwalks _ reachable_seven rfl 1
  obtain ⟨cells, hholds, hlen⟩ := exists_holds_of_reachable reachable_seven
  have hlength : cells.length = 1 := hholds.len_eq.symm
  have hne : cells ≠ [] := List.ne_nil_of_length_pos (by omega)
  rw [hholds.walk_of_bad_pos hlen hne (by rw [hlength]; decide)] at hone
  cases hone

end CppUtils.LinkedList
