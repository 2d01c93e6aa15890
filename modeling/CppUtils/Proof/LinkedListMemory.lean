import CppUtils.Lib.LiveMemory
import CppUtils.Proof.LinkedListSequence

/-!
# The linked list owns its items

`_len` counts the live items (`Accounted`): `insert` makes one where it adds one to `_len`, and
`remove` makes `itm` and frees it and the item it takes off. Since the items on the chain are live,
distinct and `_len` many, no others are, and when the destructor has emptied the list none is left.
-/

namespace CppUtils.LinkedList

variable {α : Type} {s t : LinkedList α} {cells : List (Nat × α)}

theorem live_setNext {p : Nat} {q : Option Nat} (hset : s.setNext p q = some t) :
    t.heap.live = s.heap.live ∧ t.head = s.head ∧ t.len = s.len := by
  obtain ⟨item, hread, rfl⟩ := Option.map_eq_some_iff.mp hset
  exact ⟨Memory.live_write hread, rfl, rfl⟩

theorem card_live_insert {pos ret : Int} {x : α} (hinsert : s.insert pos x = some (ret, t)) :
    t.heap.live.card + s.len = s.heap.live.card + t.len := by
  unfold insert at hinsert
  simp only at hinsert
  split at hinsert
  · cases hinsert
    rfl
  · split at hinsert
    · obtain ⟨m, hm, heq⟩ := Option.bind_eq_some_iff.mp hinsert
      cases heq
      obtain ⟨hlive, -, hlen⟩ := live_setNext hm
      simp only [hlive, hlen, Memory.card_live_alloc]
      omega
    · obtain ⟨p, -, hinsert⟩ := Option.bind_eq_some_iff.mp hinsert
      obtain ⟨nextItem, -, hinsert⟩ := Option.bind_eq_some_iff.mp hinsert
      obtain ⟨m, hm, hinsert⟩ := Option.bind_eq_some_iff.mp hinsert
      obtain ⟨m', hm', heq⟩ := Option.bind_eq_some_iff.mp hinsert
      cases heq
      obtain ⟨hlive, -, hlen⟩ := live_setNext hm
      obtain ⟨hlive', -, hlen'⟩ := live_setNext hm'
      simp only [hlive', hlive, hlen', hlen, Memory.card_live_alloc]
      omega

theorem next_eq_some {p : Nat} {q : Option Nat} (hnext : s.next p = some q) :
    ∃ item, s.heap.read p = some item := by
  obtain ⟨item, hread, -⟩ := Option.map_eq_some_iff.mp hnext
  exact ⟨item, hread⟩

theorem card_live_remove [Inhabited α] {pos ret : Int} (hpos : s.empty = false → 0 < s.len)
    (hremove : s.remove pos = some (ret, t)) :
    t.heap.live.card + s.len = s.heap.live.card + t.len := by
  unfold remove at hremove
  simp only at hremove
  split at hremove
  · cases hremove
    rfl
  case isFalse hempty =>
      have hlen := hpos (Bool.eq_false_of_not_eq_true hempty)
      split at hremove
      · cases hremove
        rfl
      · obtain ⟨p, -, hremove⟩ := Option.bind_eq_some_iff.mp hremove
        obtain ⟨q, -, hremove⟩ := Option.bind_eq_some_iff.mp hremove
        obtain ⟨r, -, hremove⟩ := Option.bind_eq_some_iff.mp hremove
        obtain ⟨after, hr, hremove⟩ := Option.bind_eq_some_iff.mp hremove
        obtain ⟨m, hm, hremove⟩ := Option.bind_eq_some_iff.mp hremove
        obtain ⟨itm, hitm, hremove⟩ := Option.bind_eq_some_iff.mp hremove
        obtain ⟨head, hhead, heq⟩ := Option.bind_eq_some_iff.mp hremove
        cases heq
        obtain ⟨hlive, hsame, hmlen⟩ := live_setNext hm
        -- `itm` is still the head, and neither it nor the item was freed before
        obtain rfl : s.heap.fresh = itm := Option.some.inj (hsame.symm.trans hitm)
        obtain ⟨item, hitem⟩ := next_eq_some hhead
        obtain ⟨old, hold⟩ := next_eq_some hr
        obtain ⟨now, hnow⟩ : ∃ now, m.heap.read r = some now := by
          rw [← Option.isSome_iff_exists, ← Memory.mem_live, hlive, Memory.mem_live, hold]
          rfl
        have hr' := Memory.card_live_free hnow
        have hitm' := Memory.card_live_free hitem
        rw [hlive, Memory.card_live_alloc] at hr'
        simp only [hmlen] at *
        omega

/-- As many items are live as the list has. -/
structure Accounted (s : LinkedList α) (cells : List (Nat × α)) : Prop where
  holds : s.Holds cells
  length : cells.length ≤ 2 ^ 31 - 1
  card : s.heap.live.card = s.len

theorem accounted_new : Accounted (new : LinkedList α) [] where
  holds := holds_new
  length := Nat.zero_le _
  card := rfl

theorem Accounted.mem_live_iff (h : Accounted s cells) {p : Nat} :
    p ∈ s.heap.live ↔ p ∈ cells.map Prod.fst := by
  refine Memory.mem_live_iff h.holds.nodup (fun q hq => ?_) ?_
  · obtain ⟨c, hc, rfl⟩ := List.mem_map.mp hq
    obtain ⟨item, hread, -⟩ := h.holds.read_eq hc
    rw [hread]
    rfl
  · rw [h.card, h.holds.len_eq, List.length_map]

theorem Holds.len_pos (h : s.Holds cells) (hempty : s.empty = false) : 0 < s.len := by
  rw [h.len_eq, List.length_pos_iff]
  intro hnil
  rw [h.empty_iff.mpr hnil] at hempty
  cases hempty

section Operations

variable [Inhabited α]

theorem Accounted.step (h : Accounted s cells) {c : Call α} (hstep : Step s c t) :
    ∃ cells', Accounted t cells' := by
  obtain ⟨cells', hholds, hlength⟩ := h.holds.step hstep
  refine ⟨cells', hholds, hlength, ?_⟩
  have hcard := h.card
  obtain ⟨-, ret, hcall⟩ := hstep
  have hmoved : t.heap.live.card + s.len = s.heap.live.card + t.len := by
    cases c with
    | insert pos data =>
        have hinsert : s.insert pos data = some (ret, t) := hcall
        exact card_live_insert hinsert
    | insertTail data =>
        have hinsert : s.insert (toInt s.len) data = some (ret, t) := hcall
        exact card_live_insert hinsert
    | remove pos => exact card_live_remove h.holds.len_pos hcall
  omega

/-- A round of the destructor takes the first item off. -/
theorem Accounted.remove_first {c : Nat × α} (h : Accounted s (c :: cells)) :
    ∃ t, s.remove 0 = some (0, t) ∧ Accounted t cells := by
  rcases h.holds.remove_spec h.length 0 with
    ⟨p, t, -, -, hp, hlt, hremove, hholds⟩ | ⟨hrange, -⟩
  · obtain rfl : p = 0 := by
      unfold index at hp
      simpa using hp.symm
    refine ⟨t, hremove, hholds, ?_, ?_⟩
    · exact Nat.le_trans (Nat.le_succ _) h.length
    · have hmoved := card_live_remove h.holds.len_pos hremove
      have hcard := h.card
      omega
  · exact absurd ⟨by omega, by rw [List.length_cons]; omega⟩ hrange

/-- The destructor empties the list in one round for each item. -/
theorem Accounted.destroy_spec (h : Accounted s cells) :
    ∃ t, (∀ rounds, s.len < rounds → s.destroy rounds = some t) ∧ Accounted t [] := by
  induction cells generalizing s with
  | nil =>
      refine ⟨s, fun rounds hrounds => ?_, h⟩
      obtain ⟨rounds, rfl⟩ := Nat.exists_eq_add_of_lt hrounds
      exact if_pos (h.holds.empty_iff.mpr rfl)
  | cons c cells ih =>
      obtain ⟨m, hm, hrest⟩ := h.remove_first
      obtain ⟨t, ht, hempty⟩ := ih hrest
      refine ⟨t, fun rounds hrounds => ?_, hempty⟩
      have hlen : s.len = m.len + 1 := by
        rw [h.holds.len_eq, hrest.holds.len_eq, List.length_cons]
      obtain ⟨rounds, rfl⟩ := Nat.exists_eq_succ_of_ne_zero (Nat.ne_zero_of_lt hrounds)
      have hfull : ¬ s.empty = true := fun htrue => by
        cases h.holds.empty_iff.mp htrue
      rw [destroy, if_neg hfull, hm]
      exact ht rounds (by omega)

/-- **The list owns its items.** In every state reached by calls on lists whose length plus one is an
`int` (`Step`), the live items are those on the chain, and the destructor, with a round for each of
them, frees them all. -/
theorem destroyed_of_reachable (hs : Transition.Reachable (· = new) Step s) :
    (∃ cells, s.Holds cells ∧ ∀ p, p ∈ s.heap.live ↔ p ∈ cells.map Prod.fst) ∧
      ∃ t, (∀ rounds, s.len < rounds → s.destroy rounds = some t) ∧ t.heap.live = ∅ ∧
        t.head = none ∧ t.len = 0 := by
  have h : ∃ cells, Accounted s cells :=
    hs.invariant_from ⟨[], accounted_new⟩ fun _ _ _ h hstep => h.choose_spec.step hstep
  obtain ⟨cells, h⟩ := h
  obtain ⟨t, ht, hempty⟩ := h.destroy_spec
  refine ⟨⟨cells, h.holds, fun p => h.mem_live_iff⟩, t, ht, ?_, ?_, hempty.holds.len_eq⟩
  · rw [← Finset.card_eq_zero, hempty.card, hempty.holds.len_eq]
    rfl
  · exact hempty.holds.chain.eq_head

end Operations

theorem destroyed_of_two : ∃ s t : LinkedList Nat, s.len = 2 ∧
    (∃ cells, s.Holds cells ∧ ∀ p, p ∈ s.heap.live ↔ p ∈ cells.map Prod.fst) ∧
      (∀ rounds, s.len < rounds → s.destroy rounds = some t) ∧ t.heap.live = ∅ ∧
      t.head = none ∧ t.len = 0 := by
  have hs : Transition.Reachable (· = (new : LinkedList Nat)) Step
      ⟨⟨[some ⟨7, none⟩, some ⟨5, some 0⟩]⟩, some 1, 2⟩ :=
    ⟨new, [.insertTail 7, .insert 0 5], rfl, .cons (m := ⟨⟨[some ⟨7, none⟩]⟩, some 0, 1⟩)
      ⟨by decide, 0, by decide +kernel⟩ (.cons ⟨by decide, 0, by decide +kernel⟩ (.nil _))⟩
  obtain ⟨howned, t, ht⟩ := destroyed_of_reachable hs
  exact ⟨_, t, rfl, howned, ht⟩

end CppUtils.LinkedList
