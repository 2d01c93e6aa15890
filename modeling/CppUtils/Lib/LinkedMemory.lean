import Mathlib.Data.List.Infix
import Mathlib.Data.List.InsertIdx
import Mathlib.Data.List.Nodup

/-!
# Singly linked chains in memory

A linked structure is seen here only through `next`, which reads the successor field of a node: the
outer `none` is a read that memory does not allow (a freed node, an index past the array), the inner
`none` is the null pointer. `Linked next a l` says that the nodes after `a` are exactly `l` and that
the chain is null terminated, so nothing on it is dangling.

Splicing a node in and unlinking one are the two ways such a chain changes. Both are stated for any
update that agrees with the old memory off the predecessor, so that a caller does not have to say
how its memory is stored.
-/

namespace LinkedMemory

variable {α : Type*}

/-- From `a`, following `next` visits the nodes `l` in order. -/
def Segment (next : α → Option (Option α)) : α → List α → Prop
  | _, [] => True
  | a, b :: l => next a = some (some b) ∧ Segment next b l

/-- From `a`, following `next` visits the nodes `l` in order and then meets null. -/
def Linked (next : α → Option (Option α)) : α → List α → Prop
  | a, [] => next a = some none
  | a, b :: l => next a = some (some b) ∧ Linked next b l

/-- The same, starting at a pointer rather than after a node. -/
def Chain (next : α → Option (Option α)) : Option α → List α → Prop
  | none, l => l = []
  | some a, l => ∃ rest, l = a :: rest ∧ Linked next a rest

variable {next next' : α → Option (Option α)} {a x : α} {l l₁ l₂ : List α}

theorem linked_iff_chain : Linked next a l ↔ ∃ p, next a = some p ∧ Chain next p l := by
  cases l with
  | nil =>
      constructor
      · intro h
        exact ⟨none, h, rfl⟩
      · rintro ⟨_ | b, hnext, hchain⟩
        · exact hnext
        · obtain ⟨rest, heq, -⟩ := hchain
          cases heq
  | cons b l =>
      constructor
      · rintro ⟨hnext, hrest⟩
        exact ⟨some b, hnext, l, rfl, hrest⟩
      · rintro ⟨_ | c, hnext, hchain⟩
        · cases hchain
        · obtain ⟨rest, heq, hrest⟩ := hchain
          cases heq
          exact ⟨hnext, hrest⟩

theorem Chain.eq_head {p : Option α} (h : Chain next p l) : p = l.head? := by
  cases p with
  | none =>
      cases h
      rfl
  | some a =>
      obtain ⟨rest, rfl, -⟩ := h
      rfl

theorem Linked.next_eq (h : Linked next a l) : next a = some l.head? := by
  cases l with
  | nil => exact h
  | cons b l => exact h.1

theorem Linked.next_getElem (h : Linked next a l) {k : Nat} {b : α} (hk : (a :: l)[k]? = some b) :
    next b = some l[k]? := by
  induction l generalizing a k with
  | nil =>
      cases k with
      | zero =>
          obtain rfl := Option.some.inj hk
          exact h
      | succ k => cases hk
  | cons c l ih =>
      cases k with
      | zero =>
          obtain rfl := Option.some.inj hk
          exact h.1
      | succ k => exact ih h.2 hk

/-- A chain that ends does not come back to a node. -/
theorem Linked.nodup (h : Linked next a l) : (a :: l).Nodup := by
  induction l generalizing a with
  | nil => exact List.nodup_singleton a
  | cons b l ih =>
      have hrest := ih h.2
      refine List.nodup_cons.mpr ⟨fun hmem => ?_, hrest⟩
      obtain ⟨k, hk⟩ := List.getElem?_of_mem hmem
      have hnext : next a = some (b :: l)[k + 1]? :=
        h.next_getElem (by rw [List.getElem?_cons_succ]; exact hk)
      have hsame : (b :: l)[0]? = (b :: l)[k + 1]? :=
        Option.some.inj (h.1.symm.trans hnext)
      have hzero : 0 < (b :: l).length := Nat.zero_lt_succ _
      exact absurd ((List.getElem?_inj hzero hrest).mp hsame) (Nat.succ_ne_zero k).symm

/-- In a chain without repetitions a node has one predecessor. -/
theorem Linked.eq_of_next_eq (h : Linked next a l) (hnodup : (a :: l).Nodup) {b c : α}
    (hb : b ∈ a :: l) (hc : c ∈ a :: l) (hbx : next b = some (some x))
    (hcx : next c = some (some x)) : b = c := by
  obtain ⟨i, hi⟩ := List.getElem?_of_mem hb
  obtain ⟨j, hj⟩ := List.getElem?_of_mem hc
  have hix : l[i]? = some x := Option.some.inj ((h.next_getElem hi).symm.trans hbx)
  have hjx : l[j]? = some x := Option.some.inj ((h.next_getElem hj).symm.trans hcx)
  have hilt := (List.getElem?_eq_some_iff.mp hix).1
  obtain rfl : i = j :=
    (List.getElem?_inj hilt (List.nodup_cons.mp hnodup).2).mp (hix.trans hjx.symm)
  exact Option.some.inj (hi.symm.trans hj)

theorem linked_append :
    Linked next a (l₁ ++ l₂) ↔ Segment next a l₁ ∧ Linked next (l₁.getLastD a) l₂ := by
  induction l₁ generalizing a with
  | nil => simp [Segment]
  | cons b l₁ ih =>
      rw [List.cons_append, List.getLastD_cons, Linked, Segment, ih, and_assoc]

theorem Segment.congr (h : Segment next a l) (hsame : ∀ y ∈ (a :: l).dropLast, next' y = next y) :
    Segment next' a l := by
  induction l generalizing a with
  | nil => trivial
  | cons b l ih =>
      rw [List.dropLast_cons_cons] at hsame
      refine ⟨(hsame a List.mem_cons_self).trans h.1, ih h.2 ?_⟩
      intro y hy
      exact hsame y (List.mem_cons_of_mem _ hy)

theorem Linked.congr (h : Linked next a l) (hsame : ∀ y ∈ a :: l, next' y = next y) :
    Linked next' a l := by
  induction l generalizing a with
  | nil => exact (hsame a List.mem_cons_self).trans h
  | cons b l ih =>
      refine ⟨(hsame a List.mem_cons_self).trans h.1, ih h.2 ?_⟩
      intro y hy
      exact hsame y (List.mem_cons_of_mem _ hy)

theorem Chain.congr {p : Option α} (h : Chain next p l) (hsame : ∀ y ∈ l, next' y = next y) :
    Chain next' p l := by
  cases p with
  | none => exact h
  | some a =>
      obtain ⟨rest, rfl, hrest⟩ := h
      exact ⟨rest, rfl, hrest.congr hsame⟩

theorem getLastD_mem_cons (a : α) (l : List α) : l.getLastD a ∈ a :: l := by
  rw [← List.getLast_eq_getLastD (h := List.cons_ne_nil a l)]
  exact List.getLast_mem _

/-- In a chain without repetitions the last node does not occur earlier. -/
theorem ne_getLastD_of_mem_dropLast (hnodup : (a :: l).Nodup) {y : α}
    (hy : y ∈ (a :: l).dropLast) : y ≠ l.getLastD a := by
  rw [← List.getLast_eq_getLastD (h := List.cons_ne_nil a l)]
  rw [← List.dropLast_append_getLast (List.cons_ne_nil a l)] at hnodup
  intro heq
  exact (List.nodup_append.mp hnodup).2.2 y hy _ List.mem_cons_self heq

/-! ### The two updates -/

/-- **Splicing.** A new node whose successor is the old successor of its predecessor, once the
predecessor points to it, stands between the two parts of the chain. -/
theorem Linked.splice (h : Linked next a (l₁ ++ l₂)) (hnodup : (a :: (l₁ ++ l₂)).Nodup)
    (hpred : next' (l₁.getLastD a) = some (some x))
    (hnew : next' x = next (l₁.getLastD a))
    (hsame : ∀ y ∈ a :: (l₁ ++ l₂), y ≠ l₁.getLastD a → next' y = next y) :
    Linked next' a (l₁ ++ x :: l₂) := by
  obtain ⟨hleft, hright⟩ := linked_append.mp h
  rw [← List.cons_append] at hnodup
  have hnodupLeft : (a :: l₁).Nodup := hnodup.of_append_left
  refine linked_append.mpr ⟨hleft.congr ?_, hpred, ?_⟩
  · intro y hy
    refine hsame y ?_ (ne_getLastD_of_mem_dropLast hnodupLeft hy)
    exact List.mem_append_left l₂ (List.mem_of_mem_dropLast hy)
  · cases l₂ with
    | nil => exact hnew.trans hright
    | cons b l₂ =>
        refine ⟨hnew.trans hright.1, hright.2.congr ?_⟩
        intro y hy
        refine hsame y (List.mem_append_right (a :: l₁) hy) ?_
        intro heq
        exact (List.nodup_append.mp hnodup).2.2 _ (getLastD_mem_cons a l₁) _ hy heq.symm

/-- **Unlinking.** Once the predecessor of a node points to its successor, the node is off the
chain, whatever its own fields hold. -/
theorem Linked.unlink (h : Linked next a (l₁ ++ x :: l₂)) (hnodup : (a :: (l₁ ++ x :: l₂)).Nodup)
    (hpred : next' (l₁.getLastD a) = next x)
    (hsame : ∀ y ∈ a :: (l₁ ++ l₂), y ≠ l₁.getLastD a → next' y = next y) :
    Linked next' a (l₁ ++ l₂) := by
  obtain ⟨hleft, -, hright⟩ := linked_append.mp h
  rw [← List.cons_append] at hnodup
  refine linked_append.mpr ⟨hleft.congr ?_, ?_⟩
  · intro y hy
    refine hsame y ?_ (ne_getLastD_of_mem_dropLast hnodup.of_append_left hy)
    exact List.mem_append_left l₂ (List.mem_of_mem_dropLast hy)
  · cases l₂ with
    | nil => exact hpred.trans hright
    | cons b l₂ =>
        refine ⟨hpred.trans hright.1, hright.2.congr ?_⟩
        intro y hy
        refine hsame y (List.mem_append_right (a :: l₁) hy) ?_
        intro heq
        refine (List.nodup_append.mp hnodup).2.2 _ (getLastD_mem_cons a l₁) _ ?_ heq.symm
        exact List.mem_cons_of_mem _ hy

theorem getLastD_take (a : α) (l : List α) {k : Nat} (hk : k ≤ l.length) :
    (a :: l)[k]? = some ((l.take k).getLastD a) := by
  cases k with
  | zero => rfl
  | succ k =>
      rw [List.getElem?_cons_succ, List.getLastD_eq_getLast?, List.getLast?_take]
      simp [List.getElem?_eq_getElem hk]

theorem insertIdx_eq_take_append (l : List α) {k : Nat} (hk : k ≤ l.length) :
    l.insertIdx k x = l.take k ++ x :: l.drop k := by
  induction l generalizing k with
  | nil =>
      obtain rfl : k = 0 := by simpa using hk
      rfl
  | cons b l ih =>
      cases k with
      | zero => rfl
      | succ k => simp [ih (Nat.le_of_succ_le_succ hk)]

theorem Linked.splice_at (h : Linked next a l) (hnodup : (a :: l).Nodup) {k : Nat} {b : α}
    (hk : (a :: l)[k]? = some b) (hpred : next' b = some (some x)) (hnew : next' x = next b)
    (hsame : ∀ y ∈ a :: l, y ≠ b → next' y = next y) : Linked next' a (l.insertIdx k x) := by
  have hle : k ≤ l.length := Nat.le_of_lt_succ (List.getElem?_eq_some_iff.mp hk).1
  obtain rfl : (l.take k).getLastD a = b :=
    Option.some.inj ((getLastD_take a l hle).symm.trans hk)
  rw [insertIdx_eq_take_append l hle]
  have hsplit : l.take k ++ l.drop k = l := List.take_append_drop k l
  exact Linked.splice (by rwa [hsplit]) (by rwa [hsplit]) hpred hnew (by rwa [hsplit])

theorem Linked.unlink_at (h : Linked next a l) (hnodup : (a :: l).Nodup) {k : Nat} {b : α}
    (hk : (a :: l)[k]? = some b) (hx : l[k]? = some x) (hpred : next' b = next x)
    (hsame : ∀ y ∈ a :: l, y ≠ b → y ≠ x → next' y = next y) :
    Linked next' a (l.eraseIdx k) := by
  obtain ⟨hlt, rfl⟩ := List.getElem?_eq_some_iff.mp hx
  obtain rfl : (l.take k).getLastD a = b :=
    Option.some.inj ((getLastD_take a l (Nat.le_of_lt hlt)).symm.trans hk)
  have hsplit : l.take k ++ l[k] :: l.drop (k + 1) = l := by
    rw [List.getElem_cons_drop, List.take_append_drop]
  rw [List.eraseIdx_eq_take_drop_succ]
  rw [← hsplit] at h hnodup
  refine h.unlink hnodup hpred fun y hy hne => hsame y ?_ hne ?_
  · rw [← hsplit]
    simp only [List.mem_cons, List.mem_append] at hy ⊢
    tauto
  · rintro rfl
    simp only [List.nodup_cons, List.nodup_append, List.mem_cons, List.mem_append] at hnodup hy
    grind

/-! ### The two traversals -/

/-- Take `n` steps along a chain; a step from null fails. -/
def follow (next : α → Option (Option α)) : Nat → Option α → Option (Option α)
  | 0, p => some p
  | _ + 1, none => none
  | n + 1, some a => (next a).bind (follow next n)

/-- Advance while the successor passes the test. The fuel bounds the number of nodes visited; a read
that memory does not allow fails. -/
def walkWhile (next : α → Option (Option α)) (test : α → Option Bool) : Nat → α → Option α
  | 0, _ => none
  | fuel + 1, a =>
      match next a with
      | none => none
      | some none => some a
      | some (some b) =>
          match test b with
          | none => none
          | some true => walkWhile next test fuel b
          | some false => some a

/-- `n` steps lead to the node at position `n`, to null just past the end, and fail beyond. -/
theorem follow_chain {p : Option α} (h : Chain next p l) {n : Nat} (hn : n ≤ l.length) :
    follow next n p = some l[n]? := by
  induction n generalizing p l with
  | zero => rw [follow, h.eq_head, List.head?_eq_getElem?]
  | succ n ih =>
      cases p with
      | none =>
          cases h
          simp at hn
      | some a =>
          obtain ⟨rest, rfl, hrest⟩ := h
          obtain ⟨q, hq, hchain⟩ := linked_iff_chain.mp hrest
          rw [follow, hq, Option.bind_some, ih hchain (by simpa using hn), List.getElem?_cons_succ]

theorem follow_chain_eq_none {p : Option α} (h : Chain next p l) {n : Nat} (hn : l.length < n) :
    follow next n p = none := by
  induction n generalizing p l with
  | zero => exact absurd hn (Nat.not_lt_zero _)
  | succ n ih =>
      cases p with
      | none => rfl
      | some a =>
          obtain ⟨rest, rfl, hrest⟩ := h
          obtain ⟨q, hq, hchain⟩ := linked_iff_chain.mp hrest
          rw [follow, hq, Option.bind_some]
          exact ih hchain (Nat.lt_of_succ_lt_succ hn)

/-- On a terminated chain the walk ends, at the last node of the prefix that passes the test. The
test may be known on what the nodes stand for. -/
theorem walkWhile_linked {β : Type*} {node : β → α} {l : List β} {test : α → Option Bool}
    {p : β → Bool} (h : Linked next a (l.map node)) (htest : ∀ y ∈ l, test (node y) = some (p y))
    {fuel : Nat} (hfuel : l.length < fuel) :
    walkWhile next test fuel a = some (((l.takeWhile p).map node).getLastD a) := by
  induction l generalizing a fuel with
  | nil =>
      obtain ⟨fuel, rfl⟩ : ∃ k, fuel = k + 1 := ⟨fuel - 1, by omega⟩
      rw [walkWhile, h.next_eq]
      rfl
  | cons b l ih =>
      obtain ⟨fuel, rfl⟩ : ∃ k, fuel = k + 1 := ⟨fuel - 1, by omega⟩
      rw [walkWhile, h.next_eq]
      simp only [List.map_cons, List.head?_cons, htest b List.mem_cons_self]
      cases hb : p b with
      | true =>
          rw [List.takeWhile_cons_of_pos hb, List.map_cons, List.getLastD_cons]
          refine ih h.2 (fun y hy => htest y (List.mem_cons_of_mem _ hy)) ?_
          simpa using hfuel
      | false =>
          rw [List.takeWhile_cons_of_neg (by simp [hb])]
          rfl

/-- The first node from `p` on that passes the test. -/
def scan (next : α → Option (Option α)) (test : α → Option Bool) :
    Nat → Option α → Option (Option α)
  | 0, _ => none
  | _ + 1, none => some none
  | fuel + 1, some a =>
      match test a with
      | none => none
      | some true => some (some a)
      | some false => (next a).bind (scan next test fuel)

theorem scan_chain {β : Type*} {node : β → α} {l : List β} {test : α → Option Bool}
    {p : β → Bool} {start : Option α} (h : Chain next start (l.map node))
    (htest : ∀ y ∈ l, test (node y) = some (p y)) {fuel : Nat} (hfuel : l.length < fuel) :
    scan next test fuel start = some ((l.find? p).map node) := by
  induction l generalizing start fuel with
  | nil =>
      obtain ⟨fuel, rfl⟩ : ∃ k, fuel = k + 1 := ⟨fuel - 1, by omega⟩
      rw [h.eq_head]
      rfl
  | cons b l ih =>
      obtain ⟨fuel, rfl⟩ : ∃ k, fuel = k + 1 := ⟨fuel - 1, by omega⟩
      obtain rfl : start = some (node b) := h.eq_head
      obtain ⟨_, heq, hlinked⟩ := h
      obtain rfl := (List.cons.inj heq).2
      rw [scan, htest b List.mem_cons_self]
      cases hb : p b with
      | true =>
          rw [List.find?_cons_of_pos hb]
          rfl
      | false =>
          obtain ⟨q, hq, hchain⟩ := linked_iff_chain.mp hlinked
          rw [List.find?_cons_of_neg (by simp [hb]), hq]
          refine ih hchain (fun y hy => htest y (List.mem_cons_of_mem _ hy)) ?_
          simpa using hfuel

end LinkedMemory
