import CppUtils.Proof.SkipListSearch

/-!
# Well-formed skip lists

`Leveled s l` says that the nodes `l` are sorted and that level `i` links those of them that are
high enough; `WellFormed s l`, which the operations keep, also that the heap holds the head and the
nodes `l` and nothing else. Levels strictly above `_curLevel` are empty; level `_curLevel` itself
need not be.
-/

namespace CppUtils.SkipList

open LinkedMemory SortedKeys

variable {K V : Type}

def onLevel (i : Nat) (l : List (Entry K V)) : List (Entry K V) := l.filter fun e => i < e.level

theorem mem_onLevel {i : Nat} {l : List (Entry K V)} {e : Entry K V} :
    e ∈ onLevel i l ↔ e ∈ l ∧ i < e.level := by
  simp [onLevel]

theorem onLevel_append (i : Nat) (l l' : List (Entry K V)) :
    onLevel i (l ++ l') = onLevel i l ++ onLevel i l' := List.filter_append _ _

theorem onLevel_cons_of_lt {e : Entry K V} {i : Nat} (hi : i < e.level) (l : List (Entry K V)) :
    onLevel i (e :: l) = e :: onLevel i l := List.filter_cons_of_pos (by simpa using hi)

theorem onLevel_cons_of_le {e : Entry K V} {i : Nat} (hi : e.level ≤ i) (l : List (Entry K V)) :
    onLevel i (e :: l) = onLevel i l := List.filter_cons_of_neg (by simpa using hi)

theorem onLevel_succ_sublist (i : Nat) (l : List (Entry K V)) :
    (onLevel (i + 1) l).Sublist (onLevel i l) := by
  refine List.monotone_filter_right l fun e he => ?_
  simp only [decide_eq_true_eq] at he ⊢
  omega

/-- The part of a node that linking does not change. -/
def Node.shape (n : Node K V) : K × V × Nat × Nat := (n.k, n.v, n.level, n.next.length)

/-- The two states differ in links only. -/
structure SameNodes (s t : SkipList K V) : Prop where
  maxLevel : t.maxLevel = s.maxLevel
  curLevel : t.curLevel = s.curLevel
  head : t.head = s.head
  counts : t.counts = s.counts
  shape : ∀ p, (t.heap.read p).map Node.shape = (s.heap.read p).map Node.shape

theorem SameNodes.refl (s : SkipList K V) : SameNodes s s := ⟨rfl, rfl, rfl, rfl, fun _ => rfl⟩

theorem SameNodes.trans {s t u : SkipList K V} (h : SameNodes s t) (h' : SameNodes t u) :
    SameNodes s u where
  maxLevel := h'.maxLevel.trans h.maxLevel
  curLevel := h'.curLevel.trans h.curLevel
  head := h'.head.trans h.head
  counts := h'.counts.trans h.counts
  shape := fun p => (h'.shape p).trans (h.shape p)

theorem nextAt_eq_some {s : SkipList K V} {i p : Nat} {q : Option Nat} :
    s.nextAt i p = some q ↔ ∃ n, s.heap.read p = some n ∧ n.next[i]? = some q := by
  rw [nextAt, Option.bind_eq_some_iff]

theorem isSome_nextAt {s : SkipList K V} {i p n : Nat} {k : K} {v : V} {level : Nat}
    (hshape : (s.heap.read p).map Node.shape = some (k, v, level, n)) (hi : i < n) :
    (s.nextAt i p).isSome := by
  obtain ⟨node, hread, heq⟩ := Option.map_eq_some_iff.mp hshape
  simp only [Node.shape, Prod.mk.injEq] at heq
  rw [nextAt, hread, Option.bind_some, List.getElem?_eq_getElem (heq.2.2.2 ▸ hi)]
  rfl

/-- An assignment to a link changes that link. -/
theorem exists_setNext {s : SkipList K V} {i p : Nat} {r : Option Nat}
    (hp : s.nextAt i p = some r) (q : Option Nat) :
    ∃ t, s.setNext i p q = some t ∧ SameNodes s t ∧ t.nextAt i p = some q ∧
      ∀ j y, j ≠ i ∨ y ≠ p → t.nextAt j y = s.nextAt j y := by
  obtain ⟨n, hread, hnext⟩ := nextAt_eq_some.mp hp
  have hi : i < n.next.length := (List.getElem?_eq_some_iff.mp hnext).1
  have hlt := Memory.lt_fresh_of_read hread
  refine ⟨{ s with heap := s.heap.write p { n with next := n.next.set i q } }, ?_,
    ⟨rfl, rfl, rfl, rfl, fun y => ?_⟩, ?_, ?_⟩
  · rw [setNext, hread]
    exact if_pos hi
  · by_cases hy : y = p
    · rw [hy, Memory.read_write_self hlt, hread]
      simp [Node.shape]
    · rw [Memory.read_write_of_ne hy]
  · exact nextAt_eq_some.mpr ⟨_, Memory.read_write_self hlt, List.getElem?_set_self hi⟩
  · intro j y hne
    by_cases hy : y = p
    · have hj : j ≠ i := hne.resolve_right (not_not.mpr hy)
      rw [nextAt, nextAt, hy, Memory.read_write_self hlt, hread, Option.bind_some, Option.bind_some,
        List.getElem?_set_ne hj.symm]
    · rw [nextAt, nextAt, Memory.read_write_of_ne hy]

section WellFormed

variable [LinearOrder K]

/-- The nodes `l` are sorted, and each stands on the levels below its own. -/
structure Leveled (s : SkipList K V) (l : List (Entry K V)) : Prop where
  linked : ∀ i ≤ s.maxLevel, Linked (s.nextAt i) s.head ((onLevel i l).map Entry.addr)
  sorted : Sorted Entry.k l
  shape : ∀ e ∈ l, (s.heap.read e.addr).map Node.shape = some (e.k, e.v, e.level, e.level + 1)
  head_shape : ∃ k v level,
    (s.heap.read s.head).map Node.shape = some (k, v, level, s.maxLevel + 1)
  level_pos : ∀ e ∈ l, 1 ≤ e.level
  level_le : ∀ e ∈ l, e.level ≤ s.curLevel + 1
  curLevel_le : s.curLevel ≤ s.maxLevel
  counts_eq : s.counts = l.length

/-- Beyond that no node has a level above `_maxLevel`, its unused last link is null, and the heap
holds nothing else. -/
structure WellFormed (s : SkipList K V) (l : List (Entry K V)) : Prop where
  linked : ∀ i ≤ s.maxLevel, Linked (s.nextAt i) s.head ((onLevel i l).map Entry.addr)
  sorted : Sorted Entry.k l
  shape : ∀ e ∈ l, (s.heap.read e.addr).map Node.shape = some (e.k, e.v, e.level, e.level + 1)
  top : ∀ e ∈ l, s.nextAt e.level e.addr = some none
  head_shape : ∃ k v level,
    (s.heap.read s.head).map Node.shape = some (k, v, level, s.maxLevel + 1)
  only : ∀ p n, s.heap.read p = some n → p = s.head ∨ p ∈ l.map Entry.addr
  nodup : (s.head :: l.map Entry.addr).Nodup
  level_mem : ∀ e ∈ l, 1 ≤ e.level ∧ e.level ≤ s.maxLevel
  level_le : ∀ e ∈ l, e.level ≤ s.curLevel + 1
  curLevel_le : s.curLevel ≤ s.maxLevel
  counts_eq : s.counts = l.length

variable {s : SkipList K V} {l : List (Entry K V)} {key : K}

theorem wellFormed_new [Inhabited K] [Inhabited V] (maxLevel : Nat) :
    (new maxLevel : SkipList K V).WellFormed [] where
  linked := by
    intro i hi
    refine nextAt_eq_some.mpr ⟨_, rfl, ?_⟩
    exact List.getElem?_replicate_of_lt (Nat.lt_succ_of_le hi)
  sorted := List.Pairwise.nil
  shape := by simp
  top := by simp
  head_shape := ⟨default, default, maxLevel, by simp [new, Memory.read, Memory.alloc, Memory.empty,
    createNode, Node.shape]⟩
  only := by
    intro p n hread
    have hlt := Memory.lt_fresh_of_read hread
    exact Or.inl (Nat.lt_one_iff.mp hlt)
  nodup := List.nodup_singleton _
  level_mem := by simp
  level_le := by simp
  curLevel_le := Nat.zero_le _
  counts_eq := rfl

theorem WellFormed.leveled (h : s.WellFormed l) : s.Leveled l where
  linked := h.linked
  sorted := h.sorted
  shape := h.shape
  head_shape := h.head_shape
  level_pos := fun e he => (h.level_mem e he).1
  level_le := h.level_le
  curLevel_le := h.curLevel_le
  counts_eq := h.counts_eq

theorem Leveled.onLevel_zero (h : s.Leveled l) : onLevel 0 l = l :=
  List.filter_eq_self.mpr fun e he => decide_eq_true (h.level_pos e he)

theorem Leveled.nodup (h : s.Leveled l) : (s.head :: l.map Entry.addr).Nodup := by
  have hnodup := (h.linked 0 (Nat.zero_le _)).nodup
  rwa [h.onLevel_zero] at hnodup

theorem Leveled.onLevel_eq_nil (h : s.Leveled l) {i : Nat} (hi : s.curLevel < i) :
    onLevel i l = [] := by
  refine List.filter_eq_nil_iff.mpr fun e he => ?_
  have hle := h.level_le e he
  simp only [decide_eq_true_eq]
  omega

theorem Leveled.read_eq (h : s.Leveled l) {e : Entry K V} (he : e ∈ l) :
    ∃ n, s.heap.read e.addr = some n ∧ n.k = e.k ∧ n.v = e.v ∧ n.level = e.level ∧
      n.next.length = e.level + 1 := by
  obtain ⟨n, hread, hshape⟩ := Option.map_eq_some_iff.mp (h.shape e he)
  simp only [Node.shape, Prod.mk.injEq] at hshape
  exact ⟨n, hread, hshape⟩

theorem Leveled.levels (h : s.Leveled l) : s.Levels s.maxLevel fun i => onLevel i l where
  linked := h.linked
  sorted := fun i _ => h.sorted.sublist List.filter_sublist
  sublist := fun i _ => onLevel_succ_sublist i l
  key_eq := fun i _ e he => by
    obtain ⟨n, hread, hk, -⟩ := h.read_eq (mem_onLevel.mp he).1
    rw [hread, Option.map_some, hk]

theorem Leveled.nodup_onLevel (h : s.Leveled l) (i : Nat) :
    (s.head :: (onLevel i l).map Entry.addr).Nodup :=
  h.nodup.sublist ((List.filter_sublist.map Entry.addr).cons_cons s.head)

theorem Leveled.next_pre (h : s.Leveled l) {i : Nat} (hi : i ≤ s.maxLevel) (key : K) :
    s.nextAt i (s.pre (onLevel i l) key)
      = some ((atLeast Entry.k key (onLevel i l)).map Entry.addr).head? :=
  h.levels.next_pre hi key

theorem pre_eq_head (s : SkipList K V) {level : List (Entry K V)} (hlevel : level = []) (key : K) :
    s.pre level key = s.head := by
  rw [hlevel]
  rfl

/-- The last node below the key is the head or has a smaller key. -/
theorem pre_mem (s : SkipList K V) (level : List (Entry K V)) (key : K) :
    s.pre level key = s.head ∨ ∃ e ∈ level, e.k < key ∧ s.pre level key = e.addr := by
  have hmem := getLastD_mem_cons s.head ((below Entry.k key level).map Entry.addr)
  rcases List.mem_cons.mp hmem with heq | hmem
  · exact Or.inl heq
  · obtain ⟨e, he, heq⟩ := List.mem_map.mp hmem
    obtain ⟨helevel, hlt⟩ := mem_below.mp he
    exact Or.inr ⟨e, helevel, hlt, heq.symm⟩

theorem pre_cases (s : SkipList K V) {level : List (Entry K V)} (hlevel : Sorted Entry.k level)
    (key : K) : (s.pre level key = s.head ∧ ∀ b ∈ level, key ≤ b.k) ∨
      ∃ a ∈ level, a.k < key ∧ s.pre level key = a.addr ∧ ∀ b ∈ level, b.k < key → b.k ≤ a.k := by
  rcases List.eq_nil_or_concat (below Entry.k key level) with hnil | ⟨init, a, hconcat⟩
  · refine Or.inl ⟨by rw [pre, hnil]; rfl, fun b hb => ?_⟩
    by_contra hlt
    have hmem : b ∈ below Entry.k key level := mem_below.mpr ⟨hb, not_le.mp hlt⟩
    rw [hnil] at hmem
    cases hmem
  · rw [List.concat_eq_append] at hconcat
    have ha : a ∈ below Entry.k key level := by rw [hconcat]; simp
    have hsorted : Sorted Entry.k (init ++ [a]) := hconcat ▸ hlevel.sublist List.filter_sublist
    refine Or.inr ⟨a, (mem_below.mp ha).1, (mem_below.mp ha).2, ?_, fun b hb hlt => ?_⟩
    · rw [pre, hconcat, List.map_append, List.map_cons, List.map_nil, List.getLastD_concat]
    · have hmem : b ∈ init ++ [a] := hconcat ▸ mem_below.mpr ⟨hb, hlt⟩
      rcases List.mem_append.mp hmem with hinit | hlast
      · exact ((List.pairwise_append.mp hsorted).2.2 b hinit a (List.mem_singleton_self a)).le
      · rw [List.mem_singleton.mp hlast]

theorem pre_mem_cons (s : SkipList K V) (l : List (Entry K V)) (i : Nat) (key : K) :
    s.pre (onLevel i l) key ∈ s.head :: (onLevel i l).map Entry.addr := by
  rcases pre_mem s (onLevel i l) key with heq | ⟨e, he, -, heq⟩
  · rw [heq]
    exact List.mem_cons_self
  · rw [heq]
    exact List.mem_cons_of_mem _ (List.mem_map_of_mem he)

theorem Leveled.eq_of_addr_eq (h : s.Leveled l) {a b : Entry K V} (ha : a ∈ l) (hb : b ∈ l)
    (heq : a.addr = b.addr) : a = b :=
  List.inj_on_of_nodup_map (List.nodup_cons.mp h.nodup).2 ha hb heq

theorem Leveled.addr_ne_head (h : s.Leveled l) {e : Entry K V} (he : e ∈ l) :
    e.addr ≠ s.head :=
  fun heq => (List.nodup_cons.mp h.nodup).1 (heq ▸ List.mem_map_of_mem he)

/-- A node that a level does not link is no predecessor there. -/
theorem Leveled.addr_ne_pre (h : s.Leveled l) {e : Entry K V} (he : e ∈ l) {i : Nat}
    (hi : e.level ≤ i) (key : K) : e.addr ≠ s.pre (onLevel i l) key := by
  intro heq
  rcases pre_mem s (onLevel i l) key with hhead | ⟨b, hb, -, haddr⟩
  · exact h.addr_ne_head he (heq.trans hhead)
  · obtain ⟨hbl, hlt⟩ := mem_onLevel.mp hb
    rw [← h.eq_of_addr_eq he hbl (heq.trans haddr)] at hlt
    exact absurd hlt (not_lt.mpr hi)

theorem Leveled.read_head (h : s.Leveled l) :
    ∃ n, s.heap.read s.head = some n ∧ n.next.length = s.maxLevel + 1 := by
  obtain ⟨k, v, level, hshape⟩ := h.head_shape
  obtain ⟨n, hread, heq⟩ := Option.map_eq_some_iff.mp hshape
  simp only [Node.shape, Prod.mk.injEq] at heq
  exact ⟨n, hread, heq.2.2.2⟩

theorem Leveled.locate_eq (h : s.Leveled l) (key : K) :
    ∃ update, s.locate key = some (s.pre (onLevel 0 l) key, update) ∧
      update.length = s.maxLevel + 1 ∧
      ∀ i ≤ s.curLevel, update[i]? = some (some (s.pre (onLevel i l) key)) :=
  (h.levels.mono h.curLevel_le).locate_eq h.curLevel_le key

/-- The comparison after the search finds the key if it is there. -/
theorem Leveled.keyEq_of_mem (h : s.Leveled l) {e : Entry K V} (he : e ∈ l)
    (hkey : e.k = key) :
    s.nextAt 0 (s.pre (onLevel 0 l) key) = some (some e.addr) ∧
      s.keyEq key (some e.addr) = some true := by
  obtain ⟨rest, hrest⟩ := h.sorted.atLeast_eq_cons he hkey
  obtain ⟨n, hread, hk, -⟩ := h.read_eq he
  refine ⟨?_, ?_⟩
  · rw [h.next_pre (Nat.zero_le _), h.onLevel_zero, hrest]
    rfl
  · rw [keyEq, hread, Option.map_some, hk, hkey, decide_eq_true rfl]

theorem Leveled.keyEq_of_not_mem (h : s.Leveled l) (hkey : ∀ e ∈ l, e.k ≠ key) :
    ∃ p, s.nextAt 0 (s.pre (onLevel 0 l) key) = some p ∧ s.keyEq key p = some false := by
  have hlevel : ∀ e ∈ onLevel 0 l, e.k ≠ key := by rwa [h.onLevel_zero]
  exact ⟨_, h.next_pre (Nat.zero_le _) key, h.levels.keyEq_of_not_mem hlevel⟩

theorem Leveled.find_of_mem (h : s.Leveled l) {e : Entry K V} (he : e ∈ l)
    (hkey : e.k = key) : s.find key = some (some e.addr) := by
  obtain ⟨update, hlocate, -⟩ := h.locate_eq key
  obtain ⟨hnext, heq⟩ := h.keyEq_of_mem he hkey
  simp only [find, findPre, hlocate, Option.map_some, Option.bind_eq_bind, Option.bind_some, hnext,
    findCheck, heq, if_true]

theorem Leveled.find_of_not_mem (h : s.Leveled l) (hkey : ∀ e ∈ l, e.k ≠ key) :
    s.find key = some none := by
  obtain ⟨update, hlocate, -⟩ := h.locate_eq key
  obtain ⟨p, hnext, heq⟩ := h.keyEq_of_not_mem hkey
  simp only [find, findPre, hlocate, Option.map_some, Option.bind_eq_bind, Option.bind_some, hnext,
    findCheck, heq]
  rfl

/-! ### The live nodes -/

theorem WellFormed.isSome_read (h : s.WellFormed l) {e : Entry K V} (he : e ∈ l) :
    (s.heap.read e.addr).isSome = true := by
  obtain ⟨n, hread, -⟩ := h.leveled.read_eq he
  rw [hread]
  rfl

theorem WellFormed.isSome_read_head (h : s.WellFormed l) :
    (s.heap.read s.head).isSome = true := by
  obtain ⟨n, hread, -⟩ := h.leveled.read_head
  rw [hread]
  rfl

theorem WellFormed.isSome_nextAt_zero (h : s.WellFormed l) {p : Nat} :
    (s.nextAt 0 p).isSome = true ↔ (s.heap.read p).isSome = true := by
  constructor
  · intro hnext
    obtain ⟨q, hq⟩ := Option.isSome_iff_exists.mp hnext
    obtain ⟨n, hread, -⟩ := nextAt_eq_some.mp hq
    rw [hread]
    rfl
  · intro hlive
    obtain ⟨n, hread⟩ := Option.isSome_iff_exists.mp hlive
    rcases h.only p n hread with rfl | hmem
    · obtain ⟨k, v, level, hshape⟩ := h.head_shape
      exact isSome_nextAt hshape (Nat.succ_pos _)
    · obtain ⟨e, he, rfl⟩ := List.mem_map.mp hmem
      exact isSome_nextAt (h.shape e he) (Nat.succ_pos _)

theorem WellFormed.mem_of_next_zero (h : s.WellFormed l) {p q : Nat}
    (hnext : s.nextAt 0 p = some (some q)) : ∃ e ∈ l, e.addr = q := by
  obtain ⟨n, hread, -⟩ := nextAt_eq_some.mp hnext
  have hlinked := h.linked 0 (Nat.zero_le _)
  rw [h.leveled.onLevel_zero] at hlinked
  obtain ⟨i, hi⟩ := List.getElem?_of_mem (List.mem_cons.mpr (h.only p n hread))
  have hafter := Option.some.inj (hnext.symm.trans (hlinked.next_getElem hi))
  exact List.mem_map.mp (List.mem_of_getElem? hafter.symm)

end WellFormed

end CppUtils.SkipList
