import CppUtils.SkipList
import CppUtils.Lib.SortedKeys
import Mathlib.Data.List.Perm.Subperm

/-!
# The search of the skip list

On levels that are sorted and lie one inside the other, the descending search stops on each level at
the last node below the key. What carries it is that where the search leaves one level it stands, on
the level below, after a prefix of smaller keys (`StartsAt`): the walk there passes the rest of
them.
-/

namespace CppUtils.SkipList

open LinkedMemory SortedKeys

variable {K V : Type}

/-- A node as it stands on the levels. -/
structure Entry (K V : Type) where
  addr : Nat
  k : K
  v : V
  level : Nat

section Search

variable [LinearOrder K]

/-- The chains of the levels `0..n`. -/
structure Levels (s : SkipList K V) (n : Nat) (lev : Nat → List (Entry K V)) : Prop where
  linked : ∀ i ≤ n, Linked (s.nextAt i) s.head ((lev i).map Entry.addr)
  sorted : ∀ i ≤ n, Sorted Entry.k (lev i)
  sublist : ∀ i < n, (lev (i + 1)).Sublist (lev i)
  key_eq : ∀ i ≤ n, ∀ e ∈ lev i, (s.heap.read e.addr).map (·.k) = some e.k

/-- The last node of a level below the key, or the head. -/
def pre (s : SkipList K V) (level : List (Entry K V)) (key : K) : Nat :=
  ((below Entry.k key level).map Entry.addr).getLastD s.head

variable {s : SkipList K V} {n : Nat} {lev : Nat → List (Entry K V)} {key : K}

theorem Levels.length_lt (h : s.Levels n lev) {i : Nat} (hi : i ≤ n) :
    (lev i).length < s.heap.fresh + 1 := by
  have hnodup : ((lev i).map Entry.addr).Nodup := by
    refine List.pairwise_map.mpr ((h.sorted i hi).imp_of_mem ?_)
    intro a b ha hb hlt heq
    have hkey := h.key_eq i hi a ha
    rw [heq, h.key_eq i hi b hb] at hkey
    exact hlt.ne' (Option.some.inj hkey)
  have hsubset : (lev i).map Entry.addr ⊆ List.range s.heap.fresh := by
    intro p hp
    obtain ⟨e, he, rfl⟩ := List.mem_map.mp hp
    obtain ⟨n, hread, -⟩ := Option.map_eq_some_iff.mp (h.key_eq i hi e he)
    exact List.mem_range.mpr (Memory.lt_fresh_of_read hread)
  have hle := (hnodup.subperm hsubset).length_le
  rw [List.length_map, List.length_range] at hle
  omega

/-- The node `a` stands on the level after a prefix of keys below the given one. -/
def StartsAt (s : SkipList K V) (level : List (Entry K V)) (key : K) (a : Nat) : Prop :=
  ∃ front rest, level = front ++ rest ∧ (front.map Entry.addr).getLastD s.head = a ∧
    ∀ e ∈ front, e.k < key

theorem startsAt_head (s : SkipList K V) (level : List (Entry K V)) (key : K) :
    s.StartsAt level key s.head :=
  ⟨[], level, rfl, rfl, by simp⟩

/-- Where the search leaves a level, it stands on the level below too. -/
theorem Levels.startsAt_pre (h : s.Levels n lev) {i : Nat} (hi : i < n) :
    s.StartsAt (lev i) key (s.pre (lev (i + 1)) key) := by
  rcases List.eq_nil_or_concat (below Entry.k key (lev (i + 1))) with hnil | ⟨init, e, hconcat⟩
  · rw [pre, hnil]
    exact startsAt_head _ _ _
  · have he : e ∈ below Entry.k key (lev (i + 1)) := by rw [hconcat]; simp
    obtain ⟨hmem, hlt⟩ := mem_below.mp he
    obtain ⟨front, rest, hsplit⟩ := List.append_of_mem ((h.sublist i hi).subset hmem)
    have hsorted := h.sorted i hi.le
    rw [hsplit] at hsorted
    refine ⟨front ++ [e], rest, by rw [hsplit]; simp, ?_, ?_⟩
    · rw [pre, hconcat, List.concat_eq_append, List.map_append, List.map_append]
      simp only [List.map_cons, List.map_nil, List.getLastD_concat]
    · intro b hb
      rcases List.mem_append.mp hb with hb | hb
      · exact ((List.pairwise_append.mp hsorted).2.2 b hb e List.mem_cons_self).trans hlt
      · rw [List.mem_singleton.mp hb]
        exact hlt

theorem Levels.walk_eq (h : s.Levels n lev) {i a : Nat} (hi : i ≤ n)
    (ha : s.StartsAt (lev i) key a) :
    walkWhile (s.nextAt i) (s.keyLt key) (s.heap.fresh + 1) a = some (s.pre (lev i) key) := by
  obtain ⟨front, rest, hsplit, rfl, hfront⟩ := ha
  have hlinked := h.linked i hi
  have hlen := h.length_lt hi
  rw [hsplit, List.map_append] at hlinked
  rw [hsplit, List.length_append] at hlen
  have htest : ∀ e ∈ rest, s.keyLt key e.addr = some (decide (e.k < key)) := by
    intro e he
    have hkey := h.key_eq i hi e (by rw [hsplit]; exact List.mem_append_right _ he)
    obtain ⟨n, hread, hk⟩ := Option.map_eq_some_iff.mp hkey
    rw [keyLt, hread, Option.map_some, hk]
  have hbelow : below Entry.k key (lev i) = front ++ rest.takeWhile fun e => e.k < key := by
    rw [← (h.sorted i hi).takeWhile_eq, hsplit,
      List.takeWhile_append_of_pos (by simpa using hfront)]
  rw [walkWhile_linked (linked_append.mp hlinked).2 htest (by omega), pre, hbelow, List.map_append]
  simp only [List.getLastD_eq_getLast?, List.getLast?_append]
  cases (List.map Entry.addr (rest.takeWhile fun e => e.k < key)).getLast? <;> simp

theorem Levels.search_eq (h : s.Levels n lev) {m : Nat} (hm : m ≤ n + 1) {a : Nat}
    {update : List (Option Nat)} (hupdate : n < update.length)
    (ha : 0 < m → s.StartsAt (lev (m - 1)) key a) :
    ∃ update', s.search key m a update = some (if m = 0 then a else s.pre (lev 0) key, update') ∧
      update'.length = update.length ∧
      (∀ i < m, update'[i]? = some (some (s.pre (lev i) key))) ∧
      ∀ i, m ≤ i → update'[i]? = update[i]? := by
  induction m generalizing a update with
  | zero => exact ⟨update, rfl, rfl, by simp, fun _ _ => rfl⟩
  | succ m ih =>
      have hle : m ≤ n := Nat.le_of_succ_le_succ hm
      have hset : setUpdate update m (s.pre (lev m) key)
          = some (update.set m (some (s.pre (lev m) key))) := by
        rw [setUpdate, if_pos (hle.trans_lt hupdate)]
      have hnext : 0 < m → s.StartsAt (lev (m - 1)) key (s.pre (lev m) key) := by
        intro hpos
        have hstart : s.StartsAt (lev (m - 1)) key (s.pre (lev (m - 1 + 1)) key) :=
          h.startsAt_pre (by omega)
        rwa [Nat.sub_add_cancel hpos] at hstart
      have hlen : n < (update.set m (some (s.pre (lev m) key))).length := by
        rwa [List.length_set]
      obtain ⟨update', hsearch, hlen, hlow, hhigh⟩ := ih (hle.trans (Nat.le_succ n)) hlen hnext
      refine ⟨update', ?_, by rw [hlen, List.length_set], ?_, ?_⟩
      · rw [search]
        simp only [h.walk_eq hle (ha (Nat.succ_pos m)), hset, Option.bind_eq_bind, Option.bind_some,
          hsearch, Nat.succ_ne_zero, if_false]
        split
        · rename_i hzero
          rw [hzero]
        · rfl
      · intro i hi
        by_cases heq : i = m
        · rw [hhigh i (by omega), heq, List.getElem?_set_self (hle.trans_lt hupdate)]
        · exact hlow i (by omega)
      · intro i hi
        rw [hhigh i (by omega), List.getElem?_set_ne (by omega)]

theorem Levels.mono (h : s.Levels n lev) {m : Nat} (hm : m ≤ n) : s.Levels m lev where
  linked := fun i hi => h.linked i (hi.trans hm)
  sorted := fun i hi => h.sorted i (hi.trans hm)
  sublist := fun i hi => h.sublist i (hi.trans_le hm)
  key_eq := fun i hi => h.key_eq i (hi.trans hm)

theorem Levels.locate_eq (h : s.Levels s.curLevel lev) (hmax : s.curLevel ≤ s.maxLevel) (key : K) :
    ∃ update, s.locate key = some (s.pre (lev 0) key, update) ∧
      update.length = s.maxLevel + 1 ∧
      ∀ i ≤ s.curLevel, update[i]? = some (some (s.pre (lev i) key)) := by
  have hlen : s.curLevel < (List.replicate (s.maxLevel + 1) (none : Option Nat)).length := by
    rw [List.length_replicate]
    exact Nat.lt_succ_of_le hmax
  have hhead : 0 < s.curLevel + 1 → s.StartsAt (lev s.curLevel) key s.head :=
    fun _ => startsAt_head _ _ _
  obtain ⟨update, hsearch, hlength, hlow, -⟩ := h.search_eq le_rfl hlen hhead
  refine ⟨update, ?_, by rw [hlength, List.length_replicate], fun i hi => hlow i (by omega)⟩
  rw [locate, hsearch, if_neg (Nat.succ_ne_zero _)]

theorem Levels.split_map (h : s.Levels n lev) {i : Nat} (hi : i ≤ n) (key : K) :
    (lev i).map Entry.addr = (below Entry.k key (lev i)).map Entry.addr
      ++ (atLeast Entry.k key (lev i)).map Entry.addr := by
  rw [← List.map_append, (h.sorted i hi).below_append_atLeast]

theorem Levels.next_pre (h : s.Levels n lev) {i : Nat} (hi : i ≤ n) (key : K) :
    s.nextAt i (s.pre (lev i) key)
      = some ((atLeast Entry.k key (lev i)).map Entry.addr).head? := by
  have hlinked := h.linked i hi
  rw [h.split_map hi key] at hlinked
  exact (linked_append.mp hlinked).2.next_eq

theorem Levels.keyEq_eq (h : s.Levels n lev) {i : Nat} (hi : i ≤ n) {e : Entry K V}
    (he : e ∈ lev i) (key : K) : s.keyEq key (some e.addr) = some (decide (e.k = key)) := by
  obtain ⟨node, hread, hk⟩ := Option.map_eq_some_iff.mp (h.key_eq i hi e he)
  rw [keyEq, hread, Option.map_some, hk]

/-- The comparison after the search fails for a key that is not there. -/
theorem Levels.keyEq_of_not_mem (h : s.Levels n lev) (hkey : ∀ e ∈ lev 0, e.k ≠ key) :
    s.keyEq key ((atLeast Entry.k key (lev 0)).map Entry.addr).head? = some false := by
  cases hlist : atLeast Entry.k key (lev 0) with
  | nil => rfl
  | cons e rest =>
      have he : e ∈ lev 0 := (mem_atLeast.mp (by rw [hlist]; exact List.mem_cons_self)).1
      rw [List.map_cons, List.head?_cons, h.keyEq_eq (Nat.zero_le n) he,
        decide_eq_false (hkey e he)]

end Search

end CppUtils.SkipList
