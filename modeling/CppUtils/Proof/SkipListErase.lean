import CppUtils.Proof.SkipListWellFormed

/-!
# Removal from the skip list

The unlinking loop runs over the levels strictly below `_curLevel`. A node that also stands on level
`_curLevel` is left linked there and deleted all the same; every other node comes off the list, and
the list stays well formed.
-/

namespace CppUtils.SkipList

open LinkedMemory SortedKeys

variable {K V : Type} {s : SkipList K V}

theorem exists_unlinks {update : List (Option Nat)} {current : Nat} (rounds i L : Nat)
    (preAt : Nat → Nat)
    (hupdate : ∀ j < i + rounds, update[j]? = some (some (preAt j)))
    (hon : ∀ j, i ≤ j → j < i + rounds → j < L → s.nextAt j (preAt j) = some (some current))
    (hoff : ∀ j < i + rounds, L ≤ j → ∃ q, s.nextAt j (preAt j) = some q ∧ q ≠ some current)
    (hcurrent : ∀ j < L, (s.nextAt j current).isSome) (hne : ∀ j, j < L → preAt j ≠ current) :
    ∃ t, unlink update current rounds i s = some t ∧ SameNodes s t ∧
      (∀ j, i ≤ j → j < i + rounds → j < L → t.nextAt j (preAt j) = s.nextAt j current) ∧
      ∀ j y, j < i ∨ i + rounds ≤ j ∨ L ≤ j ∨ y ≠ preAt j → t.nextAt j y = s.nextAt j y := by
  induction rounds generalizing i s with
  | zero => exact ⟨s, rfl, .refl s, fun j _ _ => by omega, fun _ _ _ => rfl⟩
  | succ rounds ih =>
      by_cases hi : i < L
      · obtain ⟨r, hr⟩ := Option.isSome_iff_exists.mp (hcurrent i hi)
        have hpre := hon i le_rfl (by omega) hi
        obtain ⟨m, hm, hsame, hnew, hframe⟩ := exists_setNext hpre r
        have hcurrentFrame : ∀ j < L, m.nextAt j current = s.nextAt j current := by
          intro j hj
          by_cases hji : j = i
          · exact hframe j current (Or.inr (hji ▸ (hne j hj).symm))
          · exact hframe j current (Or.inl hji)
        obtain ⟨t, ht, hsame', hlinks, hframe'⟩ := ih (s := m) (i + 1)
          (fun j hj => hupdate j (by omega))
          (fun j hlow hhigh hj => by
            rw [hframe j _ (Or.inl (by omega))]
            exact hon j (by omega) (by omega) hj)
          (fun j hj hjL => by
            rw [hframe j _ (Or.inl (by omega))]
            exact hoff j (by omega) hjL)
          (fun j hj => by
            rw [hcurrentFrame j hj]
            exact hcurrent j hj)
        refine ⟨t, ?_, hsame.trans hsame', fun j hlow hhigh hj => ?_, fun j y hjy => ?_⟩
        · rw [unlink, hupdate i (by omega)]
          simp only [Option.join_some, Option.bind_eq_bind, Option.bind_some, hpre, ne_eq,
            not_true_eq_false, if_false, hr, hm, ht]
        · by_cases hji : j = i
          · rw [hji, hframe' i _ (Or.inl (Nat.lt_succ_self i)), hnew, hr]
          · rw [hlinks j (by omega) (by omega) hj, hcurrentFrame j hj]
        · rw [hframe' j y (by omega)]
          refine hframe j y ?_
          by_cases hji : j = i
          · subst hji
            exact Or.inr (((hjy.resolve_left (by omega)).resolve_left (by omega)).resolve_left
              (by omega))
          · exact Or.inl hji
      · -- the node is not on this level: the loop stops
        obtain ⟨q, hq, hqNe⟩ := hoff i (by omega) (not_lt.mp hi)
        refine ⟨s, ?_, .refl s, fun j _ _ _ => by omega, fun _ _ _ => rfl⟩
        rw [unlink, hupdate i (by omega)]
        simp only [Option.join_some, Option.bind_eq_bind, Option.bind_some, hq, ne_eq, hqNe,
          not_false_eq_true, if_true]

/-- The loop that lowers `_curLevel` stops at a level above which it found nothing. -/
theorem exists_lower {c : Nat} (hhead : ∀ i ≤ c, (s.nextAt i s.head).isSome) :
    ∃ c', s.lower c = some c' ∧ c' ≤ c ∧
      ∀ i, c' < i → i ≤ c → s.nextAt i s.head = some none := by
  induction c with
  | zero => exact ⟨0, rfl, le_rfl, fun i _ _ => by omega⟩
  | succ c ih =>
      obtain ⟨q, hq⟩ := Option.isSome_iff_exists.mp (hhead (c + 1) le_rfl)
      by_cases hnull : q = none
      · obtain ⟨c', hlower, hle, habove⟩ := ih fun i hi => hhead i (by omega)
        refine ⟨c', ?_, by omega, fun i hlow hhigh => ?_⟩
        · simp only [lower, hq, Option.bind_eq_bind, Option.bind_some, hnull, if_true, hlower]
        · by_cases hi : i = c + 1
          · rw [hi, hq, hnull]
          · exact habove i hlow (by omega)
      · refine ⟨c + 1, ?_, le_rfl, fun i _ _ => by omega⟩
        simp only [lower, hq, Option.bind_eq_bind, Option.bind_some, hnull, if_false]

section Erase

variable [LinearOrder K] {l : List (Entry K V)} {key : K} {e : Entry K V}

theorem WellFormed.pre_ne_addr (h : s.WellFormed l) (he : e ∈ l) (i : Nat) :
    s.pre (onLevel i l) e.k ≠ e.addr := by
  intro heq
  rcases pre_mem s (onLevel i l) e.k with hhead | ⟨b, hb, hlt, haddr⟩
  · exact h.leveled.addr_ne_head he (heq.symm.trans hhead)
  · rw [h.leveled.eq_of_addr_eq (mem_onLevel.mp hb).1 he (haddr.symm.trans heq)] at hlt
    exact lt_irrefl _ hlt

/-- `m` is `s` after the unlinking loop for the node `e`. -/
structure Unlinking (s m : SkipList K V) (l : List (Entry K V)) (e : Entry K V) : Prop where
  same : SameNodes s m
  links : ∀ i, i < s.curLevel → i < e.level →
    m.nextAt i (s.pre (onLevel i l) e.k) = s.nextAt i e.addr
  frame : ∀ i y, s.curLevel ≤ i ∨ e.level ≤ i ∨ y ≠ s.pre (onLevel i l) e.k →
    m.nextAt i y = s.nextAt i y

theorem WellFormed.erase_of_mem (h : s.WellFormed l) (he : e ∈ l) :
    ∃ m c, s.erase e.k = some { m with
        curLevel := c, counts := m.counts - 1, heap := m.heap.free e.addr } ∧
      Unlinking s m l e ∧ c ≤ s.curLevel ∧
      ∀ i, c < i → i ≤ s.curLevel → m.nextAt i s.head = some none := by
  obtain ⟨update, hlocate, -, hupdate⟩ := h.leveled.locate_eq e.k
  obtain ⟨hnext, hkeyEq⟩ := h.leveled.keyEq_of_mem he rfl
  have hcurLevel := h.curLevel_le
  have hsorted : ∀ i, Sorted Entry.k (onLevel i l) := fun i => h.sorted.sublist List.filter_sublist
  have hon : ∀ i, i ≤ s.maxLevel → i < e.level →
      s.nextAt i (s.pre (onLevel i l) e.k) = some (some e.addr) := by
    intro i hi hlevel
    obtain ⟨rest, hrest⟩ := (hsorted i).atLeast_eq_cons (mem_onLevel.mpr ⟨he, hlevel⟩) rfl
    rw [h.leveled.next_pre hi, hrest]
    rfl
  have hoff : ∀ i, i ≤ s.maxLevel → e.level ≤ i →
      ∃ q, s.nextAt i (s.pre (onLevel i l) e.k) = some q ∧ q ≠ some e.addr := by
    intro i hi hlevel
    refine ⟨_, h.leveled.next_pre hi e.k, fun heq => ?_⟩
    obtain ⟨b, hb, haddr⟩ := List.mem_map.mp (List.mem_of_mem_head? heq)
    obtain ⟨hbl, hlt⟩ := mem_onLevel.mp (mem_atLeast.mp hb).1
    rw [h.leveled.eq_of_addr_eq hbl he haddr] at hlt
    omega
  obtain ⟨m, hunlink, hsame, hlinks, hframe⟩ := exists_unlinks (s := s)
    s.curLevel 0 e.level (fun i => s.pre (onLevel i l) e.k)
    (fun i hi => hupdate i (by omega)) (fun i _ hi hlevel => hon i (by omega) hlevel)
    (fun i hi hlevel => hoff i (by omega) hlevel)
    (fun i hi => isSome_nextAt (h.shape e he) (by omega)) (fun i _ => h.pre_ne_addr he i)
  have hheadSome : ∀ i ≤ s.curLevel, (m.nextAt i m.head).isSome := by
    intro i hi
    obtain ⟨k, v, level, hshape⟩ := h.head_shape
    rw [hsame.head]
    exact isSome_nextAt ((hsame.shape s.head).trans hshape) (by omega)
  obtain ⟨c, hlower, hle, habove⟩ := exists_lower hheadSome
  obtain ⟨n, hread⟩ : ∃ n, m.heap.read e.addr = some n := by
    obtain ⟨n, hread, -⟩ := Option.map_eq_some_iff.mp ((hsame.shape e.addr).trans (h.shape e he))
    exact ⟨n, hread⟩
  refine ⟨m, c, ?_, ⟨hsame, fun i hi => hlinks i (Nat.zero_le i) (by omega),
    fun i y hi => hframe i y (by omega)⟩, hle, fun i hlow hhigh => ?_⟩
  · simp only [erase, hlocate, Option.bind_eq_bind, Option.bind_some, hnext, hkeyEq, hunlink,
      hsame.curLevel, hlower, delete, hread, Option.map_some]
  · rw [← hsame.head]
    exact habove i hlow hhigh

def erased (l : List (Entry K V)) (key : K) : List (Entry K V) :=
  below Entry.k key l ++ (atLeast Entry.k key l).tail

theorem WellFormed.split_of_mem (h : s.WellFormed l) (he : e ∈ l) :
    ∃ front rest, l = front ++ e :: rest ∧ erased l e.k = front ++ rest ∧
      below Entry.k e.k l = front := by
  obtain ⟨rest, hrest⟩ := h.sorted.atLeast_eq_cons he rfl
  refine ⟨below Entry.k e.k l, rest, ?_, ?_, rfl⟩
  · rw [← hrest, h.sorted.below_append_atLeast]
  · rw [erased, hrest, List.tail_cons]

theorem WellFormed.mem_erased (h : s.WellFormed l) (he : e ∈ l) {b : Entry K V} :
    b ∈ erased l e.k ↔ b ∈ l ∧ b ≠ e := by
  obtain ⟨front, rest, hsplit, herased, -⟩ := h.split_of_mem he
  have hnodup : l.Nodup := List.Nodup.of_map _ (List.nodup_cons.mp h.nodup).2
  have hnot : e ∉ front ++ rest := by
    rw [hsplit] at hnodup
    exact (List.nodup_cons.mp (List.perm_middle.nodup_iff.mp hnodup)).1
  rw [herased, hsplit]
  simp only [List.mem_append, List.mem_cons] at hnot ⊢
  constructor
  · intro hb
    refine ⟨by tauto, ?_⟩
    rintro rfl
    exact hnot hb
  · tauto

/-- If the node does not stand on level `_curLevel`, the loop has unlinked it everywhere. -/
theorem Unlinking.linked {m : SkipList K V} (g : Unlinking s m l e) (h : s.WellFormed l)
    (he : e ∈ l) (hlevel : e.level ≤ s.curLevel) {i : Nat} (hi : i ≤ s.maxLevel) :
    Linked (m.nextAt i) s.head ((onLevel i (erased l e.k)).map Entry.addr) := by
  obtain ⟨front, rest, hsplit, herased, hfront⟩ := h.split_of_mem he
  have hlinked := h.linked i hi
  have hnodup := h.leveled.nodup_onLevel i
  by_cases hie : i < e.level
  · have hpre : s.pre (onLevel i l) e.k = ((onLevel i front).map Entry.addr).getLastD s.head := by
      rw [pre, onLevel, below_filter, hfront, onLevel]
    rw [hsplit, onLevel_append, onLevel_cons_of_lt hie, List.map_append, List.map_cons]
      at hlinked hnodup
    rw [herased, onLevel_append, List.map_append]
    refine hlinked.unlink hnodup ?_ fun y _ hy => ?_
    · rw [← hpre]
      exact g.links i (by omega) hie
    · rw [← hpre] at hy
      exact g.frame i y (Or.inr (Or.inr hy))
  · have hle : e.level ≤ i := not_lt.mp hie
    rw [hsplit, onLevel_append, onLevel_cons_of_le hle, ← onLevel_append, ← herased] at hlinked
    exact hlinked.congr fun y _ => g.frame i y (Or.inr (Or.inl hle))

/-- **Removal.** A node that does not stand on level `_curLevel` comes off the list. -/
theorem WellFormed.erase_wellFormed (h : s.WellFormed l) (he : e ∈ l)
    (hlevel : e.level ≤ s.curLevel) :
    ∃ t, s.erase e.k = some t ∧ t.WellFormed (erased l e.k) ∧ t.maxLevel = s.maxLevel ∧
      t.head = s.head := by
  obtain ⟨m, c, herase, g, hle, habove⟩ := h.erase_of_mem he
  obtain ⟨front, rest, hsplit, herased, hfront⟩ := h.split_of_mem he
  have hmem : ∀ b, b ∈ erased l e.k ↔ b ∈ l ∧ b ≠ e := fun b => h.mem_erased he
  have hperm : l.Perm (e :: erased l e.k) := by
    rw [herased]
    exact hsplit ▸ List.perm_middle
  have hnodup : (s.head :: (erased l e.k).map Entry.addr).Nodup := by
    have hall := ((hperm.map Entry.addr).cons s.head).nodup_iff.mp h.nodup
    exact hall.sublist ((List.sublist_cons_self _ _).cons_cons _)
  have hkept : ∀ b ∈ erased l e.k, b.addr ≠ e.addr := by
    intro b hb heq
    exact ((hmem b).mp hb).2 (h.leveled.eq_of_addr_eq ((hmem b).mp hb).1 he heq)
  have hread : ∀ p, p ≠ e.addr → (m.heap.free e.addr).read p = m.heap.read p :=
    fun p hp => Memory.read_free_of_ne hp
  have hnext : ∀ i p, p ≠ e.addr →
      nextAt { m with curLevel := c, counts := m.counts - 1, heap := m.heap.free e.addr } i p
        = m.nextAt i p := by
    intro i p hp
    rw [nextAt, hread p hp, nextAt]
  have hheadNe : s.head ≠ e.addr := (h.leveled.addr_ne_head he).symm
  refine ⟨_, herase, ?_, g.same.maxLevel, g.same.head⟩
  constructor <;> try simp only [g.same.maxLevel, g.same.head, g.same.counts]
  case linked =>
    intro i hi
    refine (g.linked h he hlevel hi).congr fun y hy => ?_
    refine hnext i y ?_
    rcases List.mem_cons.mp hy with rfl | hy
    · exact hheadNe
    · obtain ⟨b, hb, rfl⟩ := List.mem_map.mp hy
      exact hkept b (mem_onLevel.mp hb).1
  case sorted =>
    rw [herased]
    have hsorted := h.sorted
    rw [hsplit] at hsorted
    exact hsorted.sublist ((List.Sublist.refl _).append (List.sublist_cons_self _ _))
  case shape =>
    intro b hb
    rw [hread _ (hkept b hb), g.same.shape, h.shape b ((hmem b).mp hb).1]
  case top =>
    intro b hb
    have hbl := ((hmem b).mp hb).1
    have hframe := g.frame b.level b.addr (Or.inr (Or.inr (h.leveled.addr_ne_pre hbl le_rfl e.k)))
    exact (hnext _ _ (hkept b hb)).trans (hframe.trans (h.top b hbl))
  case head_shape =>
    obtain ⟨k, v, level, hshape⟩ := h.head_shape
    exact ⟨k, v, level, by rw [hread _ hheadNe, g.same.shape, hshape]⟩
  case only =>
    intro p n hp
    by_cases hpe : p = e.addr
    · rw [hpe, Memory.read_free_self] at hp
      cases hp
    · rw [hread p hpe] at hp
      have hshape := g.same.shape p
      rw [hp, Option.map_some] at hshape
      obtain ⟨n', hread', -⟩ := Option.map_eq_some_iff.mp hshape.symm
      refine (h.only p n' hread').imp_right fun hmemAddr => ?_
      obtain ⟨b, hb, rfl⟩ := List.mem_map.mp hmemAddr
      exact List.mem_map_of_mem ((hmem b).mpr ⟨hb, fun heq => hpe (heq ▸ rfl)⟩)
  case nodup => exact hnodup
  case level_mem => exact fun b hb => h.level_mem b ((hmem b).mp hb).1
  case level_le =>
    intro b hb
    have hbl := ((hmem b).mp hb).1
    have hold := h.level_le b hbl
    by_contra hgt
    -- the level just above the new `_curLevel` was seen to be empty
    have hempty := habove (c + 1) (by omega) (by omega)
    have hlinked := (g.linked h he hlevel (i := c + 1) (by have := h.curLevel_le; omega)).next_eq
    rw [hempty] at hlinked
    have hon : b ∈ onLevel (c + 1) (erased l e.k) := mem_onLevel.mpr ⟨hb, by omega⟩
    have hnil := List.head?_eq_none_iff.mp (Option.some.inj hlinked).symm
    rw [List.map_eq_nil_iff] at hnil
    rw [hnil] at hon
    cases hon
  case curLevel_le => exact hle.trans h.curLevel_le
  case counts_eq =>
    have hlength := hperm.length_eq
    rw [List.length_cons] at hlength
    rw [h.counts_eq]
    omega

/-- A node on level `_curLevel` is deleted while that level still links it. -/
theorem WellFormed.erase_dangles (h : s.WellFormed l) (he : e ∈ l) (hlevel : s.curLevel < e.level) :
    ∃ t p, s.erase e.k = some t ∧ t.nextAt s.curLevel p = some (some e.addr) ∧
      t.heap.read e.addr = none := by
  obtain ⟨m, c, herase, g, -⟩ := h.erase_of_mem he
  refine ⟨_, s.pre (onLevel s.curLevel l) e.k, herase, ?_, Memory.read_free_self⟩
  have hsorted : Sorted Entry.k (onLevel s.curLevel l) := h.sorted.sublist List.filter_sublist
  obtain ⟨rest, hrest⟩ := hsorted.atLeast_eq_cons (mem_onLevel.mpr ⟨he, hlevel⟩) rfl
  have hnext := h.leveled.next_pre h.curLevel_le e.k
  rw [hrest] at hnext
  rw [nextAt, Memory.read_free_of_ne (h.pre_ne_addr he _)]
  exact (g.frame _ _ (Or.inl le_rfl)).trans hnext

end Erase

end CppUtils.SkipList
