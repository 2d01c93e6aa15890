import CppUtils.Proof.SkipListWellFormed

/-!
# Insertion into the skip list

The linking loop splices the new node into the levels below its own, each after the last node below
the key. Where the search did not come because the level is empty, that node is the head.
-/

namespace CppUtils.SkipList

open LinkedMemory SortedKeys

variable {K V : Type} {s : SkipList K V}

theorem foldlM_setUpdate_head (s : SkipList K V) {a m : Nat} {update : List (Option Nat)}
    (hlen : a + m ≤ update.length) :
    ∃ update', (List.range' a m).foldlM (fun update i => setUpdate update i s.head) update
        = some update' ∧
      update'.length = update.length ∧
      (∀ i, a ≤ i → i < a + m → update'[i]? = some (some s.head)) ∧
      ∀ i, i < a ∨ a + m ≤ i → update'[i]? = update[i]? := by
  induction m generalizing a update with
  | zero => exact ⟨update, rfl, rfl, fun i _ _ => by omega, fun _ _ => rfl⟩
  | succ m ih =>
      have ha : a < update.length := by omega
      have hset : a + 1 + m ≤ (update.set a (some s.head)).length := by
        rw [List.length_set]
        omega
      obtain ⟨update', hfold, hlength, hin, hout⟩ := ih hset
      refine ⟨update', ?_, by rw [hlength, List.length_set], fun i hlow hhigh => ?_, fun i hi => ?_⟩
      · rw [List.range'_succ, List.foldlM_cons, setUpdate, if_pos ha, Option.bind_eq_bind,
          Option.bind_some]
        exact hfold
      · by_cases heq : i = a
        · rw [hout i (by omega), heq, List.getElem?_set_self ha]
        · exact hin i (by omega) (by omega)
      · rw [hout i (by omega), List.getElem?_set_ne (by omega)]

theorem exists_link {update : List (Option Nat)} {node p i : Nat} {q r : Option Nat}
    (hp : update[i]? = some (some p)) (hne : p ≠ node) (hq : s.nextAt i p = some q)
    (hr : s.nextAt i node = some r) :
    ∃ t, link update node s i = some t ∧ SameNodes s t ∧ t.nextAt i node = some q ∧
      t.nextAt i p = some (some node) ∧
      ∀ j y, j ≠ i ∨ (y ≠ node ∧ y ≠ p) → t.nextAt j y = s.nextAt j y := by
  obtain ⟨m, hm, hsame, hnode, hframe⟩ := exists_setNext hr q
  have hpOld : m.nextAt i p = some q := (hframe i p (Or.inr hne)).trans hq
  obtain ⟨t, ht, hsame', hpNew, hframe'⟩ := exists_setNext hpOld (some node)
  refine ⟨t, ?_, hsame.trans hsame', ?_, hpNew, fun j y hjy => ?_⟩
  · rw [link, hp]
    simp only [Option.join_some, Option.bind_eq_bind, Option.bind_some, hq, hm, ht]
  · exact (hframe' i node (Or.inr hne.symm)).trans hnode
  · rw [hframe' j y (hjy.imp_right And.right), hframe j y (hjy.imp_right And.left)]

theorem exists_links {update : List (Option Nat)} {node R : Nat} {preAt : Nat → Nat}
    (hupdate : ∀ i < R, update[i]? = some (some (preAt i))) (hne : ∀ i < R, preAt i ≠ node)
    (hpre : ∀ i < R, (s.nextAt i (preAt i)).isSome) (hnode : ∀ i < R, (s.nextAt i node).isSome) :
    ∃ t, (List.range R).foldlM (link update node) s = some t ∧ SameNodes s t ∧
      (∀ i < R, t.nextAt i node = s.nextAt i (preAt i) ∧ t.nextAt i (preAt i) = some (some node)) ∧
      ∀ i y, R ≤ i ∨ (y ≠ node ∧ y ≠ preAt i) → t.nextAt i y = s.nextAt i y := by
  induction R with
  | zero => exact ⟨s, rfl, .refl s, by simp, fun _ _ _ => rfl⟩
  | succ R ih =>
      obtain ⟨m, hm, hsame, hlinked, hframe⟩ := ih (fun i hi => hupdate i (by omega))
        (fun i hi => hne i (by omega)) (fun i hi => hpre i (by omega))
        (fun i hi => hnode i (by omega))
      obtain ⟨q, hq⟩ := Option.isSome_iff_exists.mp (hpre R (Nat.lt_succ_self R))
      obtain ⟨r, hr⟩ := Option.isSome_iff_exists.mp (hnode R (Nat.lt_succ_self R))
      obtain ⟨t, ht, hsame', htnode, htpre, hframe'⟩ := exists_link
        (hupdate R (Nat.lt_succ_self R)) (hne R (Nat.lt_succ_self R))
        ((hframe R _ (Or.inl le_rfl)).trans hq) ((hframe R _ (Or.inl le_rfl)).trans hr)
      refine ⟨t, ?_, hsame.trans hsame', fun i hi => ?_, fun i y hiy => ?_⟩
      · rw [List.range_succ, List.foldlM_append, hm, Option.bind_eq_bind, Option.bind_some,
          List.foldlM_cons, ht]
        rfl
      · by_cases heq : i = R
        · rw [heq, htnode, htpre, hq]
          exact ⟨rfl, rfl⟩
        · rw [hframe' i _ (Or.inl heq), hframe' i _ (Or.inl heq)]
          exact hlinked i (by omega)
      · have hmt : t.nextAt i y = m.nextAt i y := by
          refine hframe' i y ?_
          by_cases heq : i = R
          · exact Or.inr (heq ▸ hiy.resolve_left (by omega))
          · exact Or.inl heq
        rw [hmt]
        exact hframe i y (hiy.imp_left (by omega))

theorem nextAt_alloc_of_ne {n : Node K V} {i y : Nat} (hy : y ≠ s.heap.fresh) (curLevel : Nat) :
    ({ s with curLevel := curLevel, heap := s.heap.alloc n } : SkipList K V).nextAt i y
      = s.nextAt i y := by
  rw [nextAt, Memory.read_alloc_of_ne hy, nextAt]

theorem nextAt_alloc_fresh {key : K} {val : V} {R i : Nat} (hi : i ≤ R) (curLevel : Nat) :
    ({ s with curLevel := curLevel, heap := s.heap.alloc (createNode key val R) } :
      SkipList K V).nextAt i s.heap.fresh = some none := by
  refine nextAt_eq_some.mpr ⟨_, Memory.read_alloc_fresh, ?_⟩
  exact List.getElem?_replicate_of_lt (Nat.lt_succ_of_le hi)

section Insert

variable [LinearOrder K] {l : List (Entry K V)} {key : K}

theorem Leveled.insert_of_mem (h : s.Leveled l) {e : Entry K V} (he : e ∈ l)
    (hkey : e.k = key) (val : V) (randomLevel : Nat) :
    s.insert key val randomLevel = some (1, s) := by
  obtain ⟨update, hlocate, -⟩ := h.locate_eq key
  obtain ⟨hnext, heq⟩ := h.keyEq_of_mem he hkey
  simp only [insert, hlocate, Option.bind_eq_bind, Option.bind_some, hnext, heq, if_true]

def inserted (l : List (Entry K V)) (e : Entry K V) : List (Entry K V) :=
  below Entry.k e.k l ++ e :: atLeast Entry.k e.k l

theorem onLevel_inserted {e : Entry K V} {i : Nat} (hi : i < e.level) :
    onLevel i (inserted l e)
      = below Entry.k e.k (onLevel i l) ++ e :: atLeast Entry.k e.k (onLevel i l) := by
  rw [inserted, onLevel_append, onLevel_cons_of_lt hi, onLevel, onLevel, onLevel, below_filter,
    atLeast_filter]

theorem perm_inserted (hsorted : Sorted Entry.k l) (e : Entry K V) :
    (inserted l e).Perm (e :: l) := by
  refine List.perm_middle.trans (List.Perm.cons _ ?_)
  rw [hsorted.below_append_atLeast]

theorem mem_inserted (hsorted : Sorted Entry.k l) {e b : Entry K V} :
    b ∈ inserted l e ↔ b = e ∨ b ∈ l := mem_insert_iff hsorted

theorem Leveled.onLevel_inserted_of_le (h : s.Leveled l) {e : Entry K V} {i : Nat}
    (hi : e.level ≤ i) : onLevel i (inserted l e) = onLevel i l := by
  rw [inserted, onLevel_append, onLevel_cons_of_le hi, ← onLevel_append,
    h.sorted.below_append_atLeast]

theorem Leveled.ne_fresh (h : s.Leveled l) {p : Nat} (hp : p ∈ s.head :: l.map Entry.addr) :
    p ≠ s.heap.fresh := by
  rcases List.mem_cons.mp hp with rfl | hp
  · obtain ⟨n, hread, -⟩ := h.read_head
    exact Memory.ne_fresh_of_read hread
  · obtain ⟨e, he, rfl⟩ := List.mem_map.mp hp
    obtain ⟨n, hread, -⟩ := h.read_eq he
    exact Memory.ne_fresh_of_read hread

theorem Leveled.addr_ne_fresh (h : s.Leveled l) {e : Entry K V} (he : e ∈ l) :
    e.addr ≠ s.heap.fresh :=
  h.ne_fresh (List.mem_cons_of_mem _ (List.mem_map_of_mem he))

theorem Leveled.pre_ne_fresh (h : s.Leveled l) (i : Nat) (key : K) :
    s.pre (onLevel i l) key ≠ s.heap.fresh :=
  h.ne_fresh (List.Sublist.subset ((List.filter_sublist.map Entry.addr).cons_cons s.head)
    (pre_mem_cons s l i key))

/-- `m` is `s` with the new node allocated, `t` is `m` after the linking loop. -/
structure Linking (s m t : SkipList K V) (l : List (Entry K V)) (key : K) (val : V) (R c : Nat) :
    Prop where
  start : m = { s with curLevel := c, heap := s.heap.alloc (createNode key val R) }
  same : SameNodes m t
  links : ∀ i < R, t.nextAt i s.heap.fresh = m.nextAt i (s.pre (onLevel i l) key) ∧
    t.nextAt i (s.pre (onLevel i l) key) = some (some s.heap.fresh)
  frame : ∀ i y, R ≤ i ∨ (y ≠ s.heap.fresh ∧ y ≠ s.pre (onLevel i l) key) →
    t.nextAt i y = m.nextAt i y

section Linking

variable {m t : SkipList K V} {val : V} {R c : Nat}

theorem Linking.fields (g : Linking s m t l key val R c) :
    t.maxLevel = s.maxLevel ∧ t.curLevel = c ∧ t.head = s.head ∧ t.counts = s.counts := by
  obtain ⟨hm, hsame, -, -⟩ := g
  rw [hsame.maxLevel, hsame.curLevel, hsame.head, hsame.counts, hm]
  exact ⟨rfl, rfl, rfl, rfl⟩

theorem Linking.shape_new (g : Linking s m t l key val R c) :
    (t.heap.read s.heap.fresh).map Node.shape = some (key, val, R, R + 1) := by
  rw [g.same.shape, g.start, Memory.read_alloc_fresh]
  simp [createNode, Node.shape]

theorem Linking.shape_old (g : Linking s m t l key val R c) {p : Nat} (hp : p ≠ s.heap.fresh) :
    (t.heap.read p).map Node.shape = (s.heap.read p).map Node.shape := by
  rw [g.same.shape, g.start, Memory.read_alloc_of_ne hp]

/-- Off the predecessors, the links of the old nodes are as they were. -/
theorem Linking.next_old (g : Linking s m t l key val R c) {i y : Nat} (hy : y ≠ s.heap.fresh)
    (hi : R ≤ i ∨ y ≠ s.pre (onLevel i l) key) : t.nextAt i y = s.nextAt i y := by
  rw [g.frame i y (hi.imp_right fun hne => ⟨hy, hne⟩), g.start, nextAt_alloc_of_ne hy]

theorem Linking.linked (g : Linking s m t l key val R c) (h : s.Leveled l) {i : Nat}
    (hi : i ≤ s.maxLevel) : Linked (t.nextAt i) s.head
      ((onLevel i (inserted l ⟨s.heap.fresh, key, val, R⟩)).map Entry.addr) := by
  have hlinked := h.linked i hi
  have hnodup := h.nodup_onLevel i
  have hold : ∀ y ∈ s.head :: (onLevel i l).map Entry.addr, y ≠ s.heap.fresh := by
    intro y hy
    refine h.ne_fresh ?_
    exact List.Sublist.subset ((List.filter_sublist.map Entry.addr).cons_cons s.head) hy
  by_cases hiR : i < R
  · have hsplit := h.levels.split_map hi key
    rw [onLevel_inserted hiR, List.map_append, List.map_cons]
    rw [hsplit] at hlinked hnodup
    refine hlinked.splice hnodup (g.links i hiR).2 ?_ fun y hy hne => ?_
    · refine (g.links i hiR).1.trans ?_
      rw [g.start, nextAt_alloc_of_ne (h.pre_ne_fresh i key)]
      rfl
    · rw [← hsplit] at hy
      exact g.next_old (hold y hy) (Or.inr hne)
  · have hle : R ≤ i := not_lt.mp hiR
    rw [h.onLevel_inserted_of_le hle]
    exact hlinked.congr fun y hy => g.next_old (hold y hy) (Or.inl hle)

/-- **The new node is on the levels.** -/
theorem Linking.leveled (g : Linking s m t l key val R c) (h : s.Leveled l)
    (hkey : ∀ e ∈ l, e.k ≠ key) (hR : 1 ≤ R) (hc : s.curLevel ≤ c ∧ R ≤ c)
    (hcMax : c ≤ s.maxLevel) :
    Leveled { t with counts := t.counts + 1 } (inserted l ⟨s.heap.fresh, key, val, R⟩) := by
  obtain ⟨hmaxLevel, hcurLevel, hhead, hcounts⟩ := g.fields
  constructor <;> try simp only [hmaxLevel, hcurLevel, hhead, hcounts]
  case linked => exact fun i hi => g.linked h hi
  case sorted => exact h.sorted.insert rfl hkey
  case shape =>
    intro b hb
    rcases (mem_inserted h.sorted).mp hb with rfl | hb
    · exact g.shape_new
    · rw [g.shape_old (h.addr_ne_fresh hb), h.shape b hb]
  case head_shape =>
    obtain ⟨k, v, level, hshape⟩ := h.head_shape
    exact ⟨k, v, level, by rw [g.shape_old (h.ne_fresh List.mem_cons_self), hshape]⟩
  case level_pos =>
    intro b hb
    rcases (mem_inserted h.sorted).mp hb with rfl | hb
    · exact hR
    · exact h.level_pos b hb
  case level_le =>
    intro b hb
    rcases (mem_inserted h.sorted).mp hb with rfl | hb
    · exact hc.2.trans (Nat.le_succ c)
    · exact (h.level_le b hb).trans (Nat.succ_le_succ hc.1)
  case curLevel_le => exact hcMax
  case counts_eq =>
    rw [h.counts_eq, (perm_inserted h.sorted _).length_eq, List.length_cons]
    omega

/-- The unused last link of an old node stays null: the node is not on that level, so it is no
predecessor there. -/
theorem Linking.top_old (g : Linking s m t l key val R c) (h : s.WellFormed l) {b : Entry K V}
    (hb : b ∈ l) : t.nextAt b.level b.addr = some none := by
  have hpre := h.leveled.addr_ne_pre hb le_rfl key
  rw [g.next_old (h.leveled.addr_ne_fresh hb) (Or.inr hpre), h.top b hb]

/-- **The new node is on the list.** -/
theorem Linking.wellFormed (g : Linking s m t l key val R c) (h : s.WellFormed l)
    (hkey : ∀ e ∈ l, e.k ≠ key) (hR : 1 ≤ R ∧ R ≤ s.maxLevel) (hc : s.curLevel ≤ c ∧ R ≤ c)
    (hcMax : c ≤ s.maxLevel) :
    WellFormed { t with counts := t.counts + 1 } (inserted l ⟨s.heap.fresh, key, val, R⟩) := by
  obtain ⟨hmaxLevel, hcurLevel, hhead, hcounts⟩ := g.fields
  have hleveled := g.leveled h.leveled hkey hR.1 hc hcMax
  refine ⟨hleveled.linked, hleveled.sorted, hleveled.shape, ?_, hleveled.head_shape, ?_,
    hleveled.nodup, ?_, hleveled.level_le, hleveled.curLevel_le, hleveled.counts_eq⟩
  · intro b hb
    rcases (mem_inserted h.sorted).mp hb with rfl | hb
    · refine (g.frame _ _ (Or.inl le_rfl)).trans ?_
      rw [g.start]
      exact nextAt_alloc_fresh le_rfl c
    · exact g.top_old h hb
  · intro p n hread
    simp only [hhead]
    by_cases hp : p = s.heap.fresh
    · refine Or.inr (List.mem_map.mpr ⟨_, (mem_inserted h.sorted).mpr (Or.inl rfl), ?_⟩)
      exact hp.symm
    · have hshape := g.shape_old hp
      rw [hread, Option.map_some] at hshape
      obtain ⟨n', hread', -⟩ := Option.map_eq_some_iff.mp hshape.symm
      refine (h.only p n' hread').imp_right fun hp => ?_
      obtain ⟨b, hb, rfl⟩ := List.mem_map.mp hp
      exact List.mem_map_of_mem ((mem_inserted h.sorted).mpr (Or.inr hb))
  · intro b hb
    simp only [hmaxLevel]
    rcases (mem_inserted h.sorted).mp hb with rfl | hb
    · exact hR
    · exact h.level_mem b hb

end Linking

/-- For a key that is not there `insert` links a new node into the levels below the random one. -/
theorem Leveled.exists_linking (h : s.Leveled l) (hkey : ∀ e ∈ l, e.k ≠ key) (val : V) {R : Nat}
    (hR : R ≤ s.maxLevel) :
    ∃ m t c, s.insert key val R = some (0, { t with counts := t.counts + 1 }) ∧
      Linking s m t l key val R c ∧ (s.curLevel ≤ c ∧ R ≤ c) ∧ c ≤ s.maxLevel := by
  obtain ⟨update, hlocate, hlength, hupdate⟩ := h.locate_eq key
  obtain ⟨p, hnext, hkeyEq⟩ := h.keyEq_of_not_mem hkey
  have hcurLevel := h.curLevel_le
  obtain ⟨update', hraise, -, hraised, hkept⟩ := foldlM_setUpdate_head s
    (show s.curLevel + 1 + (R - (s.curLevel + 1)) ≤ update.length by omega)
  set c := if R > s.curLevel then R else s.curLevel with hcDef
  have hc : s.curLevel ≤ c ∧ R ≤ c := by
    rw [hcDef]
    split_ifs <;> omega
  have hcMax : c ≤ s.maxLevel := by
    rw [hcDef]
    split_ifs <;> omega
  set m : SkipList K V :=
    { s with curLevel := c, heap := s.heap.alloc (createNode key val R) } with hm
  have hpredecessors : ∀ i < R, update'[i]? = some (some (s.pre (onLevel i l) key)) := by
    intro i hi
    by_cases hlow : i ≤ s.curLevel
    · rw [hkept i (by omega), hupdate i hlow]
    · -- the search did not come to this level, which is empty
      rw [hraised i (by omega) (by omega),
        pre_eq_head s (h.onLevel_eq_nil (not_le.mp hlow))]
  obtain ⟨t, hlinks, hsame, hlinked, hframe⟩ := exists_links (s := m) hpredecessors
    (fun i _ => h.pre_ne_fresh i key)
    (fun i hi => by
      rw [hm, nextAt_alloc_of_ne (h.pre_ne_fresh i key), h.next_pre (by omega)]
      rfl)
    (fun i hi => by
      rw [hm, nextAt_alloc_fresh hi.le]
      rfl)
  refine ⟨m, t, c, ?_, ⟨rfl, hsame, hlinked, hframe⟩, hc, hcMax⟩
  simp only [insert, hlocate, Option.bind_eq_bind, Option.bind_some, hnext, hkeyEq,
    Bool.false_eq_true, if_false, hraise]
  rw [hlinks, Option.bind_some]

/-- **Insertion.** A key that is not on the list is put at its sorted place, on the levels below the
random one. -/
theorem WellFormed.insert_of_not_mem (h : s.WellFormed l) (hkey : ∀ e ∈ l, e.k ≠ key) (val : V)
    {R : Nat} (hR : 1 ≤ R ∧ R ≤ s.maxLevel) :
    ∃ t, s.insert key val R = some (0, t) ∧
      t.WellFormed (inserted l ⟨s.heap.fresh, key, val, R⟩) ∧ t.maxLevel = s.maxLevel ∧
      t.head = s.head := by
  obtain ⟨m, t, c, hinsert, g, hc, hcMax⟩ := h.leveled.exists_linking hkey val hR.2
  exact ⟨_, hinsert, g.wellFormed h hkey hR hc hcMax, g.fields.1, g.fields.2.2.1⟩

/-- **Insertion at any random level.** A key that is there leaves the list as it is; another one is
added at its sorted place, on the levels below the random one, whatever that is in relation to
`_curLevel`. -/
theorem insert_of_leveled (h : s.Leveled l) {R : Nat} (hR : 1 ≤ R ∧ R ≤ s.maxLevel) (key : K)
    (val : V) :
    ((∃ e ∈ l, e.k = key) → s.insert key val R = some (1, s)) ∧
    ((∀ e ∈ l, e.k ≠ key) → ∃ t, s.insert key val R = some (0, t) ∧
      t.Leveled (inserted l ⟨s.heap.fresh, key, val, R⟩) ∧ t.maxLevel = s.maxLevel ∧
      t.head = s.head) := by
  refine ⟨?_, fun hkey => ?_⟩
  · rintro ⟨e, he, hek⟩
    exact h.insert_of_mem he hek val R
  · obtain ⟨m, t, c, hinsert, g, hc, hcMax⟩ := h.exists_linking hkey val hR.2
    exact ⟨_, hinsert, g.leveled h hkey hR.1 hc hcMax, g.fields.1, g.fields.2.2.1⟩

end Insert

/-- A node of level 2, one of level 1 before it, and the first key once more. -/
theorem insert_of_leveled_two :
    ∃ s t : SkipList Nat Nat, (new 2).insert 5 50 2 = some (0, s) ∧
      s.insert 3 30 1 = some (0, t) ∧ s.insert 5 51 1 = some (1, s) := by
  obtain ⟨-, hfirst⟩ := insert_of_leveled (wellFormed_new 2).leveled (R := 2) (by decide) 5 50
  obtain ⟨s, hs, hleveled, hmax, -⟩ := hfirst (by simp)
  have hlevel : 1 ≤ 1 ∧ 1 ≤ s.maxLevel := by
    rw [hmax]
    decide
  obtain ⟨-, hsecond⟩ := insert_of_leveled hleveled hlevel 3 30
  obtain ⟨hagain, -⟩ := insert_of_leveled hleveled hlevel 5 51
  obtain ⟨t, ht, -⟩ := hsecond (by simp [inserted, below, atLeast])
  exact ⟨s, t, hs, ht, hagain (by simp [inserted, below, atLeast])⟩

end CppUtils.SkipList
