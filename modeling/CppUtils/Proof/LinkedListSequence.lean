import CppUtils.LinkedList
import CppUtils.Lib.Transition

/-!
# The linked list is a sequence

`Holds s cells` says which items the list consists of, with their addresses. Every operation either
rejects its position before it touches anything or takes `cells` to the list with one cell more or
less. `remove` goes through a state in which the stack item `itm` is the head; there the list is
seen as what follows `itm`, which unlinks a cell at any position in the same way.
-/

namespace CppUtils.LinkedList

open LinkedMemory

variable {α : Type}

/-- The items from the head on, address and data, in order. -/
structure Holds (s : LinkedList α) (cells : List (Nat × α)) : Prop where
  chain : Chain s.next s.head (cells.map Prod.fst)
  nodup : (cells.map Prod.fst).Nodup
  data_eq : ∀ c ∈ cells, (s.heap.read c.1).map (·.data) = some c.2
  len_eq : s.len = cells.length

/-- The list stands for the sequence `l`. -/
def Represents (s : LinkedList α) (l : List α) : Prop :=
  ∃ cells, s.Holds cells ∧ cells.map Prod.snd = l

theorem holds_new : (new : LinkedList α).Holds [] where
  chain := rfl
  nodup := List.nodup_nil
  data_eq := by simp
  len_eq := rfl

theorem Holds.read_eq {s : LinkedList α} {cells : List (Nat × α)} (h : s.Holds cells)
    {c : Nat × α} (hc : c ∈ cells) :
    ∃ item, s.heap.read c.1 = some item ∧ item.data = c.2 :=
  Option.map_eq_some_iff.mp (h.data_eq c hc)

theorem Holds.ne_fresh {s : LinkedList α} {cells : List (Nat × α)} (h : s.Holds cells) :
    ∀ y ∈ cells.map Prod.fst, y ≠ s.heap.fresh := by
  intro y hy
  obtain ⟨c, hc, rfl⟩ := List.mem_map.mp hy
  obtain ⟨item, hread, -⟩ := h.read_eq hc
  exact Memory.ne_fresh_of_read hread

theorem Holds.empty_iff {s : LinkedList α} {cells : List (Nat × α)} (h : s.Holds cells) :
    s.empty = true ↔ cells = [] := by
  have hhead := h.chain.eq_head
  rw [empty, hhead, h.len_eq]
  cases cells <;> simp

theorem Holds.pToPos_eq {s : LinkedList α} {cells : List (Nat × α)} (h : s.Holds cells) {k : Nat}
    (hk : k ≤ cells.length) : s.pToPos k = some (cells[k]?.map Prod.fst) := by
  rw [pToPos, follow_chain h.chain (by simpa using hk), List.getElem?_map]

theorem setNext_eq {s : LinkedList α} {p : Nat} {item : Item α}
    (hp : s.heap.read p = some item) (q : Option Nat) :
    ∃ t, s.setNext p q = some t ∧ t.next p = some q ∧ (∀ y, y ≠ p → t.next y = s.next y)
      ∧ (∀ y, (t.heap.read y).map (·.data) = (s.heap.read y).map (·.data))
      ∧ t.heap.fresh = s.heap.fresh ∧ t.head = s.head ∧ t.len = s.len := by
  refine ⟨{ s with heap := s.heap.write p { item with next := q } }, ?_, ?_, ?_, ?_,
    Memory.fresh_write, rfl, rfl⟩
  · rw [setNext, hp, Option.map_some]
  · rw [next, Memory.read_write_self (Memory.lt_fresh_of_read hp), Option.map_some]
  · intro y hy
    rw [next, Memory.read_write_of_ne hy, next]
  · intro y
    by_cases hy : y = p
    · rw [hy, Memory.read_write_self (Memory.lt_fresh_of_read hp), hp, Option.map_some,
        Option.map_some]
    · rw [Memory.read_write_of_ne hy]

/-! ### Positions -/

/-- Where in a sequence of length `n` a position points, negative ones counting from the end. -/
def index (n : Nat) (pos : Int) : Int := if 0 ≤ pos then pos else pos + n

/-- `posPos` accepts the positions from `-n` to `len`, for both values of `len` it is called with.
-/
theorem posPos_eq {n : Nat} {len : Int} (hlen : len = n ∨ len = n - 1) (pos : Int) :
    posPos len n pos = if -n ≤ pos ∧ pos ≤ len then index n pos else -1 := by
  unfold posPos index
  simp only
  split_ifs <;> omega

theorem index_mem {n : Nat} {pos : Int} (hlow : -n ≤ pos) (hhigh : pos ≤ n) :
    ∃ p : Nat, index n pos = p ∧ p ≤ n := by
  unfold index
  refine ⟨(if 0 ≤ pos then pos else pos + n).toNat, ?_, ?_⟩ <;> split_ifs <;> omega

/-! ### The operations -/

section Operations

variable {s : LinkedList α} {cells : List (Nat × α)}

/-- The cells after an insertion, given the chain: the new item is fresh, the old data is kept. -/
theorem Holds.insertIdx {t : LinkedList α} (h : s.Holds cells) {p np : Nat} {x : α}
    (hp : p ≤ cells.length) (hnp : np ∉ cells.map Prod.fst)
    (hchain : Chain t.next t.head ((cells.map Prod.fst).insertIdx p np))
    (hdata : ∀ c ∈ cells, (t.heap.read c.1).map (·.data) = (s.heap.read c.1).map (·.data))
    (hnew : (t.heap.read np).map (·.data) = some x) (hlen : t.len = s.len + 1) :
    t.Holds (cells.insertIdx p (np, x)) where
  chain := by rwa [List.map_insertIdx]
  nodup := by
    rw [List.map_insertIdx]
    have hperm := List.perm_insertIdx np (cells.map Prod.fst) (i := p) (by simpa using hp)
    exact hperm.nodup_iff.mpr (List.nodup_cons.mpr ⟨hnp, h.nodup⟩)
  data_eq := by
    intro c hc
    rcases (List.mem_insertIdx hp).mp hc with rfl | hc
    · exact hnew
    · rw [hdata c hc, h.data_eq c hc]
  len_eq := by rw [hlen, h.len_eq, List.length_insertIdx_of_le_length hp]

theorem Holds.alloc (h : s.Holds cells) (item : Item α) :
    ({ s with heap := s.heap.alloc item } : LinkedList α).Holds cells where
  chain := by
    refine h.chain.congr fun y hy => ?_
    rw [next, Memory.read_alloc_of_ne (h.ne_fresh y hy), next]
  nodup := h.nodup
  data_eq := by
    intro c hc
    rw [Memory.read_alloc_of_ne (h.ne_fresh _ (List.mem_map_of_mem hc)), h.data_eq c hc]
  len_eq := h.len_eq

theorem Holds.insert_front {np : Nat} {x : α} (h : s.Holds cells) (hnp : np ∉ cells.map Prod.fst)
    (hread : s.heap.read np = some { data := x, next := none }) :
    ∃ t, s.setNext np s.head = some t ∧
      ({ t with head := some np, len := t.len + 1 } : LinkedList α).Holds ((np, x) :: cells) := by
  obtain ⟨t, ht, hnext, hsame, hdata, -, -, hlen⟩ := setNext_eq hread s.head
  have hframe : ∀ y ∈ cells.map Prod.fst, t.next y = s.next y :=
    fun y hy => hsame y fun heq => hnp (heq ▸ hy)
  have hchain : Chain t.next (some np) (np :: cells.map Prod.fst) :=
    ⟨_, rfl, linked_iff_chain.mpr ⟨s.head, hnext, h.chain.congr hframe⟩⟩
  refine ⟨t, ht, h.insertIdx (p := 0) (Nat.zero_le _) hnp hchain (fun c _ => hdata _) ?_ ?_⟩
  · rw [hdata, hread, Option.map_some]
  · exact congrArg (· + 1) hlen

theorem Holds.insert_after {np k : Nat} {x : α} (h : s.Holds cells) (hnp : np ∉ cells.map Prod.fst)
    (hread : s.heap.read np = some { data := x, next := none }) (hk : k < cells.length) :
    ∃ q t t', s.next cells[k].1 = some q ∧ s.setNext cells[k].1 (some np) = some t ∧
      t.setNext np q = some t' ∧
      ({ t' with len := t'.len + 1 } : LinkedList α).Holds (cells.insertIdx (k + 1) (np, x)) := by
  obtain ⟨item, hitem, -⟩ := h.read_eq (List.getElem_mem hk)
  have hpNe : cells[k].1 ≠ np :=
    fun heq => hnp (heq ▸ List.mem_map_of_mem (List.getElem_mem hk))
  obtain ⟨t, ht, hnext, hsame, hdata, -, hhead, hlen⟩ := setNext_eq hitem (some np)
  obtain ⟨fresh, hfresh, -⟩ : ∃ fresh, t.heap.read np = some fresh ∧ fresh.data = x :=
    Option.map_eq_some_iff.mp (by rw [hdata, hread, Option.map_some])
  obtain ⟨t', ht', hnext', hsame', hdata', -, hhead', hlen'⟩ := setNext_eq hfresh item.next
  have hold : s.next cells[k].1 = some item.next := by rw [next, hitem, Option.map_some]
  have hboth : ∀ y, (t'.heap.read y).map (·.data) = (s.heap.read y).map (·.data) :=
    fun y => (hdata' y).trans (hdata y)
  refine ⟨item.next, t, t', hold, ht, ht', ?_⟩
  refine h.insertIdx (by omega) hnp ?_ (fun c _ => hboth _) ?_ ?_
  · -- the predecessor is on the chain, so there is a head
    obtain ⟨first, rest, rfl⟩ := List.exists_cons_of_length_pos (Nat.zero_lt_of_lt hk)
    have hhead₀ := h.chain.eq_head
    have hchain := h.chain
    rw [hhead₀] at hchain
    obtain ⟨_, heq, hlinked⟩ := hchain
    obtain rfl := (List.cons.inj heq).2
    rw [show ({ t' with len := t'.len + 1 } : LinkedList α).head = some first.1 from
      hhead'.trans (hhead.trans hhead₀), List.map_cons, List.insertIdx_succ_cons]
    refine ⟨_, rfl, hlinked.splice_at h.nodup (k := k) (b := (first :: rest)[k].1) ?_ ?_ ?_ ?_⟩
    · rw [← List.map_cons, List.getElem?_map, List.getElem?_eq_getElem hk, Option.map_some]
    · exact (hsame' _ hpNe).trans hnext
    · exact hnext'.trans hold.symm
    · intro y hy hne
      exact (hsame' y fun heq => hnp (heq ▸ hy)).trans (hsame y hne)
  · rw [hboth, hread, Option.map_some]
  · exact congrArg (· + 1) (hlen'.trans hlen)

theorem Holds.insert_spec (h : s.Holds cells) (hlen : cells.length ≤ 2 ^ 31 - 1) (pos : Int)
    (x : α) :
    (∃ p t, index cells.length pos = (p : Nat) ∧ p ≤ cells.length ∧ s.insert pos x = some (0, t) ∧
        t.Holds (cells.insertIdx p (s.heap.fresh, x))) ∨
      (¬(-cells.length ≤ pos ∧ pos ≤ (cells.length : Int)) ∧ s.insert pos x = some (-1, s)) := by
  have hint : toInt s.len = cells.length := by
    rw [h.len_eq]
    exact toInt_of_mem (by omega) (by omega)
  have hpos := posPos_eq (Or.inl rfl : (cells.length : Int) = cells.length ∨ _) pos
  simp only [insert, hint, hpos]
  by_cases hrange : -cells.length ≤ pos ∧ pos ≤ (cells.length : Int)
  · left
    obtain ⟨p, hp, hle⟩ := index_mem hrange.1 hrange.2
    rw [if_pos hrange, hp, if_neg (by omega)]
    have halloc := h.alloc { data := x, next := none }
    have hnp : s.heap.fresh ∉ cells.map Prod.fst := fun hmem => h.ne_fresh _ hmem rfl
    refine ⟨p, ?_⟩
    cases p with
    | zero =>
        obtain ⟨t, ht, hholds⟩ := halloc.insert_front hnp Memory.read_alloc_fresh
        simp only at ht
        exact ⟨_, rfl, hle, by rw [if_pos Int.natCast_zero, ht]; rfl, hholds⟩
    | succ k =>
        obtain ⟨q, t, t', hq, ht, ht', hholds⟩ :=
          halloc.insert_after hnp Memory.read_alloc_fresh hle
        have hwalk : toUInt32 (((k + 1 : Nat) : Int) - 1) = k := by
          rw [show ((k + 1 : Nat) : Int) - 1 = k by omega]
          exact toUInt32_of_lt (by omega)
        have hget := halloc.pToPos_eq (k := k) (by omega)
        rw [List.getElem?_eq_getElem hle, Option.map_some] at hget
        refine ⟨_, rfl, hle, ?_, hholds⟩
        rw [if_neg (by omega), hwalk, hget]
        simp only [Option.join_some, Option.bind_eq_bind, Option.bind_some, hq, ht, ht']
  · right
    exact ⟨hrange, by rw [if_neg hrange, if_pos rfl]⟩

theorem Holds.insertTail_spec (h : s.Holds cells) (hlen : cells.length ≤ 2 ^ 31 - 1) (x : α) :
    ∃ t, s.insertTail x = some (0, t) ∧ t.Holds (cells ++ [(s.heap.fresh, x)]) := by
  have hint : toInt s.len = cells.length := by
    rw [h.len_eq]
    exact toInt_of_mem (by omega) (by omega)
  rw [insertTail, hint]
  rcases h.insert_spec hlen cells.length x with ⟨p, t, hp, -, hinsert, hholds⟩ | ⟨hrange, -⟩
  · obtain rfl : p = cells.length := by
      unfold index at hp
      rw [if_pos (by omega)] at hp
      omega
    rw [List.insertIdx_length_self] at hholds
    exact ⟨t, hinsert, hholds⟩
  · omega

/-- While `remove` runs, the list is what follows the item `itm`. Its cell at position `k` is taken
off by one assignment, to the item before it or to `itm`. -/
theorem exists_unlink {itm k : Nat} (hlinked : Linked s.next itm (cells.map Prod.fst))
    (hnodup : (itm :: cells.map Prod.fst).Nodup) (hitm : (s.heap.read itm).isSome)
    (hdata : ∀ c ∈ cells, (s.heap.read c.1).map (·.data) = some c.2)
    (hhead : s.head = some itm) (hk : k < cells.length) :
    ∃ p q t, (s.pToPos k).join = some p ∧ s.next p = some (some cells[k].1) ∧
      s.next cells[k].1 = some q ∧ s.setNext p q = some t ∧ t.head = some itm ∧ t.len = s.len ∧
      Linked t.next itm ((cells.eraseIdx k).map Prod.fst) ∧
      ∀ y, (t.heap.read y).map (·.data) = (s.heap.read y).map (·.data) := by
  have haddr : (cells.map Prod.fst)[k]? = some cells[k].1 := by
    rw [List.getElem?_map, List.getElem?_eq_getElem hk, Option.map_some]
  obtain ⟨p, hp⟩ : ∃ p, (itm :: cells.map Prod.fst)[k]? = some p :=
    Option.isSome_iff_exists.mp (by simpa using Nat.lt_succ_of_lt hk)
  obtain ⟨item, hitem⟩ : ∃ item, s.heap.read p = some item := by
    rcases List.mem_cons.mp (List.mem_of_getElem? hp) with rfl | hmem
    · exact Option.isSome_iff_exists.mp hitm
    · obtain ⟨c, hc, rfl⟩ := List.mem_map.mp hmem
      obtain ⟨item, hitem, -⟩ := Option.map_eq_some_iff.mp (hdata c hc)
      exact ⟨item, hitem⟩
  have hafter : s.next cells[k].1 = some (cells.map Prod.fst)[k + 1]? :=
    hlinked.next_getElem (k := k + 1) haddr
  obtain ⟨t, ht, hnext, hsame, hdata', -, hhead', hlen⟩ :=
    setNext_eq hitem (cells.map Prod.fst)[k + 1]?
  refine ⟨p, _, t, ?_, ?_, hafter, ht, hhead'.trans hhead, hlen, ?_, hdata'⟩
  · have hchain : Chain s.next s.head (itm :: cells.map Prod.fst) := hhead ▸ ⟨_, rfl, hlinked⟩
    rw [pToPos, follow_chain hchain (by simpa using Nat.le_succ_of_le (Nat.le_of_lt hk)), hp,
      Option.join_some]
  · rw [hlinked.next_getElem hp, haddr]
  · rw [← List.eraseIdx_map]
    exact hlinked.unlink_at hnodup hp haddr (hnext.trans hafter.symm) fun y _ hne _ => hsame y hne

/-- Once the deleted item and `itm` are off the chain, their cells can go. -/
theorem holds_of_linked {itm r : Nat} (hlinked : Linked s.next itm (cells.map Prod.fst))
    (hnodup : (itm :: cells.map Prod.fst).Nodup)
    (hdata : ∀ c ∈ cells, (s.heap.read c.1).map (·.data) = some c.2)
    (hne : r ≠ itm) (hr : r ∉ cells.map Prod.fst) :
    (∀ n, ({ heap := s.heap.free r, head := some itm, len := n } : LinkedList α).next itm
      = some (cells.map Prod.fst).head?) ∧
    ({ heap := (s.heap.free r).free itm, head := (cells.map Prod.fst).head?,
       len := cells.length } : LinkedList α).Holds cells := by
  have hfreed : ∀ y, y ≠ r → (s.heap.free r).read y = s.heap.read y :=
    fun y hy => Memory.read_free_of_ne hy
  have hitm : ∀ y ∈ cells.map Prod.fst, y ≠ itm :=
    fun y hy heq => (List.nodup_cons.mp hnodup).1 (heq ▸ hy)
  have hoff : ∀ y ∈ cells.map Prod.fst, y ≠ r := fun y hy heq => hr (heq ▸ hy)
  have hnext : s.next itm = some (cells.map Prod.fst).head? := hlinked.next_eq
  refine ⟨fun n => ?_, ?_, (List.nodup_cons.mp hnodup).2, ?_, rfl⟩
  · rw [next, hfreed itm hne.symm]
    exact hnext
  · obtain ⟨q, hq, hchain⟩ := linked_iff_chain.mp hlinked
    obtain rfl : (cells.map Prod.fst).head? = q := Option.some.inj (hnext.symm.trans hq)
    refine hchain.congr fun y hy => ?_
    rw [next, Memory.read_free_of_ne (hitm y hy), hfreed y (hoff y hy), next]
  · intro c hc
    have hmem := List.mem_map_of_mem (f := Prod.fst) hc
    rw [Memory.read_free_of_ne (hitm _ hmem), hfreed _ (hoff _ hmem), hdata c hc]

theorem Holds.remove_spec [Inhabited α] (h : s.Holds cells) (hlen : cells.length ≤ 2 ^ 31 - 1)
    (pos : Int) :
    (∃ p t, -cells.length ≤ pos ∧ pos ≤ (cells.length : Int) - 1 ∧
        index cells.length pos = (p : Nat) ∧ p < cells.length ∧ s.remove pos = some (0, t) ∧
        t.Holds (cells.eraseIdx p)) ∨
      (¬(-cells.length ≤ pos ∧ pos ≤ (cells.length : Int) - 1) ∧ s.remove pos = some (-1, s)) := by
  by_cases hempty : cells = []
  · right
    have hguard : s.empty = true := h.empty_iff.mpr hempty
    have hzero : cells.length = 0 := by rw [hempty, List.length_nil]
    refine ⟨by omega, ?_⟩
    rw [remove, if_pos hguard]
  have hguard : ¬ s.empty = true := fun hcon => hempty (h.empty_iff.mp hcon)
  have hint : toInt s.len = cells.length := by
    rw [h.len_eq]
    exact toInt_of_mem (by omega) (by omega)
  have hint' : toInt (s.len - 1) = (cells.length : Int) - 1 := by
    have hne := List.length_pos_iff.mpr hempty
    rw [h.len_eq]
    exact toInt_of_mem (by omega) (by omega)
  have hpos := posPos_eq (Or.inr rfl : (cells.length : Int) - 1 = cells.length ∨ _) pos
  rw [remove, if_neg hguard]
  simp only [hint, hint', hpos]
  by_cases hrange : -cells.length ≤ pos ∧ pos ≤ (cells.length : Int) - 1
  · left
    obtain ⟨p, hp, hle⟩ := index_mem hrange.1 (by omega)
    have hlt : p < cells.length := by
      unfold index at hp
      split_ifs at hp <;> omega
    refine ⟨p, ?_⟩
    rw [if_pos hrange, hp, if_neg (by omega)]
    -- the list with `itm` in front
    set m : LinkedList α := { s with
      heap := s.heap.alloc { data := default, next := s.head }
      head := some s.heap.fresh
      len := s.len + 1 } with hm
    have hframe : ∀ y ∈ cells.map Prod.fst, m.next y = s.next y := by
      intro y hy
      rw [next, Memory.read_alloc_of_ne (h.ne_fresh y hy), next]
    have hlinked : Linked m.next s.heap.fresh (cells.map Prod.fst) := by
      refine linked_iff_chain.mpr ⟨s.head, ?_, h.chain.congr hframe⟩
      rw [next, Memory.read_alloc_fresh, Option.map_some]
    have hnodup : (s.heap.fresh :: cells.map Prod.fst).Nodup :=
      List.nodup_cons.mpr ⟨fun hmem => h.ne_fresh _ hmem rfl, h.nodup⟩
    have hdata : ∀ c ∈ cells, (m.heap.read c.1).map (·.data) = some c.2 :=
      (h.alloc { data := default, next := s.head }).data_eq
    obtain ⟨before, q, t, hwalk, hr, hq, ht, hhead, htlen, hunlinked, hkeep⟩ :=
      exists_unlink hlinked hnodup (by rw [Memory.read_alloc_fresh]; rfl) hdata rfl hlt
    have hwalkInt : toUInt32 p = p := toUInt32_of_lt (by omega)
    have haddrs : (cells.eraseIdx p).map Prod.fst = (cells.map Prod.fst).eraseIdx p :=
      (List.eraseIdx_map _ _ _).symm
    have hdeleted : cells[p].1 ∉ (cells.eraseIdx p).map Prod.fst := by
      have hlt' : p < (cells.map Prod.fst).length := by rwa [List.length_map]
      have hget : (cells.map Prod.fst)[p] = cells[p].1 := List.getElem_map _
      rw [haddrs, ← h.nodup.erase_getElem p hlt', hget]
      exact h.nodup.not_mem_erase
    have hnodupRest : (s.heap.fresh :: (cells.eraseIdx p).map Prod.fst).Nodup := by
      have hsublist := ((List.eraseIdx_sublist cells p).map Prod.fst).cons_cons s.heap.fresh
      exact hnodup.sublist hsublist
    have hdataRest : ∀ c ∈ cells.eraseIdx p, (t.heap.read c.1).map (·.data) = some c.2 := by
      intro c hc
      rw [hkeep, hdata c (List.mem_of_mem_eraseIdx hc)]
    obtain ⟨hnext, hholds⟩ := holds_of_linked hunlinked hnodupRest hdataRest
      (h.ne_fresh _ (List.mem_map_of_mem (List.getElem_mem hlt))) hdeleted
    refine ⟨_, hrange.1, hrange.2, rfl, hlt, ?_, hholds⟩
    have hlenRest : t.len - 1 - 1 = (cells.eraseIdx p).length := by
      rw [htlen, List.length_eraseIdx_of_lt hlt, ← h.len_eq]
      rfl
    rw [hwalkInt, hwalk]
    simp only [Option.bind_eq_bind, Option.bind_some, hr, hq, ht, hhead]
    rw [hnext (t.len - 1), Option.bind_some, hlenRest]
  · right
    exact ⟨hrange, by rw [if_neg hrange, if_pos rfl]⟩

theorem Holds.get_spec (h : s.Holds cells) (hlen : cells.length ≤ 2 ^ 31 - 1) {pos : Int}
    (hlow : -cells.length ≤ pos) (hhigh : pos ≤ (cells.length : Int) - 1) :
    ∃ p, ∃ hp : p < cells.length, index cells.length pos = (p : Nat) ∧
      s.get pos = some cells[p].2 := by
  have hne : cells ≠ [] := by
    rintro rfl
    simp at hlow hhigh
    omega
  have hguard : ¬ s.empty = true := fun hcon => hne (h.empty_iff.mp hcon)
  have hint : toInt s.len = cells.length := by
    rw [h.len_eq]
    exact toInt_of_mem (by omega) (by omega)
  have hint' : toInt (s.len - 1) = (cells.length : Int) - 1 := by
    have hpos := List.length_pos_iff.mpr hne
    rw [h.len_eq]
    exact toInt_of_mem (by omega) (by omega)
  have hpos := posPos_eq (Or.inr rfl : (cells.length : Int) - 1 = cells.length ∨ _) pos
  obtain ⟨p, hp, hle⟩ := index_mem hlow (show pos ≤ cells.length by omega)
  have hlt : p < cells.length := by
    unfold index at hp
    split_ifs at hp <;> omega
  have hwalk : toUInt32 p = p := toUInt32_of_lt (by omega)
  obtain ⟨item, hitem, hdata⟩ := h.read_eq (List.getElem_mem hlt)
  refine ⟨p, hlt, hp, ?_⟩
  rw [get, if_neg hguard]
  simp only [hint, hint', hpos]
  rw [if_pos ⟨hlow, hhigh⟩, hp, hwalk, h.pToPos_eq hle, List.getElem?_eq_getElem hlt]
  simp only [Option.map_some, Option.join_some, Option.bind_eq_bind, Option.bind_some, hitem, hdata]

end Operations

/-! ### Runs -/

theorem Holds.step [Inhabited α] {s t : LinkedList α} {c : Call α} {cells : List (Nat × α)}
    (h : s.Holds cells) (hstep : Step s c t) :
    ∃ cells', t.Holds cells' ∧ cells'.length ≤ 2 ^ 31 - 1 := by
  obtain ⟨hlen, ret, hcall⟩ := hstep
  rw [h.len_eq] at hlen
  cases c with
  | insert pos x =>
      rcases h.insert_spec hlen.le pos x with ⟨p, t', -, hp, hinsert, hholds⟩ | ⟨-, hinsert⟩
      · cases hcall.symm.trans hinsert
        refine ⟨_, hholds, ?_⟩
        rw [List.length_insertIdx_of_le_length hp]
        omega
      · cases hcall.symm.trans hinsert
        exact ⟨_, h, hlen.le⟩
  | insertTail x =>
      obtain ⟨t', hinsert, hholds⟩ := h.insertTail_spec hlen.le x
      cases hcall.symm.trans hinsert
      refine ⟨_, hholds, ?_⟩
      rw [List.length_append, List.length_singleton]
      omega
  | remove pos =>
      rcases h.remove_spec hlen.le pos with ⟨p, t', -, -, -, -, hremove, hholds⟩ | ⟨-, hremove⟩
      · cases hcall.symm.trans hremove
        exact ⟨_, hholds, (List.length_eraseIdx_le _ _).trans hlen.le⟩
      · cases hcall.symm.trans hremove
        exact ⟨_, h, hlen.le⟩

/-- What a run leads to is a sequence whose length fits an `int`. -/
theorem exists_holds_of_reachable [Inhabited α] {s : LinkedList α}
    (hs : Transition.Reachable (· = new) Step s) :
    ∃ cells, s.Holds cells ∧ cells.length ≤ 2 ^ 31 - 1 := by
  have hinit : ∃ cells, (new : LinkedList α).Holds cells ∧ cells.length ≤ 2 ^ 31 - 1 :=
    ⟨[], holds_new, Nat.zero_le _⟩
  have hstep : ∀ (s : LinkedList α) c t, (∃ cells, s.Holds cells ∧ cells.length ≤ 2 ^ 31 - 1) →
      Step s c t → ∃ cells, t.Holds cells ∧ cells.length ≤ 2 ^ 31 - 1 := by
    rintro s c t ⟨cells, h, -⟩ hstep
    exact h.step hstep
  exact hs.invariant_from hinit hstep

/-- **The list is a sequence.** Whatever calls led to `s`, it stands for a sequence `l`; `_len` is
its length, and each call changes `l` as its return value says or leaves the list as it is. -/
theorem represents_of_reachable [Inhabited α] {s : LinkedList α}
    (hs : Transition.Reachable (· = new) Step s) (hlen : s.len < 2 ^ 31 - 1) :
    ∃ l, s.Represents l ∧ s.len = l.length ∧ (s.head = none ↔ s.len = 0) ∧
      (∀ pos x, ∃ ret t, s.insert pos x = some (ret, t) ∧ (ret = 0 ∨ ret = -1) ∧
        (ret = 0 → ∃ p : Nat, (p : Int) = (if 0 ≤ pos then pos else pos + l.length) ∧
          p ≤ l.length ∧ t.Represents (l.insertIdx p x)) ∧
        (ret = -1 → t = s)) ∧
      (∀ x, ∃ t, s.insertTail x = some (0, t) ∧ t.Represents (l ++ [x])) ∧
      (∀ pos, ∃ ret t, s.remove pos = some (ret, t) ∧ (ret = 0 ∨ ret = -1) ∧
        (ret = 0 ↔ -(l.length : Int) ≤ pos ∧ pos ≤ (l.length : Int) - 1) ∧
        (ret = 0 → ∃ p : Nat, (p : Int) = (if 0 ≤ pos then pos else pos + l.length) ∧
          p < l.length ∧ t.Represents (l.eraseIdx p)) ∧
        (ret = -1 → t = s)) ∧
      (∀ pos : Int, -l.length ≤ pos → pos ≤ (l.length : Int) - 1 →
        ∃ p : Nat, (p : Int) = (if 0 ≤ pos then pos else pos + l.length) ∧
          ∃ hp : p < l.length, s.get pos = some l[p]) := by
  obtain ⟨cells, h, -⟩ := exists_holds_of_reachable hs
  rw [h.len_eq] at hlen
  have hlength : (cells.map Prod.snd).length = cells.length := List.length_map _
  refine ⟨cells.map Prod.snd, ⟨cells, h, rfl⟩, by rw [hlength, h.len_eq], ?_, ?_, ?_, ?_, ?_⟩
  · rw [h.chain.eq_head, h.len_eq]
    cases cells <;> simp
  · intro pos x
    rw [hlength]
    rcases h.insert_spec hlen.le pos x with ⟨p, t, hp, hle, hinsert, hholds⟩ | ⟨-, hinsert⟩
    · refine ⟨0, t, hinsert, Or.inl rfl, fun _ => ⟨p, hp.symm, hle, _, hholds, ?_⟩, by simp⟩
      rw [List.map_insertIdx]
    · exact ⟨-1, s, hinsert, Or.inr rfl, by simp, fun _ => rfl⟩
  · intro x
    obtain ⟨t, hinsert, hholds⟩ := h.insertTail_spec hlen.le x
    exact ⟨t, hinsert, _, hholds, by simp⟩
  · intro pos
    rw [hlength]
    rcases h.remove_spec (by omega) pos with
      ⟨p, t, hlow, hhigh, hp, hlt, hremove, hholds⟩ | ⟨hrange, hremove⟩
    · refine ⟨0, t, hremove, Or.inl rfl, iff_of_true rfl ⟨hlow, hhigh⟩,
        fun _ => ⟨p, hp.symm, hlt, _, hholds, ?_⟩, by simp⟩
      rw [← List.eraseIdx_map]
    · exact ⟨-1, s, hremove, Or.inr rfl, iff_of_false (by decide) hrange, by simp, fun _ => rfl⟩
  · intro pos hlow hhigh
    rw [hlength] at hlow hhigh
    obtain ⟨p, hlt, hp, hget⟩ := h.get_spec (by omega) hlow hhigh
    have hindex : (p : Int) = if 0 ≤ pos then pos else pos + (cells.map Prod.snd).length := by
      rw [hlength]
      exact hp.symm
    exact ⟨p, hindex, hlt.trans_eq hlength.symm, by rw [hget, List.getElem_map]⟩

/-- After `insertTail(7)` and `insert(0, 8)`. -/
theorem represents_of_reachable_two :
    ∃ l, Represents { heap := ⟨[some ⟨7, none⟩, some ⟨8, some 0⟩]⟩, head := some 1, len := 2 } l ∧
      l.length = 2 := by
  have hfirst : (new : LinkedList Nat).call (.insertTail 7)
      = some (0, { heap := ⟨[some ⟨7, none⟩]⟩, head := some 0, len := 1 }) := by decide +kernel
  have hrun : Transition.Reachable (· = new) Step
      { heap := ⟨[some ⟨7, none⟩, some ⟨8, some 0⟩]⟩, head := some 1, len := 2 } :=
    ⟨new, [.insertTail 7, .insert 0 8], rfl, .cons ⟨by simp [new], 0, hfirst⟩
      (.cons ⟨by simp, 0, by decide +kernel⟩ (.nil _))⟩
  obtain ⟨l, hl, hlen, -⟩ := represents_of_reachable hrun (by simp)
  exact ⟨l, hl, hlen.symm⟩

end CppUtils.LinkedList
