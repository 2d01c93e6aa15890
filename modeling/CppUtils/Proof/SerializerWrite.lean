import CppUtils.Serializer
import Mathlib.Algebra.Order.Group.Nat
import Mathlib.Tactic.Ring

/-!
# What `write` stores

`write` keeps `_size`, `_capacity` and the node list in step for every sequence of calls (`Shape`).
The bytes go where the cursor stands, and a call that fills the last node makes fresh nodes; nothing
else of what the nodes hold changes.
-/

namespace CppUtils.Serializer

/-- Everything the nodes hold, in list order. -/
def memory (s : Serializer) : List (Option Byte) := s.nodes.flatMap (·.str)

/-- The counters and the node list, when `total` bytes have been written. -/
structure Shape (s : Serializer) (total : Nat) : Prop where
  baseSize_pos : 0 < s.baseSize
  baseSize_lt : s.baseSize < 2 ^ 32
  widths : ∀ n ∈ s.nodes, n.str.length = s.baseSize
  tail_eq : s.tail + 1 = s.nodes.length
  size_eq : s.size = total
  account : s.size + s.capacity = s.baseSize * s.nodes.length
  capacity_le : s.capacity ≤ s.baseSize
  cur_node : s.cur.node = 0

/-! ### Reading the list back -/

theorem length_flatMap_str {baseSize : Nat} {nodes : List Node}
    (hwidths : ∀ n ∈ nodes, n.str.length = baseSize) :
    (nodes.flatMap (·.str)).length = baseSize * nodes.length := by
  induction nodes with
  | nil => simp
  | cons n nodes ih =>
      have hn := hwidths n List.mem_cons_self
      have hrest := ih fun m hm => hwidths m (List.mem_cons_of_mem _ hm)
      rw [List.flatMap_cons, List.length_append, hn, hrest, List.length_cons]
      ring

theorem Shape.memory_length {s : Serializer} {total : Nat} (h : Shape s total) :
    s.memory.length = s.size + s.capacity := by
  rw [h.account]
  exact length_flatMap_str h.widths

/-- A traversal that asks for no more bytes than the nodes have never meets the end of the list. -/
theorem toStringFrom_eq {baseSize : Nat} {nodes : List Node} {k : Nat}
    (hwidths : ∀ n ∈ nodes, n.str.length = baseSize) (hne : nodes ≠ [])
    (hk : k ≤ baseSize * nodes.length) :
    toStringFrom baseSize nodes k = some ((nodes.flatMap (·.str)).take k) := by
  induction nodes generalizing k with
  | nil => exact absurd rfl hne
  | cons n nodes ih =>
      have hn := hwidths n List.mem_cons_self
      rw [toStringFrom, List.flatMap_cons]
      by_cases hbig : k > baseSize
      · have hbound : k - baseSize ≤ baseSize * nodes.length := by
          rw [List.length_cons, Nat.mul_succ] at hk
          omega
        have hrestNe : nodes ≠ [] := by
          intro hnil
          rw [hnil, List.length_nil] at hbound
          omega
        have hrest := ih (fun m hm => hwidths m (List.mem_cons_of_mem _ hm)) hrestNe hbound
        have htake : n.str.take k = n.str := List.take_of_length_le (by omega)
        rw [if_pos hbig, hrest, Option.map_some, List.take_of_length_le hn.le, List.take_append,
          htake, hn]
      · rw [if_neg hbig, List.take_append_of_le_length (by omega)]

theorem Shape.nodes_ne_nil {s : Serializer} {total : Nat} (h : Shape s total) : s.nodes ≠ [] := by
  have htail := h.tail_eq
  intro hnil
  simp [hnil] at htail

theorem Shape.toString_eq {s : Serializer} {total : Nat} (h : Shape s total) :
    s.toString = some (s.memory.take total) := by
  have hk : s.size ≤ s.baseSize * s.nodes.length := by
    rw [← h.account]
    exact Nat.le_add_right _ _
  rw [← h.size_eq]
  exact toStringFrom_eq h.widths h.nodes_ne_nil hk

theorem shape_new {baseSize : Nat} (hpos : 0 < baseSize) (hlt : baseSize < 2 ^ 32) :
    Shape (new baseSize) 0 where
  baseSize_pos := hpos
  baseSize_lt := hlt
  widths := by simp [new, Node.new]
  tail_eq := rfl
  size_eq := rfl
  account := by simp [new, u32_of_lt hlt]
  capacity_le := by simp [new, u32_of_lt hlt]
  cur_node := rfl

/-! ### One store -/

theorem Node.store_length (n : Node) (off : Nat) (src : List Byte) :
    (n.store off src).str.length = n.str.length := by
  simp only [Node.store, List.length_append, List.length_take, List.length_map, List.length_drop]
  omega

theorem widths_memmove {s : Serializer} (hwidths : ∀ n ∈ s.nodes, n.str.length = s.baseSize)
    (p : Cursor) (src : List Byte) :
    ∀ n ∈ (s.memmove p src).nodes, n.str.length = s.baseSize := by
  intro n hn
  obtain ⟨i, hi⟩ := List.mem_iff_getElem?.mp hn
  simp only [memmove, List.getElem?_modify] at hi
  obtain ⟨m, hm, heq⟩ := Option.map_eq_some_iff.mp hi
  have hmem := List.mem_of_getElem? hm
  split at heq
  · rw [← heq, Node.store_length]
    exact hwidths m hmem
  · rw [← heq]
    exact hwidths m hmem

theorem memory_memmove_getElem? {s : Serializer} {n : Node} {rest : List Node} {p : Cursor}
    {src : List Byte} (hnodes : s.nodes = n :: rest) (hp : p.node = 0) {i : Nat}
    (hi : n.str.length ≤ i) : (s.memmove p src).memory[i]? = s.memory[i]? := by
  have hmemory : (s.memmove p src).memory
      = (n.store p.off src).str ++ rest.flatMap (·.str) := by
    simp [memory, memmove, hnodes, hp]
  have hlen := n.store_length p.off src
  rw [hmemory, memory, hnodes, List.flatMap_cons, List.getElem?_append_right (by omega),
    List.getElem?_append_right hi, hlen]

theorem memmove_nil (s : Serializer) (p : Cursor) : s.memmove p [] = s := by
  have hstore : ∀ n : Node, n.store p.off [] = n := by
    intro n
    simp [Node.store]
  have hnodes : s.nodes.modify p.node (·.store p.off []) = s.nodes := by
    apply List.ext_getElem?
    intro i
    rw [List.getElem?_modify]
    split <;> simp [hstore]
  simp [memmove, hnodes]

/-- The node that a new node becomes once its front is filled. -/
def Node.filled (baseSize : Nat) (src : List Byte) : Node where
  baseSize := baseSize
  str := src.map some ++ List.replicate (baseSize - src.length) none

theorem Node.length_filled {baseSize : Nat} {src : List Byte} (hsrc : src.length ≤ baseSize) :
    (Node.filled baseSize src).str.length = baseSize := by
  simp only [Node.filled, List.length_append, List.length_map, List.length_replicate]
  omega

/-- The two statements every new node goes through: link it behind `_tail`, fill its front. -/
theorem memmove_addNode {s : Serializer} {src : List Byte} (htail : s.tail + 1 = s.nodes.length)
    (hsrc : src.length ≤ s.baseSize) :
    s.addNode.memmove { node := s.addNode.tail, off := 0 } src
      = { s with nodes := s.nodes ++ [Node.filled s.baseSize src], tail := s.tail + 1 } := by
  change s.addNode.memmove { node := s.tail + 1, off := 0 } src = _
  have htake : s.nodes.take (s.tail + 1) = s.nodes := List.take_of_length_le htail.ge
  have hroom : s.addNode.room { node := s.tail + 1, off := 0 } = s.baseSize := by
    simp [room, addNode, htail, Node.new]
  have hstore : (Node.new s.baseSize).store 0 src = Node.filled s.baseSize src := by
    simp [Node.store, Node.new, Node.filled, List.take_of_length_le hsrc]
  have hmodify : s.addNode.nodes.modify (s.tail + 1) (·.store 0 src)
      = s.nodes ++ [Node.filled s.baseSize src] := by
    have hnodes : s.addNode.nodes = s.nodes ++ [Node.new s.baseSize] := by
      rw [addNode, htake]
    rw [hnodes, List.modify_eq_take_cons_drop (by simp [htail])]
    simp [htail, hstore]
  rw [memmove, hmodify, hroom]
  simp [addNode, Nat.not_lt.mpr hsrc]

/-! ### The slow path -/

/-- The loop puts a whole number of nodes' worth of bytes into as many new nodes, and leaves at most
one node's worth, something if there was something. -/
theorem fillNodes_eq {s : Serializer} {p : List Byte} {fuel : Nat} (hpos : 0 < s.baseSize)
    (htail : s.tail + 1 = s.nodes.length) (hsize : s.size + p.length < 2 ^ 32)
    (hfuel : p.length ≤ fuel) :
    ∃ (k : Nat) (added : List Node),
      s.fillNodes fuel p = some
        ({ s with nodes := s.nodes ++ added, tail := s.tail + k, size := s.size + s.baseSize * k },
          p.drop (s.baseSize * k))
      ∧ added.length = k ∧ (∀ n ∈ added, n.str.length = s.baseSize)
      ∧ added.flatMap (·.str) = (p.take (s.baseSize * k)).map some
      ∧ p.length ≤ s.baseSize * k + s.baseSize ∧ (p ≠ [] → s.baseSize * k < p.length)
      ∧ s.baseSize * k ≤ p.length := by
  induction fuel generalizing s p with
  | zero =>
      have hnil : p = [] := List.eq_nil_of_length_eq_zero (by omega)
      subst hnil
      exact ⟨0, [], by simp [fillNodes], by simp, by simp, by simp, by simp, by simp, by simp⟩
  | succ fuel ih =>
      rw [fillNodes]
      by_cases hbig : p.length > s.baseSize
      · have htakeLen : (p.take s.baseSize).length = s.baseSize := by
          rw [List.length_take]
          omega
        have hdropLen : (p.drop s.baseSize).length = p.length - s.baseSize := List.length_drop
        rw [if_pos hbig]
        have hnode : s.addNode.memmove { node := s.addNode.tail, off := 0 } (p.take s.baseSize)
            = { s with
                nodes := s.nodes ++ [Node.filled s.baseSize (p.take s.baseSize)]
                tail := s.tail + 1 } := memmove_addNode htail htakeLen.le
        have hsizeEq : u32 (s.size + s.baseSize) = s.size + s.baseSize := u32_of_lt (by omega)
        have hbase : s.addNode.baseSize = s.baseSize := rfl
        simp only [hbase, hnode, hsizeEq]
        obtain ⟨k, added, hrun, hlen, hwidths, hbytes, hle, hlt, hmul⟩ :=
          ih (s := { s with
                nodes := s.nodes ++ [Node.filled s.baseSize (p.take s.baseSize)]
                tail := s.tail + 1
                size := s.size + s.baseSize }) (p := p.drop s.baseSize) hpos (by simp [htail])
            (by simp only; omega) (by omega)
        simp only at hrun hwidths hbytes hle hlt hmul
        have hstep : s.baseSize * (k + 1) = s.baseSize + s.baseSize * k := by ring
        refine ⟨k + 1, Node.filled s.baseSize (p.take s.baseSize) :: added, ?_, by simp [hlen],
          ?_, ?_, by omega, ?_, by omega⟩
        · rw [hrun, List.drop_drop, hstep]
          simp only [List.append_assoc, List.cons_append, List.nil_append]
          congr 3 <;> omega
        · intro n hn
          rcases List.mem_cons.mp hn with rfl | hn
          · exact Node.length_filled htakeLen.le
          · exact hwidths n hn
        · rw [List.flatMap_cons, hbytes, hstep, List.take_add, List.map_append]
          simp [Node.filled, htakeLen]
        · intro _
          have := hlt (List.ne_nil_of_length_pos (by omega))
          omega
      · refine ⟨0, [], by simp [if_neg hbig], rfl, by simp, by simp, by omega, ?_, by simp⟩
        intro hne
        simpa using List.length_pos_iff.mpr hne

/-- The path of `write` on which the last node is filled: what the cursor store did to the old
nodes, then the rest of the block, then what is left of the new last node. -/
theorem write_slow {s : Serializer} {total : Nat} {buf : List Byte} (h : Shape s total)
    (hle : s.capacity ≤ buf.length) (htotal : total + buf.length < 2 ^ 32) :
    ∃ s', s.write buf = some s' ∧ Shape s' (total + buf.length) ∧ s'.baseSize = s.baseSize
      ∧ s'.memory = (s.memmove s.cur (buf.take s.capacity)).memory
          ++ ((buf.drop s.capacity).map some ++ List.replicate s'.capacity none)
      ∧ s'.strayed = (s.memmove s.cur (buf.take s.capacity)).strayed
      ∧ s.nodes.length < s'.nodes.length
      ∧ (s'.capacity = 0 ↔ s.capacity < buf.length ∧ s.baseSize ∣ buf.length - s.capacity)
      ∧ (s.capacity < buf.length → s'.capacity < s.baseSize) := by
  set m := s.memmove s.cur (buf.take s.capacity) with hm
  set p := buf.drop s.capacity with hp
  have hmNodes : m.nodes.length = s.nodes.length := by simp [hm, memmove]
  have hpLen : p.length = buf.length - s.capacity := by rw [hp, List.length_drop]
  have hsizeEq : u32 (s.size + s.capacity) = s.size + s.capacity := by
    have := h.size_eq
    exact u32_of_lt (by omega)
  obtain ⟨k, added, hfill, hlen, hwidths, hbytes, hroom, hne, hmul⟩ :=
    fillNodes_eq (s := { m with size := s.size + s.capacity, capacity := 0 }) (p := p)
      h.baseSize_pos (h.tail_eq.trans hmNodes.symm)
      (by have := h.size_eq; simp only; omega) (le_refl p.length)
  have hmBase : m.baseSize = s.baseSize := rfl
  have hmSize : m.size = s.size := rfl
  have hmCapacity : m.capacity = s.capacity := rfl
  simp only [hmBase] at hfill hwidths hbytes hroom hne hmul
  set r := p.drop (s.baseSize * k) with hr
  have hrLen : r.length = p.length - s.baseSize * k := by rw [hr, List.length_drop]
  have hlast := memmove_addNode
    (s := { m with nodes := m.nodes ++ added, tail := m.tail + k,
                   size := s.size + s.capacity + s.baseSize * k, capacity := 0 })
    (by
      have := h.tail_eq
      simp only [List.length_append, hmNodes, hlen]
      simp only [hm, memmove]
      omega)
    (show r.length ≤ m.baseSize by rw [hmBase]; omega)
  have hbaseLt := h.baseSize_lt
  have hbasePos := h.baseSize_pos
  have hsizeLast : u32 (s.size + s.capacity + s.baseSize * k + r.length) = total + buf.length := by
    have := h.size_eq
    rw [u32_of_lt] <;> omega
  have hcapLast : u32 (s.baseSize - r.length) = s.baseSize - r.length := u32_of_lt (by omega)
  refine ⟨{ m with
      nodes := m.nodes ++ added ++ [Node.filled s.baseSize r]
      tail := m.tail + k + 1
      cur := m.cur.advance r.length
      size := total + buf.length
      capacity := s.baseSize - r.length }, ?_, ?_, rfl, ?_, rfl, ?_, ?_, ?_⟩
  · rw [write, if_neg (by omega)]
    simp only [← hm, ← hp, hmBase, hmSize, hmCapacity, hsizeEq, Option.bind_eq_bind]
    rw [hfill, Option.bind_some]
    simp only [hmBase] at hlast
    simp only [hlast, hsizeLast, hcapLast]
  · refine ⟨hbasePos, hbaseLt, ?_, ?_, rfl, ?_, ?_, h.cur_node⟩
    · intro n hn
      rcases List.mem_append.mp hn with hn | hn
      · rcases List.mem_append.mp hn with hn | hn
        · exact widths_memmove h.widths _ _ n hn
        · exact hwidths n hn
      · rw [List.mem_singleton.mp hn]
        exact Node.length_filled (by omega)
    · have htail := h.tail_eq
      simp only [List.length_append, hmNodes, hlen, List.length_singleton]
      simp only [hm, memmove]
      omega
    · have haccount := h.account
      have hsize := h.size_eq
      simp only [List.length_append, hmNodes, hlen, List.length_singleton, hmBase]
      have hexpand : s.baseSize * (s.nodes.length + k + 1)
          = s.baseSize * s.nodes.length + s.baseSize * k + s.baseSize := by ring
      rw [hexpand]
      omega
    · exact Nat.sub_le _ _
  · simp only [memory, List.flatMap_append, List.flatMap_cons, List.flatMap_nil, hbytes,
      Node.filled, List.append_nil, List.append_assoc]
    rw [hr, ← List.append_assoc (List.map some _), ← List.map_append, List.take_append_drop]
  · simp only [List.length_append, List.length_singleton, hmNodes]
    omega
  · have hfull : s.baseSize - r.length = 0 ↔ s.baseSize ∣ r.length ∧ 0 < r.length := by
      constructor
      · intro hzero
        have heq : r.length = s.baseSize := by omega
        exact ⟨heq ▸ dvd_rfl, heq ▸ hbasePos⟩
      · rintro ⟨hdvd, hpos⟩
        have := Nat.le_of_dvd hpos hdvd
        omega
    have hsplit : buf.length - s.capacity = s.baseSize * k + r.length := by omega
    have hdvd : s.baseSize ∣ buf.length - s.capacity ↔ s.baseSize ∣ r.length := by
      rw [hsplit]
      exact (Nat.dvd_add_right ⟨k, rfl⟩)
    have hpos : s.capacity < buf.length ↔ 0 < r.length := by
      constructor
      · intro hlt
        have hpNe : p ≠ [] := List.ne_nil_of_length_pos (by omega)
        have := hne hpNe
        omega
      · intro hlt
        omega
    rw [hfull, hdvd, hpos, and_comm]
  · intro hlt
    have := hne (List.ne_nil_of_length_pos (by omega))
    change s.baseSize - r.length < s.baseSize
    omega

theorem write_fast {s : Serializer} {total : Nat} {buf : List Byte} (h : Shape s total)
    (hlt : buf.length < s.capacity) (htotal : total + buf.length < 2 ^ 32) :
    ∃ s', s.write buf = some s' ∧ Shape s' (total + buf.length) ∧ s'.baseSize = s.baseSize
      ∧ s'.memory = (s.memmove s.cur buf).memory ∧ s'.strayed = (s.memmove s.cur buf).strayed
      ∧ s'.nodes.length = s.nodes.length ∧ s'.capacity = s.capacity - buf.length
      ∧ s'.cur = s.cur.advance buf.length := by
  have hcap := h.capacity_le
  have hbase := h.baseSize_lt
  have hsize := h.size_eq
  have hcapEq : u32 (s.capacity - buf.length) = s.capacity - buf.length := u32_of_lt (by omega)
  have hsizeEq : u32 (s.size + buf.length) = s.size + buf.length := u32_of_lt (by omega)
  refine ⟨{ s.memmove s.cur buf with
      cur := s.cur.advance buf.length
      capacity := s.capacity - buf.length
      size := s.size + buf.length }, ?_, ?_, rfl, rfl, rfl, by simp [memmove], rfl, rfl⟩
  · rw [write, if_pos hlt]
    simp only [memmove, hcapEq, hsizeEq]
  · have hlength : (s.memmove s.cur buf).nodes.length = s.nodes.length := by simp [memmove]
    refine ⟨h.baseSize_pos, hbase, widths_memmove h.widths _ _, ?_, by simp only; omega, ?_, ?_,
      h.cur_node⟩
    · exact h.tail_eq.trans hlength.symm
    · have haccount := h.account
      simp only [hlength]
      simp only [memmove]
      omega
    · simp only [memmove]
      omega

/-- Whatever the blocks, `write` returns, keeps the counters in step, and never touches again what
lies past the first node. -/
theorem exists_write {s : Serializer} {total : Nat} (h : Shape s total) (buf : List Byte)
    (htotal : total + buf.length < 2 ^ 32) :
    ∃ s', s.write buf = some s' ∧ Shape s' (total + buf.length) ∧ s'.baseSize = s.baseSize
      ∧ (∀ i, s.baseSize ≤ i → i < s.memory.length → s'.memory[i]? = s.memory[i]?)
      ∧ (s'.capacity = 0 ↔ s.capacity < buf.length ∧ s.baseSize ∣ buf.length - s.capacity) := by
  obtain ⟨n, rest, hnodes⟩ := List.exists_cons_of_ne_nil h.nodes_ne_nil
  have hn : n.str.length = s.baseSize := h.widths n (hnodes ▸ List.mem_cons_self)
  have hkeep : ∀ src i, s.baseSize ≤ i → (s.memmove s.cur src).memory[i]? = s.memory[i]? :=
    fun src i hi => memory_memmove_getElem? hnodes h.cur_node (hn.le.trans hi)
  by_cases hfast : buf.length < s.capacity
  · obtain ⟨s', hwrite, hshape, hbase, hmemory, -, -, hcap, -⟩ := write_fast h hfast htotal
    refine ⟨s', hwrite, hshape, hbase, fun i hi _ => ?_, by omega⟩
    rw [hmemory, hkeep _ i hi]
  · obtain ⟨s', hwrite, hshape, hbase, hmemory, -, -, hcap, -⟩ :=
      write_slow h (Nat.not_lt.mp hfast) htotal
    refine ⟨s', hwrite, hshape, hbase, fun i hi hlt => ?_, hcap⟩
    have hlength : (s.memmove s.cur (buf.take s.capacity)).memory.length = s.memory.length := by
      have hwidths := widths_memmove h.widths s.cur (buf.take s.capacity)
      rw [memory, memory, length_flatMap_str hwidths, length_flatMap_str h.widths]
      simp [memmove]
    rw [hmemory, List.getElem?_append_left (hlength ▸ hlt), hkeep _ i hi]

end CppUtils.Serializer
