import CppUtils.Proof.SerializerCursor

/-!
# The counters of the serializer

Whatever the cursor does, `_size`, `_capacity` and the number of nodes belong together after every
call, and so `toString`, which stops on a count of bytes, stays inside the list.
-/

namespace CppUtils.Serializer

/-- The counters after `total` bytes, and a `toString` that does not come to the end of the list. -/
structure Accounted (baseSize total : Nat) (s : Serializer) : Prop where
  size_eq : s.size = total
  capacity_le : s.capacity ≤ baseSize
  account : s.size + s.capacity = baseSize * s.nodes.length
  toString_length : ∃ out, s.toString = some out ∧ out.length = s.size

/-- The nodes for a block of this length: none if it leaves room in the last node, and otherwise one
for every `baseSize` bytes that do not fit there, but at least one. -/
def nodesFor (baseSize capacity len : Nat) : Nat :=
  if len < capacity then 0 else max 1 ((len - capacity + baseSize - 1) / baseSize)

theorem Shape.accounted {s : Serializer} {total : Nat} (h : Shape s total) :
    Accounted s.baseSize total s := by
  refine ⟨h.size_eq, h.capacity_le, h.account, _, h.toString_eq, ?_⟩
  have hsize := h.size_eq
  have hlength := h.memory_length
  rw [List.length_take]
  omega

/-- So many nodes that the last is not empty unless there is only one. -/
theorem div_eq_of_mul_eq {baseSize remain capacity nodes : Nat}
    (haccount : baseSize * nodes = remain + capacity) (hlt : capacity < baseSize) :
    (remain + baseSize - 1) / baseSize = nodes := by
  have hsplit : remain + baseSize - 1 = (baseSize - 1 - capacity) + baseSize * nodes := by omega
  rw [hsplit, Nat.add_mul_div_left _ _ (by omega), Nat.div_eq_of_lt (by omega), Nat.zero_add]

/-- `write` returns, with the nodes that its block needs. -/
theorem Shape.nodes_write {s : Serializer} {total : Nat} (h : Shape s total) (buf : List Byte)
    (htotal : total + buf.length < 2 ^ 32) :
    ∃ s', s.write buf = some s' ∧ Shape s' (total + buf.length) ∧ s'.baseSize = s.baseSize ∧
      s'.nodes.length = s.nodes.length + nodesFor s.baseSize s.capacity buf.length := by
  by_cases hfast : buf.length < s.capacity
  · obtain ⟨s', hwrite, hshape, hbase, -, -, hnodes, -⟩ := write_fast h hfast htotal
    exact ⟨s', hwrite, hshape, hbase, by rw [nodesFor, if_pos hfast, hnodes, Nat.add_zero]⟩
  · obtain ⟨s', hwrite, hshape, hbase, -, -, hnodes, -, hlast⟩ :=
      write_slow h (Nat.not_lt.mp hfast) htotal
    refine ⟨s', hwrite, hshape, hbase, ?_⟩
    obtain ⟨added, hadded⟩ := Nat.exists_eq_add_of_lt hnodes
    have hsplit : s.baseSize * (added + 1) = buf.length - s.capacity + s'.capacity := by
      have haccount := h.account
      have haccount' := hshape.account
      have hsize := h.size_eq
      have hsize' := hshape.size_eq
      rw [hbase, hadded, Nat.add_assoc, Nat.mul_add] at haccount'
      omega
    rw [nodesFor, if_neg hfast, hadded, Nat.add_assoc]
    congr 1
    by_cases hmore : s.capacity < buf.length
    · rw [div_eq_of_mul_eq hsplit (hlast hmore)]
      omega
    · -- the block fills the last node exactly, and the next node is there for the next block
      have hremain : buf.length - s.capacity = 0 := by omega
      have hcapacity := hshape.capacity_le
      have hbasePos := h.baseSize_pos
      have hle : s.baseSize * (added + 1) ≤ s.baseSize * 1 := by omega
      have hone := Nat.le_of_mul_le_mul_left hle hbasePos
      rw [hremain, Nat.div_eq_of_lt (by omega)]
      omega

/-- **The accounting of the serializer.** After every sequence of calls the counters are those of the
bytes written and of the nodes, and `toString` copies `_size` bytes without leaving the list; the
next call returns as well, with just the nodes that its block needs. -/
theorem accounted_of_run {baseSize : Nat} {blocks : List (List Byte)} (hpos : 0 < baseSize)
    (hbase : baseSize < 2 ^ 32) (htotal : blocks.flatten.length < 2 ^ 32) :
    ∃ s, blocks.foldlM write (new baseSize) = some s ∧
      Accounted baseSize blocks.flatten.length s ∧
      ∀ block : List Byte, blocks.flatten.length + block.length < 2 ^ 32 →
        ∃ s', s.write block = some s' ∧
          s'.nodes.length = s.nodes.length + nodesFor baseSize s.capacity block.length := by
  obtain ⟨s, hrun, hshape, rfl, -⟩ := exists_run hpos hbase htotal
  refine ⟨s, hrun, hshape.accounted, fun block hblock => ?_⟩
  obtain ⟨s', hwrite, -, -, hnodes⟩ := hshape.nodes_write block hblock
  exact ⟨s', hwrite, hnodes⟩

/-- The first block ends on a boundary, and the second goes over the next one. -/
theorem accounted_of_two_blocks :
    ∃ s, [[1, 2, 3, 4], [5, 6, 7, 8, 9]].foldlM write (new 4) = some s ∧ Accounted 4 9 s := by
  have hpos : 0 < 4 := by decide
  have hbase : 4 < 2 ^ 32 := by decide
  have htotal : ([[1, 2, 3, 4], [5, 6, 7, 8, 9]] : List (List Byte)).flatten.length < 2 ^ 32 := by
    decide
  obtain ⟨s, hrun, hcount, -⟩ := accounted_of_run hpos hbase htotal
  exact ⟨s, hrun, hcount⟩

end CppUtils.Serializer
