import CppUtils.Lib.Transition
import CppUtils.Proof.SerializerWrite
import Mathlib.Tactic.Ring

/-!
# When `write` writes where `toString` reads

Once a call has filled the last node, the bytes go to fresh nodes but `_cur` is only moved on by
their number, from where it stood in the first node. So the cursor is right exactly as long as the
first node is the last one, and afterwards a call is harmless only if it stores nothing through the
cursor, which is the case when the last node happens to be full.

`CursorValid` says this about the blocks alone. Below, either the run so far satisfies it and the
nodes hold the blocks in order, or it does not and some byte below `_size` was never written and
never will be.
-/

namespace CppUtils.Serializer

/-! ### The cursor -/

/-- After these blocks the cursor stands where the next byte belongs, or nothing will be stored
through it: the first node is not full yet, or the last block filled the last node exactly. -/
def AtCursor (baseSize : Nat) (blocks : List (List Byte)) : Prop :=
  blocks.flatten.length < baseSize ∨
    (baseSize < blocks.flatten.length ∧ baseSize ∣ blocks.flatten.length
      ∧ blocks.getLast? ≠ some [])

/-- Every non-empty block starts where the cursor is right. -/
def CursorValid (baseSize : Nat) (blocks : List (List Byte)) : Prop :=
  ∀ before block after, blocks = before ++ block :: after → block ≠ [] → AtCursor baseSize before

theorem cursorValid_concat {baseSize : Nat} {before : List (List Byte)} {block : List Byte} :
    CursorValid baseSize (before ++ [block]) ↔
      CursorValid baseSize before ∧ (block ≠ [] → AtCursor baseSize before) := by
  constructor
  · intro h
    refine ⟨fun left b right heq hne => ?_, fun hne => h before block [] rfl hne⟩
    exact h left b (right ++ [block]) (by simp [heq]) hne
  · rintro ⟨hbefore, hlast⟩ left b right heq hne
    rcases List.eq_nil_or_concat right with hnil | ⟨right', last, hright⟩
    · subst hnil
      obtain ⟨rfl, hb⟩ := List.append_inj' heq rfl
      cases hb
      exact hlast hne
    · rw [hright, List.concat_eq_append, ← List.cons_append, ← List.append_assoc] at heq
      obtain ⟨hleft, -⟩ := List.append_inj' heq rfl
      exact hbefore left b right' hleft hne

theorem cursorValid_of_le {baseSize : Nat} {blocks : List (List Byte)}
    (hle : blocks.flatten.length ≤ baseSize) : CursorValid baseSize blocks := by
  intro before block after hblocks hne
  left
  have hpos := List.length_pos_of_ne_nil hne
  rw [hblocks] at hle
  simp only [List.flatten_append, List.flatten_cons, List.length_append] at hle
  omega

/-- The nodes hold `written`, and nothing else has been stored. -/
structure Clean (s : Serializer) (written : List Byte) : Prop where
  strayed : s.strayed = false
  memory_eq : s.memory = written.map some ++ List.replicate s.capacity none
  place : (s.nodes.length = 1 ∧ s.cur.off = written.length ∧ 0 < s.capacity) ∨ 1 < s.nodes.length

/-- A byte past the first node counts as written and never was. -/
def Spoiled (s : Serializer) : Prop :=
  ∃ i, s.baseSize ≤ i ∧ i < s.size ∧ s.memory[i]? = some none

/-- While there is one node, the cursor store puts the bytes behind what is there. -/
theorem Clean.memmove_cur {s : Serializer} {written src : List Byte} (hs : Clean s written)
    (h : Shape s written.length) (hone : s.nodes.length = 1) (hsrc : src.length ≤ s.capacity) :
    (s.memmove s.cur src).strayed = false
      ∧ (s.memmove s.cur src).memory
        = (written ++ src).map some ++ List.replicate (s.capacity - src.length) none := by
  obtain ⟨n, hnodes⟩ := List.length_eq_one_iff.mp hone
  have hoff : s.cur.off = written.length := by
    rcases hs.place with ⟨-, hoff, -⟩ | hmany
    · exact hoff
    · omega
  have hstr : n.str = written.map some ++ List.replicate s.capacity none := by
    have := hs.memory_eq
    simpa [memory, hnodes] using this
  have hroom : s.room s.cur = s.capacity := by
    simp [room, hnodes, h.cur_node, hstr, hoff]
  constructor
  · simp [memmove, hs.strayed, hroom, hsrc]
  · have htake : (src.map some).take s.capacity = src.map some :=
      List.take_of_length_le (by simpa using hsrc)
    have hdrop : (written.map some).drop (written.length + src.length) = [] :=
      List.drop_eq_nil_of_le (by simp)
    simp [memory, memmove, hnodes, h.cur_node, Node.store, hstr, hoff, htake, hdrop,
      List.drop_append]

/-- What a run keeps: the blocks satisfied `CursorValid` so far and the nodes hold them, or they did
not and the nodes never will. -/
structure RunInv (baseSize : Nat) (blocks : List (List Byte)) (s : Serializer) : Prop where
  shape : Shape s blocks.flatten.length
  baseSize_eq : s.baseSize = baseSize
  outcome : (CursorValid baseSize blocks ∧ Clean s blocks.flatten
      ∧ (s.capacity = 0 ↔ baseSize < blocks.flatten.length ∧ baseSize ∣ blocks.flatten.length
          ∧ blocks.getLast? ≠ some []))
    ∨ (¬ CursorValid baseSize blocks ∧ Spoiled s)

theorem runInv_new {baseSize : Nat} (hpos : 0 < baseSize) (hlt : baseSize < 2 ^ 32) :
    RunInv baseSize [] (new baseSize) := by
  have hcapacity : u32 baseSize = baseSize := u32_of_lt hlt
  refine ⟨shape_new hpos hlt, rfl, Or.inl ⟨?_, ⟨rfl, ?_, Or.inl ⟨rfl, rfl, ?_⟩⟩, ?_⟩⟩
  · intro before block after heq
    simp at heq
  · simp [memory, new, Node.new, hcapacity]
  · simpa [new, hcapacity] using hpos
  · simp only [new, hcapacity, List.flatten_nil, List.length_nil]
    omega

theorem Shape.one_lt_nodes_iff {s : Serializer} {total : Nat} (h : Shape s total)
    (hfresh : s.nodes.length = 1 → 0 < s.capacity) : 1 < s.nodes.length ↔ s.baseSize ≤ total := by
  have haccount := h.account
  have hsize := h.size_eq
  have hcap := h.capacity_le
  have hne := List.length_pos_iff.mpr h.nodes_ne_nil
  constructor
  · intro hmany
    obtain ⟨k, hk⟩ : ∃ k, s.nodes.length = k + 2 := ⟨s.nodes.length - 2, by omega⟩
    have hexpand : s.baseSize * (k + 2) = s.baseSize * k + s.baseSize + s.baseSize := by ring
    rw [hk, hexpand] at haccount
    omega
  · intro hle
    by_contra hfew
    have hone : s.nodes.length = 1 := by omega
    have := hfresh hone
    rw [hone, Nat.mul_one] at haccount
    omega

theorem Spoiled.keep {s s' : Serializer} {total total' : Nat} (hs : Spoiled s) (h : Shape s total)
    (h' : Shape s' total') (htotal : total ≤ total') (hbase : s'.baseSize = s.baseSize)
    (hkeep : ∀ i, s.baseSize ≤ i → i < s.memory.length → s'.memory[i]? = s.memory[i]?) :
    Spoiled s' := by
  obtain ⟨i, hi, hlt, hnone⟩ := hs
  have hsize := h.size_eq
  have hsize' := h'.size_eq
  have hlength := h.memory_length
  refine ⟨i, hbase ▸ hi, by omega, ?_⟩
  rw [hkeep i hi (by omega), hnone]

/-- The step that goes wrong: the cursor is in the first node, the last node has room, and the first
byte with that place is never stored. -/
theorem Clean.spoil {s s' : Serializer} {written : List Byte} {total : Nat} (hs : Clean s written)
    (h : Shape s written.length) (h' : Shape s' total) (htotal : written.length < total)
    (hmany : 1 < s.nodes.length) (hroom : 0 < s.capacity) (hbase : s'.baseSize = s.baseSize)
    (hkeep : ∀ i, s.baseSize ≤ i → i < s.memory.length → s'.memory[i]? = s.memory[i]?) :
    Spoiled s' := by
  have hle : s.baseSize ≤ written.length := (h.one_lt_nodes_iff (by omega)).mp hmany
  have hsize := h.size_eq
  have hsize' := h'.size_eq
  have hlength := h.memory_length
  refine ⟨written.length, hbase ▸ hle, by omega, ?_⟩
  rw [hkeep _ hle (by omega), hs.memory_eq, List.getElem?_append_right (by simp)]
  simp [hroom]

/-- The step that goes right: nothing is stored through the cursor, or the cursor is right. -/
theorem Clean.write {s s' : Serializer} {written buf : List Byte} (hs : Clean s written)
    (h : Shape s written.length) (htotal : written.length + buf.length < 2 ^ 32)
    (hcur : buf ≠ [] → s.nodes.length = 1 ∨ s.capacity = 0) (hwrite : s.write buf = some s') :
    Clean s' (written ++ buf) := by
  have hone_or_nil : ∀ src : List Byte, src = [] ∨ s.nodes.length = 1 → src.length ≤ s.capacity →
      (s.memmove s.cur src).strayed = false
        ∧ (s.memmove s.cur src).memory
          = (written ++ src).map some ++ List.replicate (s.capacity - src.length) none := by
    intro src hsrc hle
    rcases hsrc with rfl | hone
    · simpa [memmove_nil] using ⟨hs.strayed, hs.memory_eq⟩
    · exact hs.memmove_cur h hone hle
  by_cases hfast : buf.length < s.capacity
  · obtain ⟨t, ht, -, -, hmemory, hstrayed, hnodes, hcap, hcurEq⟩ := write_fast h hfast htotal
    obtain rfl : t = s' := Option.some.inj (ht.symm.trans hwrite)
    have hsrc : buf = [] ∨ s.nodes.length = 1 := by
      by_cases hnil : buf = []
      · exact Or.inl hnil
      · exact Or.inr ((hcur hnil).resolve_right (by omega))
    obtain ⟨hclean, hbytes⟩ := hone_or_nil buf hsrc hfast.le
    refine ⟨hstrayed.trans hclean, by rw [hmemory, hbytes, hcap], ?_⟩
    rcases hs.place with ⟨hone, hoff, -⟩ | hmany
    · refine Or.inl ⟨hnodes.trans hone, ?_, by omega⟩
      simp [hcurEq, Cursor.advance, hoff]
    · exact Or.inr (by omega)
  · obtain ⟨t, ht, -, -, hmemory, hstrayed, hnodes, -⟩ :=
      write_slow h (Nat.not_lt.mp hfast) htotal
    obtain rfl : t = s' := Option.some.inj (ht.symm.trans hwrite)
    have hne := List.length_pos_iff.mpr h.nodes_ne_nil
    have htake : (buf.take s.capacity).length = s.capacity := by
      rw [List.length_take]
      omega
    have hsrc : buf.take s.capacity = [] ∨ s.nodes.length = 1 := by
      by_cases hnil : buf = []
      · exact Or.inl (by simp [hnil])
      · rcases hcur hnil with hone | hzero
        · exact Or.inr hone
        · exact Or.inl (by simp [hzero])
    obtain ⟨hclean, hbytes⟩ := hone_or_nil _ hsrc htake.le
    refine ⟨hstrayed.trans hclean, ?_, Or.inr (by omega)⟩
    rw [hmemory, hbytes, htake, Nat.sub_self, List.replicate_zero, List.append_nil,
      ← List.append_assoc, ← List.map_append, List.append_assoc written, List.take_append_drop]

theorem Clean.atCursor_iff {s : Serializer} {blocks : List (List Byte)}
    (hs : Clean s blocks.flatten) (h : Shape s blocks.flatten.length)
    (hfull : s.capacity = 0 ↔ s.baseSize < blocks.flatten.length
      ∧ s.baseSize ∣ blocks.flatten.length ∧ blocks.getLast? ≠ some []) :
    AtCursor s.baseSize blocks ↔ s.nodes.length = 1 ∨ s.capacity = 0 := by
  have hne := List.length_pos_iff.mpr h.nodes_ne_nil
  have hmany : 1 < s.nodes.length ↔ s.baseSize ≤ blocks.flatten.length := by
    refine h.one_lt_nodes_iff fun hone => ?_
    rcases hs.place with ⟨-, -, hpos⟩ | hmany
    · exact hpos
    · omega
  rw [AtCursor, hfull]
  refine or_congr_left ?_
  omega

theorem Shape.full_iff {s : Serializer} {total len : Nat} (h : Shape s total)
    (hcur : s.nodes.length = 1 ∨ s.capacity = 0) (hlen : 0 < len) :
    s.capacity < len ∧ s.baseSize ∣ len - s.capacity ↔
      s.baseSize < total + len ∧ s.baseSize ∣ total + len := by
  have haccount := h.account
  have hsize := h.size_eq
  have hpos := h.baseSize_pos
  have hnodes := List.length_pos_iff.mpr h.nodes_ne_nil
  have hbound : s.baseSize ≤ s.baseSize * s.nodes.length := Nat.le_mul_of_pos_right _ hnodes
  have hlt : s.capacity < len ↔ s.baseSize < total + len := by
    rcases hcur with hone | hzero
    · rw [hone, Nat.mul_one] at haccount
      omega
    · omega
  rw [hlt]
  refine and_congr_right fun hover => ?_
  have hsplit : total + len = s.baseSize * s.nodes.length + (len - s.capacity) := by
    have := hlt.mpr hover
    omega
  rw [hsplit]
  exact (Nat.dvd_add_right ⟨_, rfl⟩).symm

theorem runInv_write {baseSize : Nat} {before : List (List Byte)} {block : List Byte}
    {s : Serializer} (hinv : RunInv baseSize before s)
    (htotal : before.flatten.length + block.length < 2 ^ 32) :
    ∃ s', s.write block = some s' ∧ RunInv baseSize (before ++ [block]) s' := by
  obtain ⟨hshape, rfl, houtcome⟩ := hinv
  obtain ⟨s', hwrite, hshape', hbase, hkeep, hcap⟩ := exists_write hshape block htotal
  have hflat : (before ++ [block]).flatten = before.flatten ++ block := by simp
  have hflatLen : (before ++ [block]).flatten.length = before.flatten.length + block.length := by
    simp
  refine ⟨s', hwrite, hflatLen ▸ hshape', hbase, ?_⟩
  rw [cursorValid_concat]
  rcases houtcome with ⟨hvalid, hclean, hfull⟩ | ⟨hinvalid, hspoiled⟩
  · have hat := hclean.atCursor_iff hshape hfull
    by_cases hstep : block ≠ [] → AtCursor s.baseSize before
    · refine Or.inl ⟨⟨hvalid, hstep⟩, ?_, ?_⟩
      · rw [hflat]
        exact hclean.write hshape htotal (fun hne => hat.mp (hstep hne)) hwrite
      · rw [hcap, hflatLen, List.getLast?_concat]
        by_cases hne : block = []
        · simp [hne]
        · exact (hshape.full_iff (hat.mp (hstep hne)) (List.length_pos_iff.mpr hne)).trans
            (by simp [hne])
    · refine Or.inr ⟨fun h => hstep h.2, ?_⟩
      obtain ⟨hne, hnot⟩ := Classical.not_imp.mp hstep
      rw [hat, not_or] at hnot
      have hnodes := List.length_pos_iff.mpr hshape.nodes_ne_nil
      have hblock := List.length_pos_iff.mpr hne
      exact hclean.spoil hshape hshape' (by omega) (by omega) (by omega) hbase hkeep
  · exact Or.inr ⟨fun h => hinvalid h.1,
      hspoiled.keep hshape hshape' (Nat.le_add_right _ _) hbase hkeep⟩

/-- Writing the blocks to a fresh serializer stays inside the nodes, and `toString` gives them
back. -/
def Faithful (baseSize : Nat) (blocks : List (List Byte)) : Prop :=
  ∃ s, blocks.foldlM write (new baseSize) = some s ∧ s.strayed = false
    ∧ s.toString = some (blocks.flatten.map some)

theorem exists_run {baseSize : Nat} {blocks : List (List Byte)} (hpos : 0 < baseSize)
    (hbase : baseSize < 2 ^ 32) (htotal : blocks.flatten.length < 2 ^ 32) :
    ∃ s, blocks.foldlM write (new baseSize) = some s ∧ RunInv baseSize blocks s := by
  apply Transition.foldlM_invariant (runInv_new hpos hbase)
  intro before block after m hblocks hm
  refine runInv_write hm ?_
  rw [hblocks] at htotal
  simp only [List.flatten_append, List.flatten_cons, List.length_append] at htotal
  omega

theorem RunInv.toString_of_cursorValid {baseSize : Nat} {blocks : List (List Byte)}
    {s : Serializer} (h : RunInv baseSize blocks s) (hvalid : CursorValid baseSize blocks) :
    s.strayed = false ∧ s.toString = some (blocks.flatten.map some) := by
  obtain ⟨hshape, rfl, houtcome⟩ := h
  rcases houtcome with ⟨-, hclean, -⟩ | ⟨hinvalid, -⟩
  · have hlength : (blocks.flatten.map some).length = blocks.flatten.length := List.length_map _
    refine ⟨hclean.strayed, ?_⟩
    rw [hshape.toString_eq, hclean.memory_eq, List.take_append_of_le_length hlength.ge,
      List.take_of_length_le hlength.le]
  · exact absurd hvalid hinvalid

/-- The string has a byte in it that nothing was stored to. -/
theorem Spoiled.toString_ne {s : Serializer} {total : Nat} (hs : Spoiled s) (h : Shape s total)
    (out : List Byte) : s.toString ≠ some (out.map some) := by
  intro hbytes
  obtain ⟨i, -, hi, hnone⟩ := hs
  have htake := Option.some.inj (h.toString_eq.symm.trans hbytes)
  have hread := congrArg (fun l => l[i]?) htake
  have hsize := h.size_eq
  simp only [List.getElem?_take, List.getElem?_map] at hread
  rw [if_pos (by omega), hnone] at hread
  cases hget : out[i]? with
  | none => simp [hget] at hread
  | some b => simp [hget] at hread

/-- **When the serializer is faithful.** The blocks come back if and only if every non-empty one
starts where the cursor is right. -/
theorem faithful_iff {baseSize : Nat} {blocks : List (List Byte)} (hpos : 0 < baseSize)
    (hbase : baseSize < 2 ^ 32) (htotal : blocks.flatten.length < 2 ^ 32) :
    Faithful baseSize blocks ↔ CursorValid baseSize blocks := by
  obtain ⟨s, hrun, hinv⟩ := exists_run hpos hbase htotal
  constructor
  · rintro ⟨t, ht, -, hbytes⟩
    obtain rfl : s = t := Option.some.inj (hrun.symm.trans ht)
    obtain ⟨hshape, rfl, ⟨hvalid, -⟩ | ⟨-, hspoiled⟩⟩ := hinv
    · exact hvalid
    · exact absurd hbytes (hspoiled.toString_ne hshape _)
  · exact fun hvalid => ⟨s, hrun, hinv.toString_of_cursorValid hvalid⟩

theorem faithful_iff_two_blocks :
    Faithful 4 [[1, 2], [3]] ↔ CursorValid 4 [[1, 2], [3]] :=
  faithful_iff (by decide) (by decide) (by decide)

/-- A block of exactly `_base_size` bytes, then one byte: the byte lands at the front of the first
node, and `toString` reads an unwritten one. -/
theorem not_faithful_after_full_node :
    ¬ ∀ (baseSize : Nat) (blocks : List (List Byte)), 0 < baseSize → baseSize < 2 ^ 32 →
      blocks.flatten.length < 2 ^ 32 → Faithful baseSize blocks := by
  intro hfaithful
  obtain ⟨s, hrun, -, hstring⟩ :=
    hfaithful 4 [[1, 2, 3, 4], [5]] (by decide) (by decide) (by decide)
  have hread : ([[1, 2, 3, 4], [5]].foldlM write (new 4)).bind toString
      = some [some 5, some 2, some 3, some 4, none] := by decide
  rw [hrun, Option.bind_some, hstring] at hread
  exact absurd hread (by decide)

/-! ### The string of the blocks -/

theorem mapM_id_map_some (out : List Byte) : (out.map some).mapM id = some out := by
  induction out with
  | nil => rfl
  | cons b out ih =>
      rw [List.map_cons, List.mapM_cons, ih]
      rfl

theorem eq_map_some_of_mapM_id {bytes : List (Option Byte)} {out : List Byte}
    (h : bytes.mapM id = some out) : bytes = out.map some := by
  induction bytes generalizing out with
  | nil =>
      cases h
      rfl
  | cons b bytes ih =>
      rw [List.mapM_cons, Option.bind_eq_bind, Option.bind_eq_some_iff] at h
      obtain ⟨b', hb, h⟩ := h
      obtain ⟨rest, hrest, h⟩ := Option.bind_eq_some_iff.mp h
      cases h
      rw [ih hrest, show b = some b' from hb]
      rfl

theorem collect_eq_some_iff {baseSize : Nat} {blocks : List (List Byte)} {str : List Byte} :
    collect baseSize blocks = some str ↔
      ∃ s, blocks.foldlM write (new baseSize) = some s ∧ s.strayed = false ∧
        s.toString = some (str.map some) := by
  rw [collect, Option.bind_eq_bind, Option.bind_eq_some_iff]
  constructor
  · rintro ⟨s, hrun, hstr⟩
    split at hstr
    case isTrue => cases hstr
    case isFalse hstrayed =>
      obtain ⟨bytes, hbytes, hall⟩ := Option.bind_eq_some_iff.mp hstr
      rw [← eq_map_some_of_mapM_id hall]
      exact ⟨s, hrun, Bool.eq_false_iff.mpr hstrayed, hbytes⟩
  · rintro ⟨s, hrun, hstrayed, hbytes⟩
    refine ⟨s, hrun, ?_⟩
    rw [hstrayed, if_neg Bool.false_ne_true, hbytes, Option.bind_eq_bind, Option.bind_some,
      mapM_id_map_some]

variable {baseSize : Nat} {blocks : List (List Byte)}

theorem collect_of_cursorValid (hpos : 0 < baseSize) (hbase : baseSize < 2 ^ 32)
    (htotal : blocks.flatten.length < 2 ^ 32) (hvalid : CursorValid baseSize blocks) :
    collect baseSize blocks = some blocks.flatten := by
  obtain ⟨s, hrun, hinv⟩ := exists_run hpos hbase htotal
  exact collect_eq_some_iff.mpr ⟨s, hrun, hinv.toString_of_cursorValid hvalid⟩

theorem collect_of_not_cursorValid (hpos : 0 < baseSize) (hbase : baseSize < 2 ^ 32)
    (htotal : blocks.flatten.length < 2 ^ 32) (hinvalid : ¬ CursorValid baseSize blocks) :
    collect baseSize blocks = none := by
  rw [Option.eq_none_iff_forall_ne_some]
  intro str hstr
  obtain ⟨t, ht, -, hbytes⟩ := collect_eq_some_iff.mp hstr
  obtain ⟨s, hrun, hshape, -, ⟨hvalid, -⟩ | ⟨-, hspoiled⟩⟩ := exists_run hpos hbase htotal
  · exact hinvalid hvalid
  · obtain rfl : s = t := Option.some.inj (hrun.symm.trans ht)
    exact hspoiled.toString_ne hshape str hbytes

end CppUtils.Serializer
