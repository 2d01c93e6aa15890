import CppUtils.Proof.SkipListSearch

/-!
# The search and a scan of level 0

On every level the descending search stops where a walk along that whole level would stop, so it
passes no key that a level above has skipped. `find` therefore returns what a scan of level 0 for
the key returns.
-/

namespace CppUtils.SkipList

open LinkedMemory SortedKeys

variable {K V : Type} [LinearOrder K]

/-- The first node of level 0 with the key, or null. -/
def scan (s : SkipList K V) (key : K) : Option (Option Nat) :=
  (s.nextAt 0 s.head).bind
    (LinkedMemory.scan (s.nextAt 0) (fun p => s.keyEq key (some p)) (s.heap.fresh + 1))

/-- The last node of a level with a key below the given one, or the head if there is none. -/
def LastBelow (s : SkipList K V) (level : List (Entry K V)) (key : K) (p : Nat) : Prop :=
  (p = s.head ∧ ∀ b ∈ level, key ≤ b.k) ∨
    ∃ front a rest, level = front ++ a :: rest ∧ p = a.addr ∧ a.k < key ∧ ∀ b ∈ rest, key ≤ b.k

theorem lastBelow_pre (s : SkipList K V) {level : List (Entry K V)} (hlevel : Sorted Entry.k level)
    (key : K) : s.LastBelow level key (s.pre level key) := by
  have hsplit : below Entry.k key level ++ atLeast Entry.k key level = level :=
    hlevel.below_append_atLeast
  have hrest : ∀ b ∈ atLeast Entry.k key level, key ≤ b.k := fun b hb => (mem_atLeast.mp hb).2
  rcases List.eq_nil_or_concat' (below Entry.k key level) with hnil | ⟨front, a, hconcat⟩
  · rw [hnil, List.nil_append] at hsplit
    exact .inl ⟨by rw [pre, hnil]; rfl, hsplit ▸ hrest⟩
  · have ha : a ∈ below Entry.k key level := by rw [hconcat]; simp
    refine .inr ⟨front, a, atLeast Entry.k key level, ?_, ?_, (mem_below.mp ha).2, hrest⟩
    · rw [hconcat] at hsplit
      simpa using hsplit.symm
    · rw [pre, hconcat, List.map_append, List.map_singleton, List.getLastD_concat]

variable {s : SkipList K V} {n : Nat} {lev : Nat → List (Entry K V)}

theorem Levels.scan_eq (h : s.Levels n lev) (key : K) :
    s.scan key = some (((lev 0).find? fun e => e.k = key).map Entry.addr) := by
  obtain ⟨p, hp, hchain⟩ := linked_iff_chain.mp (h.linked 0 (Nat.zero_le n))
  rw [scan, hp, Option.bind_some]
  exact scan_chain hchain (fun e he => h.keyEq_eq (Nat.zero_le n) he key)
    (h.length_lt (Nat.zero_le n))

theorem Levels.findCheck_eq (h : s.Levels n lev) (key : K) :
    s.findCheck key ((atLeast Entry.k key (lev 0)).map Entry.addr).head?
      = some (((lev 0).find? fun e => e.k = key).map Entry.addr) := by
  rw [(h.sorted 0 (Nat.zero_le n)).find?_eq]
  cases hlist : atLeast Entry.k key (lev 0) with
  | nil => rfl
  | cons e rest =>
      have he : e ∈ lev 0 := (mem_atLeast.mp (hlist ▸ List.mem_cons_self)).1
      rw [List.map_cons, List.head?_cons, List.head?_cons, findCheck,
        h.keyEq_eq (Nat.zero_le n) he, Option.map_some]
      by_cases hkey : e.k = key
      · simp [hkey, Option.filter]
      · simp [hkey, Option.filter]

/-- **The search agrees with a scan.** It stops on every level at the last node below the key, and
`find` returns the node that a scan of level 0 finds, or null. -/
theorem find_eq_scan (h : s.Levels s.curLevel lev)
    (hhead : ∃ node, s.heap.read s.head = some node ∧ node.next.length = s.maxLevel + 1) (key : K) :
    (∃ p update, s.locate key = some (p, update) ∧ s.LastBelow (lev 0) key p ∧
      s.findPre key = some p ∧
      ∀ i ≤ s.curLevel, ∃ q, update[i]? = some (some q) ∧ s.LastBelow (lev i) key q) ∧
    s.find key = s.scan key ∧
    s.scan key = some (((lev 0).find? fun e => e.k = key).map Entry.addr) := by
  have hmax : s.curLevel ≤ s.maxLevel := by
    obtain ⟨node, hread, hlength⟩ := hhead
    have hnext := (h.linked s.curLevel le_rfl).next_eq
    rw [nextAt, hread, Option.bind_some] at hnext
    have hlt := (List.getElem?_eq_some_iff.mp hnext).1
    omega
  obtain ⟨update, hlocate, -, hupdate⟩ := h.locate_eq hmax key
  have hpre : s.findPre key = some (s.pre (lev 0) key) := by
    rw [findPre, hlocate, Option.map_some]
  refine ⟨⟨_, update, hlocate, lastBelow_pre s (h.sorted 0 (Nat.zero_le _)) key, hpre,
    fun i hi => ⟨_, hupdate i hi, lastBelow_pre s (h.sorted i hi) key⟩⟩, ?_, h.scan_eq key⟩
  have hnext := h.next_pre (Nat.zero_le _) key
  rw [find, hpre, h.scan_eq]
  simp only [Option.bind_eq_bind, Option.bind_some, hnext, h.findCheck_eq]

/-- A list of two levels, searched for its second key. -/
theorem find_eq_scan_two :
    let s : SkipList Nat Nat := ⟨2, 1, 0, 2, ⟨[some ⟨0, 0, [some 1, some 2, none], 2⟩,
      some ⟨5, 50, [some 2, none], 1⟩, some ⟨7, 70, [none, none, none], 2⟩]⟩⟩
    s.find 7 = some (some 2) ∧ s.find 6 = some none := by
  intro s
  let lev : Nat → List (Entry Nat Nat) := fun i =>
    if i = 0 then [⟨1, 5, 50, 1⟩, ⟨2, 7, 70, 2⟩] else [⟨2, 7, 70, 2⟩]
  have hlevels : s.Levels 1 lev :=
    { linked := fun i hi => match i, hi with
        | 0, _ => ⟨rfl, rfl, rfl⟩
        | 1, _ => ⟨rfl, rfl⟩
      sorted := fun i hi => match i, hi with
        | 0, _ => by simp [lev, Sorted]
        | 1, _ => by simp [lev, Sorted]
      sublist := fun i hi => match i, hi with
        | 0, _ => by simp [lev]
      key_eq := fun i hi => match i, hi with
        | 0, _ => by simp [lev, s, Memory.read]
        | 1, _ => by simp [lev, s, Memory.read] }
  have hhead : ∃ node, s.heap.read s.head = some node ∧ node.next.length = s.maxLevel + 1 :=
    ⟨_, rfl, rfl⟩
  refine ⟨?_, ?_⟩
  · obtain ⟨-, heq, hscan⟩ := find_eq_scan hlevels hhead 7
    rw [heq, hscan]
    rfl
  · obtain ⟨-, heq, hscan⟩ := find_eq_scan hlevels hhead 6
    rw [heq, hscan]
    rfl

end CppUtils.SkipList
