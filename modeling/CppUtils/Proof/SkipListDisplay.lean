import CppUtils.Proof.SkipListMap

/-!
# What `display` prints

Where the list refines the map, `display` prints a line for each level from `_curLevel` down, the
keys of a line ascending; the last line is the whole map. The call that first erases a node on
level `_curLevel` leaves a deleted node on that level, and `display` reads it.
-/

namespace CppUtils.SkipList

open LinkedMemory SortedKeys

variable {K V : Type} {outK : K → List Byte} {outV : V → List Byte} {s t : SkipList K V}
  {l : List (Entry K V)}

section Text

variable (outK outV)

def entryText (e : Entry K V) : List Byte :=
  bytes "(key: " ++ outK e.k ++ bytes ", val: " ++ outV e.v ++ bytes ")"

def lineText (l : List (Entry K V)) : List Byte :=
  (bytes "\t").intercalate (l.map (entryText outK outV)) ++ bytes "\n"

/-- The lines for the levels below `n`, the highest first. -/
def tableText (l : List (Entry K V)) (n : Nat) : List Byte :=
  (List.range n).reverse.flatMap fun i => lineText outK outV (onLevel i l)

end Text

theorem tableText_succ (n : Nat) :
    tableText outK outV l (n + 1) = lineText outK outV (onLevel n l) ++ tableText outK outV l n := by
  rw [tableText, List.range_succ, List.reverse_append, List.reverse_singleton,
    List.singleton_append, List.flatMap_cons, tableText]

/-- A line that has nodes on it already goes on with a tab. -/
def restText (outK : K → List Byte) (outV : V → List Byte) (j : Nat) (l : List (Entry K V)) :
    List Byte :=
  if j = 0 then (bytes "\t").intercalate (l.map (entryText outK outV))
  else l.flatMap fun e => bytes "\t" ++ entryText outK outV e

theorem intercalate_cons (sep x : List Byte) (xs : List (List Byte)) :
    sep.intercalate (x :: xs) = x ++ xs.flatMap (sep ++ ·) := by
  induction xs generalizing x with
  | nil => simp
  | cons y xs ih => simp only [List.intercalate_cons_cons, ih, List.flatMap_cons, List.append_assoc]

theorem restText_cons (j : Nat) (e : Entry K V) :
    restText outK outV j (e :: l) = (if j ≠ 0 then bytes "\t" else []) ++ entryText outK outV e ++
      restText outK outV (j + 1) l := by
  cases j with
  | zero =>
      rw [restText, if_pos rfl, List.map_cons, intercalate_cons, List.flatMap_map]
      rfl
  | succ j => simp [restText]

theorem displayRow_chain {i : Nat} {start : Option Nat}
    (h : Chain (s.nextAt i) start (l.map Entry.addr))
    (hread : ∀ e ∈ l, ∃ n, s.heap.read e.addr = some n ∧ n.k = e.k ∧ n.v = e.v) {fuel : Nat}
    (hfuel : l.length < fuel) (j : Nat) :
    s.displayRow outK outV i fuel j start = some (restText outK outV j l) := by
  induction l generalizing start fuel j with
  | nil =>
      obtain ⟨fuel, rfl⟩ : ∃ k, fuel = k + 1 := ⟨fuel - 1, by omega⟩
      rw [h.eq_head, restText]
      split <;> rfl
  | cons e l ih =>
      obtain ⟨fuel, rfl⟩ : ∃ k, fuel = k + 1 := ⟨fuel - 1, by omega⟩
      obtain rfl : start = some e.addr := h.eq_head
      obtain ⟨_, heq, hlinked⟩ := h
      obtain rfl := (List.cons.inj heq).2
      obtain ⟨q, hq, hchain⟩ := linked_iff_chain.mp hlinked
      obtain ⟨n, hn, hk, hv⟩ := hread e List.mem_cons_self
      have hrest := ih hchain (fun b hb => hread b (List.mem_cons_of_mem _ hb))
        (Nat.lt_of_succ_lt_succ hfuel) (j + 1)
      simp only [displayRow, hn, hq, hrest, Option.bind_eq_bind, Option.bind_some]
      rw [restText_cons, entryText, hk, hv]

/-- A deleted node on the line is read. -/
theorem displayRow_eq_none {next : Nat → Option (Option Nat)} {i : Nat} {start : Option Nat}
    {addrs : List Nat} (h : Chain next start addrs) {p : Nat} (hp : p ∈ addrs)
    (hfreed : t.heap.read p = none) (hnext : ∀ q ≠ p, t.nextAt i q = next q) (fuel j : Nat) :
    t.displayRow outK outV i fuel j start = none := by
  induction addrs generalizing start fuel j with
  | nil => cases hp
  | cons a addrs ih =>
      obtain rfl : start = some a := h.eq_head
      obtain ⟨_, heq, hlinked⟩ := h
      obtain rfl := (List.cons.inj heq).2
      cases fuel with
      | zero => rfl
      | succ fuel =>
          by_cases ha : a = p
          · rw [displayRow, ha, hfreed]
            rfl
          · obtain ⟨q, hq, hchain⟩ := linked_iff_chain.mp hlinked
            have hrest := ih hchain ((List.mem_cons.mp hp).resolve_left (Ne.symm ha)) fuel (j + 1)
            simp only [displayRow, hnext a ha, hq, hrest, Option.bind_eq_bind, Option.bind_some,
              Option.bind_none]
            cases t.heap.read a <;> rfl

section Map

variable [LinearOrder K]

theorem Leveled.displayLevels_eq (h : s.Leveled l) {n : Nat} (hn : n ≤ s.maxLevel + 1) :
    s.displayLevels outK outV n = some (tableText outK outV l n) := by
  induction n with
  | zero => rfl
  | succ n ih =>
      have hle : n ≤ s.maxLevel := Nat.le_of_lt_succ hn
      obtain ⟨p, hp, hchain⟩ := linked_iff_chain.mp (h.linked n hle)
      have hread : ∀ e ∈ onLevel n l, ∃ node, s.heap.read e.addr = some node ∧ node.k = e.k ∧
          node.v = e.v := by
        intro e he
        obtain ⟨node, hread, hk, hv, -⟩ := h.read_eq (mem_onLevel.mp he).1
        exact ⟨node, hread, hk, hv⟩
      have hrow : s.displayRow outK outV n (s.heap.fresh + 1) 0 p =
          some (restText outK outV 0 (onLevel n l)) :=
        displayRow_chain hchain hread (h.levels.length_lt hle) 0
      rw [tableText_succ, lineText]
      simp only [displayLevels, hp, hrow, ih (Nat.le_of_succ_le hn), Option.bind_eq_bind,
        Option.bind_some, restText, if_pos]

/-- After a node on level `_curLevel` was erased, that level still leads to it. -/
theorem WellFormed.display_eq_none (h : s.WellFormed l) {e : Entry K V} (he : e ∈ l)
    (hlevel : s.curLevel < e.level) (herase : s.erase e.k = some t) :
    t.display outK outV = none := by
  obtain ⟨m, c, herase', g, hle, habove⟩ := h.erase_of_mem he
  have ht := Option.some.inj (herase.symm.trans herase')
  have hon : e.addr ∈ (onLevel s.curLevel l).map Entry.addr :=
    List.mem_map_of_mem (mem_onLevel.mpr ⟨he, hlevel⟩)
  have hframe : ∀ q, m.nextAt s.curLevel q = s.nextAt s.curLevel q := fun q =>
    g.frame _ _ (Or.inl le_rfl)
  obtain ⟨start, hstart, hchain⟩ := linked_iff_chain.mp (h.linked s.curLevel h.curLevel_le)
  -- the head still points into that level, so `_curLevel` was not lowered
  have hcurLevel : t.curLevel = s.curLevel := by
    rw [ht]
    by_contra hne
    have hnull := habove s.curLevel (lt_of_le_of_ne hle hne) le_rfl
    rw [hframe, hstart] at hnull
    obtain rfl := Option.some.inj hnull
    rw [show (onLevel s.curLevel l).map Entry.addr = [] from hchain] at hon
    cases hon
  have hfreed : t.heap.read e.addr = none := by
    rw [ht]
    exact Memory.read_free_self
  have hnext : ∀ q ≠ e.addr, t.nextAt s.curLevel q = s.nextAt s.curLevel q := by
    intro q hq
    rw [ht, nextAt, Memory.read_free_of_ne hq]
    exact hframe q
  have hhead : t.nextAt s.curLevel t.head = some start := by
    rw [show t.head = s.head by rw [ht]; exact g.same.head, ← hstart]
    exact hnext s.head (h.leveled.addr_ne_head he).symm
  rw [display, hcurLevel, displayLevels, hhead, Option.bind_eq_bind, Option.bind_some,
    displayRow_eq_none hchain hon hfreed hnext]
  rfl

theorem sound_of_reachable [Inhabited K] [Inhabited V] {maxLevel : Nat} {c : Mapped K V}
    (hc : Transition.Reachable (· = ⟨new maxLevel, fun _ => none⟩)
      (fun c call c' => Step c call c' ∧ OffCurLevel c.list call) c) : Sound c :=
  hc.invariant_from ⟨[], wellFormed_new maxLevel, by simp [Carries]⟩
    fun _ _ _ h hstep => h.step hstep.1 hstep.2

/-- A call that is not off level `_curLevel` erases a node that stands there. -/
theorem WellFormed.exists_erased {c c' : Mapped K V} {call : Call K V} (h : c.list.WellFormed l)
    (hstep : Step c call c') (hcall : ¬ OffCurLevel c.list call) :
    ∃ e ∈ l, c.list.curLevel < e.level ∧ c.list.erase e.k = some c'.list := by
  cases hstep with
  | insert _ _ => exact absurd trivial hcall
  | @erase t key _ herase =>
      simp only [OffCurLevel, not_forall, not_le] at hcall
      obtain ⟨p, n, hp, hread, rfl, hlevel⟩ := hcall
      obtain ⟨e, he, rfl⟩ := List.mem_map.mp ((h.only p n hread).resolve_left hp)
      obtain ⟨n', hread', hk, -, hlevel', -⟩ := h.leveled.read_eq he
      obtain rfl := Option.some.inj (hread.symm.trans hread')
      exact ⟨e, he, hlevel' ▸ hlevel, hk ▸ herase⟩

/-- **The table.** Along a run that erases no node on level `_curLevel`, `display` prints a line for
each level down to level 0, where every key stands with its value; and after the first call that
does erase such a node, it reads a deleted node. -/
theorem display_of_run [Inhabited K] [Inhabited V] {maxLevel : Nat} {c : Mapped K V}
    (hc : Transition.Reachable (· = ⟨new maxLevel, fun _ => none⟩)
      (fun c call c' => Step c call c' ∧ OffCurLevel c.list call) c)
    (outK : K → List Byte) (outV : V → List Byte) :
    (∃ l, c.list.WellFormed l ∧ Carries l c.live ∧ onLevel 0 l = l ∧
      c.list.display outK outV = some (bytes "\n****** Skip List *******\n" ++
        tableText outK outV l (c.list.curLevel + 1))) ∧
    ∀ call c', Step c call c' →
      ((c'.list.display outK outV).isSome = true ↔ OffCurLevel c.list call) := by
  have hdisplay : ∀ {c : Mapped K V}, Sound c → ∃ l, c.list.WellFormed l ∧
      Carries l c.live ∧ onLevel 0 l = l ∧ c.list.display outK outV = some
        (bytes "\n****** Skip List *******\n" ++ tableText outK outV l (c.list.curLevel + 1)) := by
    rintro c ⟨l, hl, hlive⟩
    refine ⟨l, hl, hlive, hl.leveled.onLevel_zero, ?_⟩
    rw [display, hl.leveled.displayLevels_eq (Nat.succ_le_succ hl.curLevel_le), Option.map_some]
  have hsound := sound_of_reachable hc
  refine ⟨hdisplay hsound, fun call c' hstep => ⟨fun hsome => ?_, fun hcall => ?_⟩⟩
  · by_contra hcall
    obtain ⟨l, hl, -⟩ := hsound
    obtain ⟨e, he, hlevel, herase⟩ := hl.exists_erased hstep hcall
    rw [hl.display_eq_none he hlevel herase] at hsome
    cases hsome
  · obtain ⟨l, -, -, -, htext⟩ := hdisplay (hsound.step hstep hcall)
    rw [htext]
    rfl

end Map

/-- One key, on level 0. -/
theorem reachable_one :
    Transition.Reachable (· = (⟨new 2, fun _ => none⟩ : Mapped Nat Nat))
      (fun c call c' => Step c call c' ∧ OffCurLevel c.list call)
      ⟨⟨2, 1, 0, 1, ⟨[some ⟨0, 0, [some 1, none, none], 2⟩, some ⟨1, 10, [none, none], 1⟩]⟩⟩,
        Function.update (fun _ => none) 1 (some 10)⟩ := by
  have hinsert : (new 2 : SkipList Nat Nat).insert 1 10 1 = some (0, ⟨2, 1, 0, 1,
      ⟨[some ⟨0, 0, [some 1, none, none], 2⟩, some ⟨1, 10, [none, none], 1⟩]⟩⟩) := by decide
  exact ⟨_, [.insert 1 10 1], rfl, .cons ⟨.insert (by decide) hinsert, trivial⟩ (.nil _)⟩

theorem display_of_one :
    ∃ c : Mapped Nat Nat, c.live 1 = some 10 ∧
      (∃ l, c.list.WellFormed l ∧ Carries l c.live ∧ onLevel 0 l = l ∧
        c.list.display (fun k => bytes (toString k)) (fun v => bytes (toString v)) =
          some (bytes "\n****** Skip List *******\n" ++ tableText (fun k => bytes (toString k))
            (fun v => bytes (toString v)) l (c.list.curLevel + 1))) ∧
      ∀ call c', Step c call c' →
        ((c'.list.display (fun k => bytes (toString k)) fun v => bytes (toString v)).isSome = true ↔
          OffCurLevel c.list call) :=
  ⟨_, rfl, display_of_run reachable_one _ _⟩

end CppUtils.SkipList
