import CppUtils.Proof.SkipListInsert
import CppUtils.SkipListThreads

/-!
# `find` among concurrent insertions

Between `findPre` and the read of `pre->next[0]` other threads may insert. If one of them puts a key
between the predecessor and the key looked for, the read returns that node and `find` misses a key
that is on the list all the time; otherwise it finds it. What happens after the read does not
matter, since a node keeps its key. No node is deleted here, so each of the three steps is possible.
-/

namespace CppUtils.SkipList

open LinkedMemory SortedKeys

variable {τ K V : Type} [LinearOrder K]

/-- The node `p` is on the list, with this key. -/
def OnList (s : SkipList K V) (p : Nat) (key : K) : Prop :=
  p ≠ s.head ∧ ∃ n, s.heap.read p = some n ∧ n.k = key

theorem WellFormed.onList_iff {s : SkipList K V} {l : List (Entry K V)} (h : s.WellFormed l)
    {p : Nat} {key : K} : s.OnList p key ↔ ∃ e ∈ l, e.addr = p ∧ e.k = key := by
  constructor
  · rintro ⟨hp, n, hread, hk⟩
    obtain ⟨e, he, rfl⟩ := List.mem_map.mp ((h.only p n hread).resolve_left hp)
    obtain ⟨n', hread', hk', -⟩ := h.leveled.read_eq he
    obtain rfl := Option.some.inj (hread.symm.trans hread')
    exact ⟨e, he, rfl, hk'.symm.trans hk⟩
  · rintro ⟨e, he, rfl, rfl⟩
    obtain ⟨n, hread, hk, -⟩ := h.leveled.read_eq he
    exact ⟨h.leveled.addr_ne_head he, n, hread, hk⟩

/-- The predecessor is still the last node below the key exactly if nothing came in between. -/
theorem WellFormed.next_pre_iff {s s' : SkipList K V} {l l' : List (Entry K V)}
    (h : s.WellFormed l) (h' : s'.WellFormed l') (hhead : s'.head = s.head) (hsub : l ⊆ l')
    {e : Entry K V} (he : e ∈ l) :
    s'.nextAt 0 (s.pre l e.k) = some (some e.addr) ↔
      ∀ b ∈ l', b.k < e.k → ∃ a ∈ l, b.k ≤ a.k ∧ a.k < e.k := by
  have hnext' := (h'.leveled.keyEq_of_mem (hsub he) rfl).1
  rw [h'.leveled.onLevel_zero] at hnext'
  have hmem := pre_mem s l e.k
  have hcases := pre_cases s h.sorted e.k
  have hcases' := pre_cases s' h'.sorted e.k
  constructor
  · intro hnext b hb hlt
    -- both predecessors have `e` behind them, so they are one node
    have hlinked := h'.linked 0 (Nat.zero_le _)
    have hnodup := h'.nodup
    rw [h'.leveled.onLevel_zero] at hlinked
    have hold : s.pre l e.k ∈ s'.head :: l'.map Entry.addr := by
      rcases hmem with heq | ⟨a, ha, -, heq⟩
      · rw [heq, hhead]
        exact List.mem_cons_self
      · rw [heq]
        exact List.mem_cons_of_mem _ (List.mem_map_of_mem (hsub ha))
    have hnew : s'.pre l' e.k ∈ s'.head :: l'.map Entry.addr := by
      have hcons := pre_mem_cons s' l' 0 e.k
      rwa [h'.leveled.onLevel_zero] at hcons
    have heq := hlinked.eq_of_next_eq hnodup hold hnew hnext hnext'
    rcases hcases' with ⟨-, hnone⟩ | ⟨a', ha', hlt', haddr', hmax'⟩
    · exact absurd hlt (not_lt.mpr (hnone b hb))
    · rcases hmem with hpre | ⟨a, ha, halt, hpre⟩
      · have hhead' : a'.addr = s'.head :=
          (haddr'.symm.trans heq.symm).trans (hpre.trans hhead.symm)
        exact absurd hhead' (h'.leveled.addr_ne_head ha')
      · have hsame : a' = a :=
          h'.leveled.eq_of_addr_eq ha' (hsub ha) ((haddr'.symm.trans heq.symm).trans hpre)
        exact ⟨a, ha, hsame ▸ hmax' b hb hlt, halt⟩
  · intro hnone
    have heq : s.pre l e.k = s'.pre l' e.k := by
      rcases hcases' with ⟨hpre', hall'⟩ | ⟨a', ha', hlt', haddr', hmax'⟩
      · rcases hmem with hpre | ⟨a, ha, halt, -⟩
        · rw [hpre, hpre', hhead]
        · exact absurd halt (not_lt.mpr (hall' a (hsub ha)))
      · obtain ⟨a, ha, hle, halt⟩ := hnone a' ha' hlt'
        rcases hcases with ⟨-, hall⟩ | ⟨a₀, ha₀, hlt₀, haddr₀, hmax₀⟩
        · exact absurd halt (not_lt.mpr (hall a ha))
        · have hkey : a₀.k = a'.k :=
            le_antisymm (hmax' a₀ (hsub ha₀) hlt₀) (hle.trans (hmax₀ a ha halt))
          rw [haddr₀, haddr', h'.sorted.eq_of_key_eq (hsub ha₀) ha' hkey]
    rw [heq]
    exact hnext'

/-! ### Runs of insertions -/

section Runs

variable [DecidableEq τ] {s t : Shared τ K V} {l : List (Entry K V)}

/-- What a step does to the list: an insertion sees to it that its key is there, nothing else
changes it. -/
theorem ThreadStep.wellFormed {label : ThreadLabel τ K V} (hstep : ThreadStep s label t)
    (h : s.list.WellFormed l) :
    ∃ l', t.list.WellFormed l' ∧ t.list.head = s.list.head ∧ l ⊆ l' ∧
      ∀ key, (∃ b ∈ l', b.k = key) ↔ (∃ b ∈ l, b.k = key) ∨ label.key? = some key := by
  cases hstep with
  | @insert list u key val R ret hfree hlevel hcall =>
      by_cases hkey : ∃ e ∈ l, e.k = key
      · obtain ⟨e, he, hek⟩ := hkey
        cases hcall.symm.trans (h.leveled.insert_of_mem he hek val R)
        refine ⟨l, h, rfl, List.Subset.refl l, fun key' => ⟨Or.inl, ?_⟩⟩
        rintro (hold | hnew)
        · exact hold
        · exact ⟨e, he, hek.trans (Option.some.inj hnew)⟩
      · push Not at hkey
        obtain ⟨list', hcall', hwf, -, hhead⟩ := h.insert_of_not_mem hkey val hlevel
        cases hcall.symm.trans hcall'
        refine ⟨_, hwf, hhead, fun b hb => (mem_inserted h.sorted).mpr (Or.inr hb),
          fun key' => ⟨?_, ?_⟩⟩
        · rintro ⟨b, hb, hbk⟩
          rcases (mem_inserted h.sorted).mp hb with rfl | hb
          · exact Or.inr (congrArg some hbk)
          · exact Or.inl ⟨b, hb, hbk⟩
        · rintro (⟨b, hb, hbk⟩ | hnew)
          · exact ⟨b, (mem_inserted h.sorted).mpr (Or.inr hb), hbk⟩
          · exact ⟨_, (mem_inserted h.sorted).mpr (Or.inl rfl), Option.some.inj hnew⟩
  | findPre => exact ⟨l, h, rfl, List.Subset.refl l, fun key => by simp [ThreadLabel.key?]⟩
  | load => exact ⟨l, h, rfl, List.Subset.refl l, fun key => by simp [ThreadLabel.key?]⟩
  | check => exact ⟨l, h, rfl, List.Subset.refl l, fun key => by simp [ThreadLabel.key?]⟩

theorem ThreadStep.finder_eq {label : ThreadLabel τ K V} (hstep : ThreadStep s label t) {u : τ}
    (hu : label.thread ≠ u) : t.finder u = s.finder u := by
  cases hstep with
  | insert => rfl
  | findPre => exact Function.update_of_ne (Ne.symm hu) _ _
  | load => exact Function.update_of_ne (Ne.symm hu) _ _
  | check => exact Function.update_of_ne (Ne.symm hu) _ _

theorem ThreadStep.findPre_spec {u : τ} {key : K} (hstep : ThreadStep s (.findPre u key) t) :
    ∃ pre, s.list.findPre key = some pre ∧ t.list = s.list ∧ t.finder u = .located key pre := by
  cases hstep with
  | findPre _ hpre => exact ⟨_, hpre, rfl, Function.update_self _ _ _⟩

theorem ThreadStep.load_spec {u : τ} {key : K} {pre : Nat} (hstep : ThreadStep s (.load u) t)
    (hu : s.finder u = .located key pre) :
    ∃ node, s.list.nextAt 0 pre = some node ∧ t.list = s.list ∧ t.finder u = .loaded key node := by
  cases hstep with
  | load ht hnode =>
      cases hu.symm.trans ht
      exact ⟨_, hnode, rfl, Function.update_self _ _ _⟩

theorem ThreadStep.check_spec {u : τ} {key : K} {node : Option Nat}
    (hstep : ThreadStep s (.check u) t) (hu : s.finder u = .loaded key node) :
    ∃ result, s.list.findCheck key node = some result ∧ t.finder u = .returned key result := by
  cases hstep with
  | check ht hresult =>
      cases hu.symm.trans ht
      exact ⟨_, hresult, Function.update_self _ _ _⟩

/-- What a run does to the list, and to a thread that takes no step in it. -/
theorem run_wellFormed {labels : List (ThreadLabel τ K V)}
    (hrun : Transition.Run ThreadStep s labels t) (h : s.list.WellFormed l) {u : τ}
    (hu : ∀ label ∈ labels, label.thread ≠ u) :
    ∃ l', t.list.WellFormed l' ∧ t.list.head = s.list.head ∧ l ⊆ l' ∧
      (∀ key, (∃ b ∈ l', b.k = key) ↔ (∃ b ∈ l, b.k = key) ∨ some key ∈ labels.map (·.key?)) ∧
      t.finder u = s.finder u := by
  induction hrun generalizing l with
  | nil s => exact ⟨l, h, rfl, List.Subset.refl l, fun key => by simp, rfl⟩
  | @cons s m t label labels first rest ih =>
      obtain ⟨l₁, h₁, hhead₁, hsub₁, hkeys₁⟩ := first.wellFormed h
      obtain ⟨l₂, h₂, hhead₂, hsub₂, hkeys₂, hfinder⟩ :=
        ih h₁ fun label hmem => hu label (List.mem_cons_of_mem _ hmem)
      refine ⟨l₂, h₂, hhead₂.trans hhead₁, fun b hb => hsub₂ (hsub₁ hb), fun key => ?_,
        hfinder.trans (first.finder_eq (hu label List.mem_cons_self))⟩
      rw [hkeys₂ key, hkeys₁ key, List.map_cons, List.mem_cons, or_assoc, eq_comm (a := some key)]

theorem exists_wellFormed [Inhabited K] [Inhabited V] {maxLevel : Nat}
    (hs : Transition.Reachable (· = Shared.new maxLevel) ThreadStep s) :
    ∃ l, s.list.WellFormed l := by
  have hinit : ∃ l, (Shared.new maxLevel : Shared τ K V).list.WellFormed l :=
    ⟨[], wellFormed_new maxLevel⟩
  refine hs.invariant_from hinit ?_
  rintro s label t ⟨l, h⟩ hstep
  obtain ⟨l', h', -⟩ := hstep.wellFormed h
  exact ⟨l', h'⟩

/-! ### The steps of `find` are possible -/

theorem exists_findPre (h : s.list.WellFormed l) {u : τ} (hu : (s.finder u).Free) (key : K) :
    ∃ t, ThreadStep s (.findPre u key) t := by
  obtain ⟨update, hlocate, -⟩ := h.leveled.locate_eq key
  have hpre : s.list.findPre key = some (s.list.pre (onLevel 0 l) key) := by
    rw [findPre, hlocate, Option.map_some]
  exact ⟨_, .findPre hu hpre⟩

theorem exists_load (h : s.list.WellFormed l) {u : τ} {key : K} {pre : Nat}
    (hu : s.finder u = .located key pre) (hlive : (s.list.heap.read pre).isSome = true) :
    ∃ t, ThreadStep s (.load u) t := by
  obtain ⟨node, hnode⟩ := Option.isSome_iff_exists.mp (h.isSome_nextAt_zero.mpr hlive)
  exact ⟨_, .load hu hnode⟩

theorem exists_check {u : τ} {key : K} {node : Option Nat} (hu : s.finder u = .loaded key node)
    (hlive : ∀ p, node = some p → (s.list.heap.read p).isSome = true) :
    ∃ t, ThreadStep s (.check u) t := by
  cases node with
  | none => exact ⟨_, .check hu rfl⟩
  | some p =>
      obtain ⟨n, hread⟩ := Option.isSome_iff_exists.mp (hlive p rfl)
      have hresult : s.list.findCheck key (some p) =
          some (if decide (n.k = key) then some p else none) := by
        rw [findCheck, keyEq, hread]
        rfl
      exact ⟨_, .check hu hresult⟩

/-- The predecessor is the head or a node of the list. -/
theorem WellFormed.isSome_read_pre {list : SkipList K V} (h : list.WellFormed l) (key : K) :
    (list.heap.read (list.pre l key)).isSome = true := by
  rcases pre_mem list l key with hhead | ⟨e, he, -, haddr⟩
  · rw [hhead]
    exact h.isSome_read_head
  · rw [haddr]
    exact h.isSome_read he

/-- A node of the list stays live while keys are inserted. -/
theorem WellFormed.isSome_read_of_subset {list list' : SkipList K V} {l' : List (Entry K V)}
    (h : list.WellFormed l) (h' : list'.WellFormed l') (hhead : list'.head = list.head)
    (hsub : l ⊆ l') {p : Nat} (hlive : (list.heap.read p).isSome = true) :
    (list'.heap.read p).isSome = true := by
  obtain ⟨n, hread⟩ := Option.isSome_iff_exists.mp hlive
  rcases h.only p n hread with rfl | hmem
  · rw [← hhead]
    exact h'.isSome_read_head
  · obtain ⟨e, he, rfl⟩ := List.mem_map.mp hmem
    exact h'.isSome_read (hsub he)

/-- The comparison gives the node of the key exactly if that is the node that was read. -/
theorem WellFormed.findCheck_eq_iff {list : SkipList K V} (h : list.WellFormed l) {e : Entry K V}
    (he : e ∈ l) {node result : Option Nat} (hresult : list.findCheck e.k node = some result) :
    result = some e.addr ↔ node = some e.addr := by
  rw [findCheck] at hresult
  obtain ⟨found, hfound, rfl⟩ := Option.map_eq_some_iff.mp hresult
  constructor
  · intro heq
    cases found with
    | true => exact heq
    | false => cases heq
  · rintro rfl
    rw [(h.leveled.keyEq_of_mem he rfl).2] at hfound
    obtain rfl := Option.some.inj hfound
    rfl

/-- **When `find` finds.** In any run, while the others do what they like before, between and after,
the three steps of a `find` of thread `u` can be taken; and if the key is on the list in the node
`p` when it starts, it returns `p` if and only if every key inserted between `findPre` and the read
is either not below the key or not above all keys that `findPre` saw below it. -/
theorem find_returns_iff [Inhabited K] [Inhabited V] {maxLevel p : Nat} {key : K} {u : τ}
    {s₀ : Shared τ K V} (hs : Transition.Reachable (· = Shared.new maxLevel) ThreadStep s₀)
    (hfree : (s₀.finder u).Free) (hp : s₀.list.OnList p key) :
    (∃ s₁, ThreadStep s₀ (.findPre u key) s₁) ∧
    ∀ s₁ between s₂, ThreadStep s₀ (.findPre u key) s₁ →
      Transition.Run ThreadStep s₁ between s₂ → (∀ label ∈ between, label.thread ≠ u) →
      (∃ s₃, ThreadStep s₂ (.load u) s₃) ∧
      ∀ s₃ after s₄, ThreadStep s₂ (.load u) s₃ →
        Transition.Run ThreadStep s₃ after s₄ → (∀ label ∈ after, label.thread ≠ u) →
        (∃ s₅, ThreadStep s₄ (.check u) s₅) ∧
        ∀ s₅, ThreadStep s₄ (.check u) s₅ →
          (s₅.finder u = .returned key (some p) ↔
            ∀ label ∈ between, ∀ inserted, label.key? = some inserted → inserted < key →
              ∃ q seen, s₀.list.OnList q seen ∧ inserted ≤ seen ∧ seen < key) := by
  obtain ⟨l, h⟩ := exists_wellFormed hs
  obtain ⟨e, he, rfl, rfl⟩ := h.onList_iff.mp hp
  refine ⟨exists_findPre h hfree e.k, fun s₁ between s₂ hpre hbetween hu => ?_⟩
  obtain ⟨update, hlocate, -⟩ := h.leveled.locate_eq e.k
  obtain ⟨start, hstart, hlist₁, hlocated⟩ := hpre.findPre_spec
  have hpreEq : s₀.list.pre l e.k = start := by
    rw [findPre, hlocate, Option.map_some, h.leveled.onLevel_zero] at hstart
    exact Option.some.inj hstart
  obtain ⟨l₂, h₂, hhead₂, hsub₂, hkeys₂, hfinder₂⟩ := run_wellFormed hbetween (hlist₁ ▸ h) hu
  rw [hlist₁] at hhead₂
  have hlive : (s₂.list.heap.read start).isSome = true :=
    h.isSome_read_of_subset h₂ hhead₂ hsub₂ (hpreEq ▸ h.isSome_read_pre e.k)
  refine ⟨exists_load h₂ (hfinder₂.trans hlocated) hlive, fun s₃ after s₄ hload hafter hu' => ?_⟩
  obtain ⟨node, hnode, hlist₃, hloaded⟩ := hload.load_spec (hfinder₂.trans hlocated)
  obtain ⟨l₄, h₄, -, hsub₄, -, hfinder₄⟩ := run_wellFormed hafter (hlist₃ ▸ h₂) hu'
  have hnodeLive : ∀ q, node = some q → (s₄.list.heap.read q).isSome = true := by
    rintro q rfl
    obtain ⟨b, hb, rfl⟩ := h₂.mem_of_next_zero hnode
    exact h₄.isSome_read (hsub₄ hb)
  refine ⟨exists_check (hfinder₄.trans hloaded) hnodeLive, fun s₅ hcheck => ?_⟩
  obtain ⟨result, hresult, hreturned⟩ := hcheck.check_spec (hfinder₄.trans hloaded)
  have hread : node = some e.addr ↔ ∀ b ∈ l₂, b.k < e.k → ∃ a ∈ l, b.k ≤ a.k ∧ a.k < e.k := by
    rw [← h.next_pre_iff h₂ hhead₂ hsub₂ he, hpreEq, hnode, Option.some.injEq]
  rw [hreturned, Finder.returned.injEq, and_iff_right rfl,
    h₄.findCheck_eq_iff (hsub₄ (hsub₂ he)) hresult, hread]
  constructor
  · intro hnone label hlabel inserted hins hlt
    obtain ⟨b, hb, rfl⟩ := (hkeys₂ inserted).mpr (Or.inr (List.mem_map.mpr ⟨label, hlabel, hins⟩))
    obtain ⟨a, ha, hle, halt⟩ := hnone b hb hlt
    exact ⟨a.addr, a.k, h.onList_iff.mpr ⟨a, ha, rfl, rfl⟩, hle, halt⟩
  · intro hnone b hb hlt
    rcases (hkeys₂ b.k).mp ⟨b, hb, rfl⟩ with ⟨a, ha, hak⟩ | hins
    · exact ⟨a, ha, hak.ge, hak ▸ hlt⟩
    · obtain ⟨label, hlabel, hkey⟩ := List.mem_map.mp hins
      obtain ⟨q, seen, hq, hle, halt⟩ := hnone label hlabel b.k hkey hlt
      obtain ⟨a, ha, -, rfl⟩ := h.onList_iff.mp hq
      exact ⟨a, ha, hle, halt⟩

/-- The list holds 5, and thread 0 inserts 7 while thread 1 is in `find(5)`. -/
theorem find_returns_iff_insert_above : ∃ s₀ s₁ s₂ s₃ s₄ : Shared Nat Nat Nat,
    Transition.Reachable (· = Shared.new 1) ThreadStep s₀ ∧ s₀.list.OnList 1 5 ∧
      ThreadStep s₀ (.findPre 1 5) s₁ ∧
      Transition.Run ThreadStep s₁ [.insert 0 7 70 1] s₂ ∧
      ThreadStep s₂ (.load 1) s₃ ∧ ThreadStep s₃ (.check 1) s₄ ∧
      s₄.list.OnList 2 7 ∧ s₄.finder 1 = .returned 5 (some 1) := by
  let five : SkipList Nat Nat := ⟨1, 1, 0, 1,
    ⟨[some ⟨0, 0, [some 1, none], 1⟩, some ⟨5, 50, [none, none], 1⟩]⟩⟩
  let seven : SkipList Nat Nat := ⟨1, 1, 0, 2, ⟨[some ⟨0, 0, [some 1, none], 1⟩,
    some ⟨5, 50, [some 2, none], 1⟩, some ⟨7, 70, [none, none], 1⟩]⟩⟩
  let inside (finder : Finder Nat) : Nat → Finder Nat :=
    Function.update (fun _ => Finder.outside) 1 finder
  have hfive : (SkipList.new 1 : SkipList Nat Nat).insert 5 50 1 = some (0, five) := by decide
  have hseven : five.insert 7 70 1 = some (0, seven) := by decide
  have hs : Transition.Reachable (· = (Shared.new 1 : Shared Nat Nat Nat)) ThreadStep
      ⟨five, fun _ => .outside⟩ :=
    ⟨_, [.insert 0 5 50 1], rfl, .cons (.insert trivial (by decide) hfive) (.nil _)⟩
  have hp : five.OnList 1 5 := ⟨by decide, _, rfl, rfl⟩
  have hpre : ThreadStep (⟨five, fun _ => .outside⟩ : Shared Nat Nat Nat) (.findPre 1 5)
      ⟨five, inside (.located 5 0)⟩ := .findPre trivial (by decide)
  have hbetween : Transition.Run ThreadStep ⟨five, inside (.located 5 0)⟩ [.insert 0 7 70 1]
      ⟨seven, inside (.located 5 0)⟩ := .cons (.insert (by trivial) (by decide) hseven) (.nil _)
  obtain ⟨-, hfind⟩ := find_returns_iff (u := 1) hs trivial hp
  obtain ⟨⟨s₃, hload⟩, hfind⟩ := hfind _ _ _ hpre hbetween (by simp [ThreadLabel.thread])
  obtain ⟨⟨s₄, hcheck⟩, hfind⟩ := hfind s₃ [] s₃ hload (.nil _) (by simp)
  have hlist : s₄.list = seven := by
    cases hcheck
    cases hload
    rfl
  refine ⟨_, _, _, s₃, s₄, hs, hp, hpre, hbetween, hload, hcheck, ?_, (hfind s₄ hcheck).mpr ?_⟩
  · rw [hlist]
    exact ⟨by decide, _, rfl, rfl⟩
  · intro label hlabel key hkey hlt
    obtain rfl := List.mem_singleton.mp hlabel
    obtain rfl := Option.some.inj hkey
    exact absurd hlt (by decide)

/-- The list holds 5, and 3 is inserted after `findPre(5)` has returned the head. -/
theorem not_find_returns :
    ¬ ∀ (maxLevel p key : Nat) (u : Nat) (s₀ s₁ s₂ s₃ s₄ s₅ : Shared Nat Nat Nat)
        (between after : List (ThreadLabel Nat Nat Nat)),
      Transition.Reachable (· = Shared.new maxLevel) ThreadStep s₀ →
      ThreadStep s₀ (.findPre u key) s₁ →
      Transition.Run ThreadStep s₁ between s₂ → (∀ label ∈ between, label.thread ≠ u) →
      ThreadStep s₂ (.load u) s₃ →
      Transition.Run ThreadStep s₃ after s₄ → (∀ label ∈ after, label.thread ≠ u) →
      ThreadStep s₄ (.check u) s₅ → s₀.list.OnList p key →
      s₅.finder u = .returned key (some p) := by
  intro hreturns
  have hfirst : (SkipList.new 1 : SkipList Nat Nat).insert 5 50 1 = some (0, ⟨1, 1, 0, 1,
      ⟨[some ⟨0, 0, [some 1, none], 1⟩, some ⟨5, 50, [none, none], 1⟩]⟩⟩) := by decide
  have hsecond : SkipList.insert (K := Nat) (V := Nat) ⟨1, 1, 0, 1,
      ⟨[some ⟨0, 0, [some 1, none], 1⟩, some ⟨5, 50, [none, none], 1⟩]⟩⟩ 3 30 1
      = some (0, ⟨1, 1, 0, 2, ⟨[some ⟨0, 0, [some 2, none], 1⟩, some ⟨5, 50, [none, none], 1⟩,
          some ⟨3, 30, [some 1, none], 1⟩]⟩⟩) := by decide
  have hs : Transition.Reachable (· = (Shared.new 1 : Shared Nat Nat Nat)) ThreadStep
      ⟨_, fun _ => .outside⟩ :=
    ⟨_, [.insert 0 5 50 1], rfl, .cons (.insert trivial (by decide) hfirst) (.nil _)⟩
  have hbetween : Transition.Run (ThreadStep (τ := Nat)) _ _ _ :=
    .cons (.insert (s := ⟨_, Function.update (fun _ => .outside) 1 (.located 5 0)⟩) (t := 0)
      (by trivial) (by decide) hsecond) (.nil _)
  have hmissed : SkipList.findCheck (K := Nat) (V := Nat) ⟨1, 1, 0, 2,
      ⟨[some ⟨0, 0, [some 2, none], 1⟩, some ⟨5, 50, [none, none], 1⟩,
          some ⟨3, 30, [some 1, none], 1⟩]⟩⟩ 5 (some 2) = some none := by decide
  have hfound := hreturns 1 1 5 1 _ _ _ _ _ _ _ [] hs (.findPre trivial (by decide)) hbetween
    (by simp [ThreadLabel.thread]) (.load rfl rfl) (.nil _) (by simp)
    (.check rfl hmissed) ⟨by decide, _, rfl, rfl⟩
  simp at hfound

end Runs

end CppUtils.SkipList
