import CppUtils.Proof.SkipListErase
import CppUtils.Proof.SkipListFind

/-!
# `find` among insertions and removals

Between its three steps `find` keeps a raw pointer without holding the lock. A node lives until its
key is erased, and no later node has its address (`Since`). So `find` touches a deleted node exactly
if the key of the node it points to was erased since it got there; otherwise it goes on, and a node
that it returns is on the list and has the key.
-/

namespace CppUtils.SkipList

open LinkedMemory SortedKeys

variable {τ K V : Type}

theorem fresh_setNext {s t : SkipList K V} {i p : Nat} {q : Option Nat}
    (h : s.setNext i p q = some t) : t.heap.fresh = s.heap.fresh := by
  unfold setNext at h
  split at h
  · cases h
  · split at h
    · obtain rfl := Option.some.inj h
      exact Memory.fresh_write
    · cases h

theorem fresh_unlink {s t : SkipList K V} {update : List (Option Nat)} {current rounds i : Nat}
    (h : unlink update current rounds i s = some t) : t.heap.fresh = s.heap.fresh := by
  induction rounds generalizing i s with
  | zero =>
      obtain rfl := Option.some.inj h
      rfl
  | succ rounds ih =>
      obtain ⟨pre, -, h⟩ := Option.bind_eq_some_iff.mp h
      obtain ⟨next, -, h⟩ := Option.bind_eq_some_iff.mp h
      split at h
      · obtain rfl := Option.some.inj h
        rfl
      · obtain ⟨q, -, h⟩ := Option.bind_eq_some_iff.mp h
        obtain ⟨m, hm, h⟩ := Option.bind_eq_some_iff.mp h
        rw [ih h, fresh_setNext hm]

theorem fresh_delete {s t : SkipList K V} {p : Option Nat} (h : s.delete p = some t) :
    t.heap.fresh = s.heap.fresh := by
  cases p with
  | none =>
      obtain rfl := Option.some.inj h
      rfl
  | some p =>
      obtain ⟨n, -, rfl⟩ := Option.map_eq_some_iff.mp h
      exact List.length_set

variable [LinearOrder K]

theorem fresh_erase {s t : SkipList K V} {key : K} (h : s.erase key = some t) :
    t.heap.fresh = s.heap.fresh := by
  obtain ⟨⟨current, update⟩, -, h⟩ := Option.bind_eq_some_iff.mp h
  obtain ⟨current', -, h⟩ := Option.bind_eq_some_iff.mp h
  obtain ⟨found, -, h⟩ := Option.bind_eq_some_iff.mp h
  have hlast : ∀ m : SkipList K V, ((m.lower m.curLevel).bind fun c =>
      { m with curLevel := c, counts := m.counts - 1 }.delete current') = some t →
      t.heap.fresh = m.heap.fresh := by
    intro m hm
    obtain ⟨c, -, hm⟩ := Option.bind_eq_some_iff.mp hm
    have hfresh := fresh_delete hm
    exact hfresh
  dsimp only at h
  split at h
  · obtain ⟨m, hm, h⟩ := Option.bind_eq_some_iff.mp h
    rw [hlast m h, fresh_unlink hm]
  · exact hlast s h

/-! ### What becomes of the nodes -/

/-- The nodes `l` of `s` are the nodes `l'` of `t` by now: the keys `erased` were erased, and what
has come since has addresses of its own. -/
structure Since (s t : SkipList K V) (l l' : List (Entry K V)) (erased : List K) : Prop where
  wellFormed : t.WellFormed l'
  head : t.head = s.head
  fresh : s.heap.fresh ≤ t.heap.fresh
  kept : ∀ e ∈ l, e ∈ l' ↔ e.k ∉ erased
  old : ∀ e ∈ l', e ∈ l ∨ s.heap.fresh ≤ e.addr

section Since

variable {s m t : SkipList K V} {l l₁ l' : List (Entry K V)} {erased erased' : List K}

theorem WellFormed.addr_lt_fresh (h : s.WellFormed l) {e : Entry K V} (he : e ∈ l) :
    e.addr < s.heap.fresh := by
  obtain ⟨n, hread⟩ := Option.isSome_iff_exists.mp (h.isSome_read he)
  exact Memory.lt_fresh_of_read hread

theorem Since.refl (h : s.WellFormed l) : Since s s l l [] where
  wellFormed := h
  head := rfl
  fresh := Nat.le_refl _
  kept := fun e he => by simp [he]
  old := fun e he => Or.inl he

theorem Since.trans (h : Since s m l l₁ erased) (h' : Since m t l₁ l' erased')
    (hs : s.WellFormed l) : Since s t l l' (erased ++ erased') where
  wellFormed := h'.wellFormed
  head := h'.head.trans h.head
  fresh := h.fresh.trans h'.fresh
  kept := by
    intro e he
    rw [List.mem_append, not_or, ← h.kept e he]
    constructor
    · intro hmem
      have hmid : e ∈ l₁ := by
        rcases h'.old e hmem with hmid | hnew
        · exact hmid
        · have hlt := hs.addr_lt_fresh he
          have hle := h.fresh
          omega
      exact ⟨hmid, (h'.kept e hmid).mp hmem⟩
    · rintro ⟨hmid, hkey⟩
      exact (h'.kept e hmid).mpr hkey
  old := by
    intro e he
    rcases h'.old e he with hmid | hnew
    · exact h.old e hmid
    · exact Or.inr (h.fresh.trans hnew)

/-- **A node lives until its key is erased.** -/
theorem Since.read_isSome_iff (h : Since s t l l' erased) (hs : s.WellFormed l) {p : Nat}
    (hp : (s.heap.read p).isSome = true) :
    (t.heap.read p).isSome = true ↔ ∀ key, s.OnList p key → key ∉ erased := by
  obtain ⟨n, hread⟩ := Option.isSome_iff_exists.mp hp
  rcases hs.only p n hread with rfl | hmem
  · have hhead := h.wellFormed.isSome_read_head
    rw [h.head] at hhead
    exact iff_of_true hhead fun key hon => absurd rfl hon.1
  · obtain ⟨e, he, rfl⟩ := List.mem_map.mp hmem
    have hkey : (∀ key, s.OnList e.addr key → key ∉ erased) ↔ e ∈ l' := by
      rw [h.kept e he]
      constructor
      · intro hall
        exact hall e.k (hs.onList_iff.mpr ⟨e, he, rfl, rfl⟩)
      · rintro hnot key hon
        obtain ⟨b, hb, haddr, rfl⟩ := hs.onList_iff.mp hon
        rwa [hs.leveled.eq_of_addr_eq hb he haddr]
    rw [hkey]
    constructor
    · intro hlive
      obtain ⟨n', hread'⟩ := Option.isSome_iff_exists.mp hlive
      rcases h.wellFormed.only _ _ hread' with hhead | hmem'
      · exact absurd (hhead.trans h.head) (hs.leveled.addr_ne_head he)
      · obtain ⟨b, hb, haddr⟩ := List.mem_map.mp hmem'
        rcases h.old b hb with hbl | hnew
        · rwa [hs.leveled.eq_of_addr_eq he hbl haddr.symm]
        · have hlt := hs.addr_lt_fresh he
          omega
    · exact h.wellFormed.isSome_read

theorem WellFormed.since_insert (h : s.WellFormed l) {key : K} {val : V} {R : Nat} {ret : Int}
    (hR : 1 ≤ R ∧ R ≤ s.maxLevel) (hinsert : s.insert key val R = some (ret, t)) :
    ∃ l', Since s t l l' [] := by
  by_cases hkey : ∃ e ∈ l, e.k = key
  · obtain ⟨e, he, hek⟩ := hkey
    cases hinsert.symm.trans (h.leveled.insert_of_mem he hek val R)
    exact ⟨l, .refl h⟩
  · push Not at hkey
    obtain ⟨t', hinsert', hwf, -, hhead⟩ := h.insert_of_not_mem hkey val hR
    cases hinsert.symm.trans hinsert'
    have hnew := hwf.addr_lt_fresh ((mem_inserted h.sorted).mpr (Or.inl rfl))
    refine ⟨_, hwf, hhead, Nat.le_of_lt hnew, fun e he => ?_, fun e he => ?_⟩
    · simp [mem_inserted h.sorted, he]
    · rcases (mem_inserted h.sorted).mp he with rfl | he
      · exact Or.inr (Nat.le_refl _)
      · exact Or.inl he

theorem WellFormed.since_erase (h : s.WellFormed l) {e : Entry K V} (he : e ∈ l)
    (hlevel : e.level ≤ s.curLevel) (herase : s.erase e.k = some t) :
    ∃ l', Since s t l l' [e.k] := by
  obtain ⟨t', herase', hwf, -, hhead⟩ := h.erase_wellFormed he hlevel
  cases herase.symm.trans herase'
  refine ⟨_, hwf, hhead, Nat.le_of_eq (fresh_erase herase).symm, fun b hb => ?_, fun b hb => ?_⟩
  · rw [h.mem_erased he, List.mem_singleton, and_iff_right hb]
    exact not_congr ⟨congrArg Entry.k, h.sorted.eq_of_key_eq hb he⟩
  · exact Or.inl ((h.mem_erased he).mp hb).1

end Since

/-! ### Runs -/

/-- The key that a step erases. -/
def SharedLabel.erases : SharedLabel τ K V → List K
  | .step _ => []
  | .erase _ key => [key]

/-- `erase` is called on keys that are on the list, in nodes that do not stand on level
`_curLevel`. -/
def SharedLabel.Careful (s : SkipList K V) : SharedLabel τ K V → Prop
  | .step _ => True
  | .erase _ key =>
      ∃ p n, p ≠ s.head ∧ s.heap.read p = some n ∧ n.k = key ∧ n.level ≤ s.curLevel

variable [DecidableEq τ] {s t : Shared τ K V} {l : List (Entry K V)}

def CarefulStep (s : Shared τ K V) (label : SharedLabel τ K V) (t : Shared τ K V) : Prop :=
  SharedStep s label t ∧ label.Careful s.list

theorem CarefulStep.since {label : SharedLabel τ K V} (hstep : CarefulStep s label t)
    (h : s.list.WellFormed l) : ∃ l', Since s.list t.list l l' label.erases := by
  obtain ⟨hstep, hcareful⟩ := hstep
  cases hstep with
  | step hstep =>
      cases hstep with
      | insert _ hlevel hcall => exact h.since_insert hlevel hcall
      | findPre _ _ => exact ⟨l, .refl h⟩
      | load _ _ => exact ⟨l, .refl h⟩
      | check _ _ => exact ⟨l, .refl h⟩
  | erase _ hcall =>
      obtain ⟨p, n, hp, hread, rfl, hlevel⟩ := hcareful
      obtain ⟨e, he, rfl⟩ := List.mem_map.mp ((h.only p n hread).resolve_left hp)
      obtain ⟨n', hread', hk, -, hlevel', -⟩ := h.leveled.read_eq he
      obtain rfl := Option.some.inj (hread.symm.trans hread')
      rw [SharedLabel.erases, hk]
      exact h.since_erase he (hlevel' ▸ hlevel) (hk ▸ hcall)

theorem SharedStep.finder_eq {label : SharedLabel τ K V} (hstep : SharedStep s label t) {u : τ}
    (hu : label.thread ≠ u) : t.finder u = s.finder u := by
  cases hstep with
  | step hstep => exact hstep.finder_eq hu
  | erase _ _ => rfl

theorem since_of_run {labels : List (SharedLabel τ K V)}
    (hrun : Transition.Run CarefulStep s labels t) (h : s.list.WellFormed l) :
    ∃ l', Since s.list t.list l l' (labels.flatMap SharedLabel.erases) := by
  induction hrun generalizing l with
  | nil s => exact ⟨l, .refl h⟩
  | cons first rest ih =>
      obtain ⟨l₁, hfirst⟩ := first.since h
      obtain ⟨l', hrest⟩ := ih hfirst.wellFormed
      exact ⟨l', hfirst.trans hrest h⟩

theorem finder_of_run {labels : List (SharedLabel τ K V)}
    (hrun : Transition.Run CarefulStep s labels t) {u : τ}
    (hu : ∀ label ∈ labels, label.thread ≠ u) : t.finder u = s.finder u := by
  induction hrun with
  | nil s => rfl
  | cons first rest ih =>
      rw [ih fun label hmem => hu label (List.mem_cons_of_mem _ hmem)]
      exact first.1.finder_eq (hu _ List.mem_cons_self)

theorem exists_wellFormed_of_careful [Inhabited K] [Inhabited V] {maxLevel : Nat}
    (hs : Transition.Reachable (· = Shared.new maxLevel) CarefulStep s) :
    ∃ l, s.list.WellFormed l := by
  have hinit : ∃ l, (Shared.new maxLevel : Shared τ K V).list.WellFormed l :=
    ⟨[], wellFormed_new maxLevel⟩
  refine hs.invariant_from hinit fun s label t h hstep => ?_
  obtain ⟨l, h⟩ := h
  obtain ⟨l', hsince⟩ := hstep.since h
  exact ⟨l', hsince.wellFormed⟩

/-! ### The steps of `find` -/

theorem load_iff {u : τ} {key : K} {pre : Nat} (hu : s.finder u = .located key pre)
    (h : s.list.WellFormed l) :
    (∃ t, SharedStep s (.step (.load u)) t) ↔ (s.list.heap.read pre).isSome = true := by
  constructor
  · rintro ⟨t, hstep⟩
    cases hstep with
    | step hstep =>
        obtain ⟨node, hnode, -⟩ := hstep.load_spec hu
        exact h.isSome_nextAt_zero.mp (Option.isSome_iff_exists.mpr ⟨node, hnode⟩)
  · intro hlive
    obtain ⟨t, hstep⟩ := exists_load h hu hlive
    exact ⟨t, .step hstep⟩

theorem check_iff {u : τ} {key : K} {node : Option Nat} (hu : s.finder u = .loaded key node) :
    (∃ t, SharedStep s (.step (.check u)) t) ↔
      ∀ p, node = some p → (s.list.heap.read p).isSome = true := by
  constructor
  · rintro ⟨t, hstep⟩ p rfl
    cases hstep with
    | step hstep =>
        obtain ⟨result, hresult, -⟩ := hstep.check_spec hu
        obtain ⟨found, hfound, -⟩ := Option.map_eq_some_iff.mp hresult
        obtain ⟨n, hread, -⟩ := Option.map_eq_some_iff.mp hfound
        rw [hread]
        rfl
  · intro hlive
    obtain ⟨t, hstep⟩ := exists_check hu hlive
    exact ⟨t, .step hstep⟩

/-- What `find` returns was compared with the key. -/
theorem findCheck_eq_some {list : SkipList K V} {key : K} {node : Option Nat} {p : Nat}
    (h : list.findCheck key node = some (some p)) :
    node = some p ∧ ∃ n, list.heap.read p = some n ∧ n.k = key := by
  obtain ⟨found, hfound, heq⟩ := Option.map_eq_some_iff.mp h
  cases found with
  | false => cases heq
  | true =>
      obtain rfl : node = some p := heq
      obtain ⟨n, hread, hk⟩ := Option.map_eq_some_iff.mp hfound
      exact ⟨rfl, n, hread, of_decide_eq_true hk⟩

/-- **`find` and the deleted nodes.** In any run of careful steps, around the three steps of one
`find` of thread `u`: the read of `pre->next[0]` is possible, and touches no deleted node, if and
only if the key of `pre` was not erased since `findPre`; the comparison is possible if and only if
the key of the node that was read was not erased since; and a node that is returned is on the list
and has the key. -/
theorem find_touches_iff [Inhabited K] [Inhabited V] {maxLevel : Nat} {key : K} {u : τ}
    {s₀ s₁ s₂ : Shared τ K V} {between : List (SharedLabel τ K V)}
    (hs : Transition.Reachable (· = Shared.new maxLevel) CarefulStep s₀)
    (hpre : SharedStep s₀ (.step (.findPre u key)) s₁)
    (hbetween : Transition.Run CarefulStep s₁ between s₂)
    (hu : ∀ label ∈ between, label.thread ≠ u) :
    ∃ pre, s₂.finder u = .located key pre ∧
      (pre = s₀.list.head ∨ ∃ below, below < key ∧ s₀.list.OnList pre below) ∧
      ((∃ s₃, SharedStep s₂ (.step (.load u)) s₃) ↔
        ∀ below, s₀.list.OnList pre below → below ∉ between.flatMap SharedLabel.erases) ∧
      ∀ s₃ after s₄, SharedStep s₂ (.step (.load u)) s₃ →
        Transition.Run CarefulStep s₃ after s₄ → (∀ label ∈ after, label.thread ≠ u) →
        ∃ node, s₄.finder u = .loaded key node ∧
          ((∃ s₅, SharedStep s₄ (.step (.check u)) s₅) ↔ ∀ p loaded, node = some p →
            s₃.list.OnList p loaded → loaded ∉ after.flatMap SharedLabel.erases) ∧
          ∀ s₅, SharedStep s₄ (.step (.check u)) s₅ → ∃ result,
            s₅.finder u = .returned key result ∧
              ∀ p, result = some p → s₅.list.OnList p key := by
  obtain ⟨l, h⟩ := exists_wellFormed_of_careful hs
  cases hpre with
  | step hpre =>
  obtain ⟨pre, hlocated, hlist₁, hfinder₁⟩ := hpre.findPre_spec
  obtain ⟨update, hlocate, -⟩ := h.leveled.locate_eq key
  have hpreEq : s₀.list.pre l key = pre := by
    rw [findPre, hlocate, Option.map_some, h.leveled.onLevel_zero] at hlocated
    exact Option.some.inj hlocated
  have hwhere : pre = s₀.list.head ∨ ∃ below, below < key ∧ s₀.list.OnList pre below := by
    rcases pre_mem s₀.list l key with hhead | ⟨e, he, hlt, haddr⟩
    · exact Or.inl (hpreEq.symm.trans hhead)
    · exact Or.inr ⟨e.k, hlt, h.onList_iff.mpr ⟨e, he, haddr.symm.trans hpreEq, rfl⟩⟩
  have hlive : (s₀.list.heap.read pre).isSome = true := hpreEq ▸ h.isSome_read_pre key
  obtain ⟨l₂, hsince⟩ := since_of_run hbetween (hlist₁ ▸ h)
  rw [hlist₁] at hsince
  have hfinder₂ : s₂.finder u = .located key pre := (finder_of_run hbetween hu).trans hfinder₁
  refine ⟨pre, hfinder₂, hwhere, ?_, fun s₃ after s₄ hload hafter hu' => ?_⟩
  · rw [load_iff hfinder₂ hsince.wellFormed]
    exact hsince.read_isSome_iff h hlive
  cases hload with
  | step hload =>
  obtain ⟨node, hnode, hlist₃, hfinder₃⟩ := hload.load_spec hfinder₂
  have h₃ : s₃.list.WellFormed l₂ := hlist₃ ▸ hsince.wellFormed
  obtain ⟨l₄, hsince'⟩ := since_of_run hafter h₃
  have hfinder₄ : s₄.finder u = .loaded key node := (finder_of_run hafter hu').trans hfinder₃
  have hmem : ∀ p, node = some p → ∃ e ∈ l₂, e.addr = p := by
    rintro p rfl
    exact hsince.wellFormed.mem_of_next_zero hnode
  refine ⟨node, hfinder₄, ?_, fun s₅ hcheck => ?_⟩
  · rw [check_iff hfinder₄]
    refine forall_congr' fun p => ⟨fun hread loaded hp => ?_, fun hkept hp => ?_⟩
    · obtain ⟨e, he, rfl⟩ := hmem p hp
      exact (hsince'.read_isSome_iff h₃ (h₃.isSome_read he)).mp (hread hp) loaded
    · obtain ⟨e, he, rfl⟩ := hmem p hp
      exact (hsince'.read_isSome_iff h₃ (h₃.isSome_read he)).mpr fun loaded => hkept loaded hp
  · cases hcheck with
    | step hcheck =>
    obtain ⟨result, hresult, hfinder₅⟩ := hcheck.check_spec hfinder₄
    refine ⟨result, hfinder₅, ?_⟩
    rintro p rfl
    obtain ⟨hp, n, hread, hk⟩ := findCheck_eq_some hresult
    obtain ⟨e, he, rfl⟩ := hmem p hp
    have hlist₅ : s₅.list = s₄.list := by
      cases hcheck
      rfl
    rw [hlist₅]
    exact ⟨fun heq => h₃.leveled.addr_ne_head he (heq.trans hsince'.head), n, hread, hk⟩

/-- A `find(7)` whose predecessor 5 is erased before it is read. -/
theorem find_touches_erased : ∃ s₂ : Shared Nat Nat Nat, s₂.finder 1 = .located 7 1 ∧
    ¬ ∃ s₃, SharedStep s₂ (.step (.load 1)) s₃ := by
  let five : SkipList Nat Nat := ⟨1, 1, 0, 1,
    ⟨[some ⟨0, 0, [some 1, none], 1⟩, some ⟨5, 50, [none, none], 1⟩]⟩⟩
  let empty : SkipList Nat Nat := ⟨1, 0, 0, 0, ⟨[some ⟨0, 0, [none, none], 1⟩, none]⟩⟩
  have hinsert : (SkipList.new 1 : SkipList Nat Nat).insert 5 50 1 = some (0, five) := by decide
  have herase : five.erase 5 = some empty := by decide
  have hs : Transition.Reachable (· = (Shared.new 1 : Shared Nat Nat Nat)) CarefulStep
      ⟨five, fun _ => .outside⟩ :=
    ⟨_, [.step (.insert 0 5 50 1)], rfl,
      .cons ⟨.step (.insert trivial (by decide) hinsert), trivial⟩ (.nil _)⟩
  have hbetween : Transition.Run CarefulStep
      ⟨five, Function.update (fun _ => .outside) 1 (.located 7 1)⟩ [.erase 0 5]
      ⟨empty, Function.update (fun _ => .outside) 1 (.located 7 1)⟩ :=
    .cons ⟨.erase (by trivial) herase, 1, _, by decide, rfl, rfl, by decide⟩ (.nil _)
  obtain ⟨pre, hfinder, -, hload, -⟩ := find_touches_iff hs
    (.step (.findPre trivial (by decide))) hbetween (by simp [SharedLabel.thread])
  obtain rfl : 1 = pre := (Finder.located.inj hfinder).2
  refine ⟨_, hfinder, fun hpossible => ?_⟩
  exact hload.mp hpossible 5 ⟨by decide, _, rfl, rfl⟩ (by simp [SharedLabel.erases])

end CppUtils.SkipList
