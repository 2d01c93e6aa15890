import CppUtils.Lib.Transition
import CppUtils.Proof.SkipListErase
import CppUtils.Proof.SkipListInsert
import Mathlib.Logic.Function.Basic

/-!
# The skip list as a finite map

A run of `insert` and `erase` calls is followed by the map `live`: a key is live from its insertion
to its removal, with the value it was inserted with. The list refines the map as long as no node is
erased that stands on level `_curLevel`, and not beyond: there `erase` deletes a node that is still
linked.
-/

namespace CppUtils.SkipList

open LinkedMemory SortedKeys

variable {K V : Type}

/-- `insert` comes with the level that `getRandomLevel` returns in it. -/
inductive Call (K V : Type) where
  | insert (key : K) (val : V) (randomLevel : Nat)
  | erase (key : K)

/-- A skip list and the map it is to be. -/
structure Mapped (K V : Type) where
  list : SkipList K V
  live : K → Option V

/-- The nodes `l` are the map. -/
def Carries (l : List (Entry K V)) (live : K → Option V) : Prop :=
  ∀ key v, live key = some v ↔ ∃ e ∈ l, e.k = key ∧ e.v = v

theorem Carries.isSome_iff {l : List (Entry K V)} {live : K → Option V}
    (h : Carries l live) {key : K} :
    (live key).isSome ↔ ∃ e ∈ l, e.k = key := by
  rw [Option.isSome_iff_exists]
  constructor
  · rintro ⟨v, hv⟩
    obtain ⟨e, he, hkey, -⟩ := (h key v).mp hv
    exact ⟨e, he, hkey⟩
  · rintro ⟨e, he, hkey⟩
    exact ⟨e.v, (h key e.v).mpr ⟨e, he, hkey, rfl⟩⟩

section Map

variable [LinearOrder K]

/-- One call; `erase` is called on live keys only. -/
inductive Step : Mapped K V → Call K V → Mapped K V → Prop
  | insert {c : Mapped K V} {t : SkipList K V} {key : K} {val : V} {randomLevel : Nat} {ret : Int}
      (hlevel : 1 ≤ randomLevel ∧ randomLevel ≤ c.list.maxLevel)
      (hcall : c.list.insert key val randomLevel = some (ret, t)) :
      Step c (.insert key val randomLevel)
        ⟨t, if (c.live key).isSome then c.live else Function.update c.live key (some val)⟩
  | erase {c : Mapped K V} {t : SkipList K V} {key : K} (hlive : (c.live key).isSome)
      (hcall : c.list.erase key = some t) :
      Step c (.erase key) ⟨t, Function.update c.live key none⟩

/-- What the list has to be while `live` is the map. -/
structure Refines (c : Mapped K V) : Prop where
  levels : ∃ lev : Nat → List (Entry K V),
    (∀ i ≤ c.list.maxLevel,
      Linked (c.list.nextAt i) c.list.head ((lev i).map Entry.addr) ∧ Sorted Entry.k (lev i) ∧
        ∀ e ∈ lev i, ∃ n, c.list.heap.read e.addr = some n ∧ n.k = e.k) ∧
    (∀ i < c.list.maxLevel, (lev (i + 1)).Sublist (lev i)) ∧
    ∀ key, (c.live key).isSome ↔ ∃ e ∈ lev 0, e.k = key
  not_dangling : ∀ i p q, c.list.nextAt i p = some (some q) → (c.list.heap.read q).isSome
  find_live : ∀ key v, c.live key = some v →
    ∃ p n, c.list.find key = some (some p) ∧ c.list.heap.read p = some n ∧ n.k = key ∧ n.v = v
  find_dead : ∀ key, c.live key = none → c.list.find key = some none

/-- The call does not erase a node that stands on level `_curLevel`. -/
def OffCurLevel (s : SkipList K V) : Call K V → Prop
  | .insert _ _ _ => True
  | .erase key =>
      ∀ p n, p ≠ s.head → s.heap.read p = some n → n.k = key → n.level ≤ s.curLevel

def Sound (c : Mapped K V) : Prop := ∃ l, c.list.WellFormed l ∧ Carries l c.live

variable {c c' : Mapped K V} {l : List (Entry K V)} {live : K → Option V}

theorem WellFormed.not_dangling {s : SkipList K V} (h : s.WellFormed l) {i p q : Nat}
    (hnext : s.nextAt i p = some (some q)) : (s.heap.read q).isSome := by
  have hlive : ∀ e ∈ l, (s.heap.read e.addr).isSome := by
    intro e he
    obtain ⟨n, hread, -⟩ := h.leveled.read_eq he
    rw [hread]
    rfl
  have hchain : ∀ i ≤ s.maxLevel, p ∈ s.head :: (onLevel i l).map Entry.addr →
      s.nextAt i p = some (some q) → (s.heap.read q).isSome := by
    intro i hi hp hnext
    obtain ⟨k, hk⟩ := List.getElem?_of_mem hp
    have hafter := (h.linked i hi).next_getElem hk
    rw [hnext] at hafter
    obtain ⟨e, he, rfl⟩ := List.mem_map.mp (List.mem_of_getElem? (Option.some.inj hafter).symm)
    exact hlive e (mem_onLevel.mp he).1
  obtain ⟨n, hread, hlink⟩ := nextAt_eq_some.mp hnext
  have hi : i < n.next.length := (List.getElem?_eq_some_iff.mp hlink).1
  rcases h.only p n hread with rfl | hp
  · obtain ⟨n', hread', hlength⟩ := h.leveled.read_head
    obtain rfl := Option.some.inj (hread.symm.trans hread')
    exact hchain i (by omega) List.mem_cons_self hnext
  · obtain ⟨e, he, rfl⟩ := List.mem_map.mp hp
    obtain ⟨n', hread', -, -, -, hlength⟩ := h.leveled.read_eq he
    obtain rfl := Option.some.inj (hread.symm.trans hread')
    by_cases htop : i = e.level
    · -- the last link of a node is never set
      rw [htop, h.top e he] at hnext
      cases hnext
    · have hon : e ∈ onLevel i l := mem_onLevel.mpr ⟨he, by omega⟩
      have hle := (h.level_mem e he).2
      exact hchain i (by omega) (List.mem_cons_of_mem _ (List.mem_map_of_mem hon)) hnext

theorem Sound.refines (h : Sound c) : Refines c := by
  obtain ⟨l, hl, hlive⟩ := h
  refine ⟨⟨fun i => onLevel i l, fun i hi => ⟨hl.linked i hi, ?_, fun e he => ?_⟩, fun i _ => ?_,
    fun key => ?_⟩, fun i p q => hl.not_dangling, fun key v hv => ?_, fun key hdead => ?_⟩
  · exact hl.sorted.sublist List.filter_sublist
  · obtain ⟨n, hread, hk, -⟩ := hl.leveled.read_eq (mem_onLevel.mp he).1
    exact ⟨n, hread, hk⟩
  · exact onLevel_succ_sublist i l
  · simp only [hlive.isSome_iff, hl.leveled.onLevel_zero]
  · obtain ⟨e, he, rfl, rfl⟩ := (hlive key v).mp hv
    obtain ⟨n, hread, hk, hval, -⟩ := hl.leveled.read_eq he
    exact ⟨e.addr, n, hl.leveled.find_of_mem he rfl, hread, hk, hval⟩
  · refine hl.leveled.find_of_not_mem fun e he hkey => ?_
    have hsome := hlive.isSome_iff.mpr ⟨e, he, hkey⟩
    rw [hdead] at hsome
    cases hsome

theorem Carries.insert (h : Carries l live) {e : Entry K V} (hsorted : Sorted Entry.k l)
    (hkey : ∀ b ∈ l, b.k ≠ e.k) : Carries (inserted l e) (Function.update live e.k (some e.v)) := by
  intro key v
  by_cases heq : key = e.k
  · subst heq
    rw [Function.update_self]
    constructor
    · intro hv
      exact ⟨e, (mem_inserted hsorted).mpr (Or.inl rfl), rfl, Option.some.inj hv⟩
    · rintro ⟨b, hb, hbk, rfl⟩
      rcases (mem_inserted hsorted).mp hb with rfl | hb
      · rfl
      · exact absurd hbk (hkey b hb)
  · rw [Function.update_of_ne heq, h key v]
    constructor
    · rintro ⟨b, hb, hbk⟩
      exact ⟨b, (mem_inserted hsorted).mpr (Or.inr hb), hbk⟩
    · rintro ⟨b, hb, hbk, hbv⟩
      rcases (mem_inserted hsorted).mp hb with rfl | hb
      · exact absurd hbk.symm heq
      · exact ⟨b, hb, hbk, hbv⟩

theorem Carries.erase {s : SkipList K V} (h : Carries l live) (hs : s.WellFormed l)
    {e : Entry K V} (he : e ∈ l) : Carries (erased l e.k) (Function.update live e.k none) := by
  intro key v
  by_cases heq : key = e.k
  · subst heq
    rw [Function.update_self]
    refine iff_of_false (by simp) ?_
    rintro ⟨b, hb, hbk, -⟩
    obtain ⟨hbl, hne⟩ := (hs.mem_erased he).mp hb
    exact hne (hs.sorted.eq_of_key_eq hbl he hbk)
  · rw [Function.update_of_ne heq, h key v]
    constructor
    · rintro ⟨b, hb, hbk, hbv⟩
      refine ⟨b, (hs.mem_erased he).mpr ⟨hb, ?_⟩, hbk, hbv⟩
      rintro rfl
      exact heq hbk.symm
    · rintro ⟨b, hb, hbk⟩
      exact ⟨b, ((hs.mem_erased he).mp hb).1, hbk⟩

/-- A call that does not erase a node on level `_curLevel` keeps the invariant. -/
theorem Sound.step {call : Call K V} (h : Sound c) (hstep : Step c call c')
    (hcall : OffCurLevel c.list call) : Sound c' := by
  obtain ⟨l, hl, hlive⟩ := h
  cases hstep with
  | @insert t key val R ret hlevel hinsert =>
      by_cases hkey : ∃ e ∈ l, e.k = key
      · rw [if_pos (hlive.isSome_iff.mpr hkey)]
        obtain ⟨e, he, hek⟩ := hkey
        cases hinsert.symm.trans (hl.leveled.insert_of_mem he hek val R)
        exact ⟨l, hl, hlive⟩
      · rw [if_neg (fun hsome => hkey (hlive.isSome_iff.mp hsome))]
        push Not at hkey
        obtain ⟨t', hinsert', hwf, -⟩ := hl.insert_of_not_mem hkey val hlevel
        cases hinsert.symm.trans hinsert'
        exact ⟨_, hwf, hlive.insert hl.sorted hkey⟩
  | @erase t key hsome herase =>
      obtain ⟨e, he, rfl⟩ := hlive.isSome_iff.mp hsome
      obtain ⟨n, hread, hk, -, hlevel, -⟩ := hl.leveled.read_eq he
      have hle := hcall e.addr n (hl.leveled.addr_ne_head he) hread hk
      obtain ⟨t', herase', hwf, -⟩ := hl.erase_wellFormed he (hlevel ▸ hle)
      cases herase.symm.trans herase'
      exact ⟨_, hwf, hlive.erase hl he⟩

/-- Erasing a node on level `_curLevel` leaves a dangling pointer. -/
theorem Sound.not_refines {call : Call K V} (h : Sound c) (hstep : Step c call c')
    (hcall : ¬ OffCurLevel c.list call) : ¬ Refines c' := by
  obtain ⟨l, hl, hlive⟩ := h
  cases hstep with
  | insert hlevel hinsert => exact absurd trivial hcall
  | @erase t key hsome herase =>
      simp only [OffCurLevel, not_forall, not_le] at hcall
      obtain ⟨p, n, hp, hread, hk, hlevel⟩ := hcall
      obtain ⟨e, he, rfl⟩ := List.mem_map.mp ((hl.only p n hread).resolve_left hp)
      obtain ⟨n', hread', hk', -, hlevel', -⟩ := hl.leveled.read_eq he
      obtain rfl := Option.some.inj (hread.symm.trans hread')
      obtain rfl : key = e.k := hk.symm.trans hk'
      obtain ⟨t', q, herase', hnext, hfreed⟩ := hl.erase_dangles he (hlevel' ▸ hlevel)
      cases herase.symm.trans herase'
      intro hrefines
      have hsome := hrefines.not_dangling _ _ _ hnext
      rw [hfreed] at hsome
      cases hsome

theorem Sound.progress (h : Sound c) :
    (∀ key val R, 1 ≤ R ∧ R ≤ c.list.maxLevel →
      ∃ ret t, c.list.insert key val R = some (ret, t)) ∧
    ∀ key, (c.live key).isSome → ∃ t, c.list.erase key = some t := by
  obtain ⟨l, hl, hlive⟩ := h
  refine ⟨fun key val R hR => ?_, fun key hsome => ?_⟩
  · by_cases hkey : ∃ e ∈ l, e.k = key
    · obtain ⟨e, he, hek⟩ := hkey
      exact ⟨1, _, hl.leveled.insert_of_mem he hek val R⟩
    · push Not at hkey
      obtain ⟨t, hinsert, -⟩ := hl.insert_of_not_mem hkey val hR
      exact ⟨0, t, hinsert⟩
  · obtain ⟨e, he, rfl⟩ := hlive.isSome_iff.mp hsome
    obtain ⟨m, k, herase, -⟩ := hl.erase_of_mem he
    exact ⟨_, herase⟩

end Map

/-- **Refinement.** Along a run that erases no node on level `_curLevel`, the list refines the map
and every call comes back; and the first call that does erase such a node ends the refinement. -/
theorem refines_of_run [LinearOrder K] [Inhabited K] [Inhabited V] {maxLevel : Nat}
    {c : Mapped K V} (hc : Transition.Reachable (· = ⟨new maxLevel, fun _ => none⟩)
      (fun c call c' => Step c call c' ∧ OffCurLevel c.list call) c) :
    Refines c ∧
      ((∀ key val R, 1 ≤ R ∧ R ≤ c.list.maxLevel →
        ∃ ret t, c.list.insert key val R = some (ret, t)) ∧
      ∀ key, (c.live key).isSome → ∃ t, c.list.erase key = some t) ∧
      ∀ call c', Step c call c' → (Refines c' ↔ OffCurLevel c.list call) := by
  have hinit : Sound (⟨new maxLevel, fun _ => none⟩ : Mapped K V) :=
    ⟨[], wellFormed_new maxLevel, by simp [Carries]⟩
  have hsound : Sound c := hc.invariant_from hinit fun c call c' h hstep => h.step hstep.1 hstep.2
  refine ⟨hsound.refines, hsound.progress,
    fun call c' hstep => ⟨fun hrefines => ?_, fun hcall => ?_⟩⟩
  · by_contra hcall
    exact hsound.not_refines hstep hcall hrefines
  · exact (hsound.step hstep hcall).refines

/-- Two keys are inserted, on one level and on two, and the first is erased again. -/
theorem refines_of_run_erase : ∃ c : Mapped Nat Nat, c.live 1 = none ∧ c.live 2 = some 20 ∧
    Transition.Run Step ⟨new 2, fun _ => none⟩ [.insert 1 10 1, .insert 2 20 2, .erase 1] c ∧
      Refines c := by
  let one : SkipList Nat Nat := ⟨2, 1, 0, 1,
    ⟨[some ⟨0, 0, [some 1, none, none], 2⟩, some ⟨1, 10, [none, none], 1⟩]⟩⟩
  let two : SkipList Nat Nat := ⟨2, 2, 0, 2, ⟨[some ⟨0, 0, [some 1, some 2, none], 2⟩,
    some ⟨1, 10, [some 2, none], 1⟩, some ⟨2, 20, [none, none, none], 2⟩]⟩⟩
  let last : SkipList Nat Nat := ⟨2, 1, 0, 1, ⟨[some ⟨0, 0, [some 2, some 2, none], 2⟩, none,
    some ⟨2, 20, [none, none, none], 2⟩]⟩⟩
  have hone : (new 2 : SkipList Nat Nat).insert 1 10 1 = some (0, one) := by decide
  have htwo : one.insert 2 20 2 = some (0, two) := by decide
  have herase : two.erase 1 = some last := by decide
  have hoff : OffCurLevel two (.erase 1) := by
    intro p n hp hread hk
    match p with
    | 0 => exact absurd rfl hp
    | 1 =>
        obtain rfl := Option.some.inj hread
        decide
    | 2 =>
        obtain rfl := Option.some.inj hread
        cases hk
    | p + 3 => cases hread
  have hrun : Transition.Run (fun (c : Mapped Nat Nat) call c' =>
      Step c call c' ∧ OffCurLevel c.list call) ⟨new 2, fun _ => none⟩
      [.insert 1 10 1, .insert 2 20 2, .erase 1] ⟨last, _⟩ :=
    .cons ⟨.insert (by decide) hone, trivial⟩
      (.cons ⟨.insert (by decide) htwo, trivial⟩ (.cons ⟨.erase rfl herase, hoff⟩ (.nil _)))
  have hstep := hrun.imp fun _ _ _ h => h.1
  exact ⟨_, rfl, rfl, hstep, (refines_of_run ⟨_, _, rfl, hrun⟩).1⟩

/-- Two nodes of level 1, erased one after the other: the first removal lowers `_curLevel` to 0, and
the second leaves the head pointing to the deleted node. -/
theorem not_refines_after_two_erases :
    ¬ ∀ maxLevel, 1 ≤ maxLevel → ∀ c : Mapped Nat Nat,
      Transition.Reachable (· = ⟨new maxLevel, fun _ => none⟩) Step c → Refines c := by
  intro hall
  have hrefines := hall 1 le_rfl _ ⟨_, [.insert 1 10 1, .insert 2 20 1, .erase 1, .erase 2], rfl,
    .cons (.insert (by decide) rfl) (.cons (.insert (by decide) rfl)
      (.cons (.erase rfl rfl) (.cons (.erase rfl rfl) (.nil _))))⟩
  have hsome := hrefines.not_dangling 0 0 2 (by decide)
  exact absurd hsome (by decide)

end CppUtils.SkipList
