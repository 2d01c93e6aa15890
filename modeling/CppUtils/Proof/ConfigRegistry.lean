import CppUtils.ConfigRegistry
import CppUtils.Lib.Transition
import Mathlib.Data.List.Nodup

/-!
# Pointers to configuration variables

A step leaves the registry alone, adds an object under a name that was free, or writes the value or
the callback of one object (`step_cases`). So objects and entries correspond (`Inv`), a pointer once
given out stays what every lookup of its name and type gives, and the variables are independent of
each other: what is under a name is what the calls about this name made of it.
-/

namespace CppUtils.Registry

variable {ι : Type} {types : ι → VarType} {κ : Type}

/-! ### Objects -/

/-- All that a member may change is the value and the callback. -/
structure Var.Same (x y : Var types κ) : Prop where
  name : y._name = x._name
  description : y._description = x._description
  type : y.type = x.type

theorem Var.Same.refl (x : Var types κ) : x.Same x := ⟨rfl, rfl, rfl⟩

theorem Var.Same.trans {x y z : Var types κ} (h : x.Same y) (h' : y.Same z) : x.Same z :=
  ⟨h'.name.trans h.name, h'.description.trans h.description, h'.type.trans h.type⟩

theorem Var.same_setValue (x : Var types κ) (v : (types x.type).T) : x.Same (x.setValue v).1 := by
  unfold setValue
  split
  · exact .refl x
  · exact ⟨rfl, rfl, rfl⟩

theorem Var.same_fromString (x : Var types κ) (val : Str) : x.Same (x.fromString val).1 := by
  unfold fromString
  split
  · exact x.same_setValue _
  · exact .refl x

/-! ### Entries -/

theorem key_injective {entry entry' : Str × Nat} (h : key entry = key entry') :
    entry.1 = entry'.1 :=
  List.map_injective_iff.mpr (fun _ _ => BitVec.eq_of_toNat_eq) h

structure Inv (s : Registry types κ) : Prop where
  sorted : SortedKeys.Sorted key s._configVars
  /-- Each object stands in the map under its name, and nothing else does. -/
  entries : ∀ name p, (name, p) ∈ s._configVars ↔ ∃ x, s.objects[p]? = some x ∧ x._name = name

theorem inv_empty : Inv (empty : Registry types κ) where
  sorted := List.Pairwise.nil
  entries name p := by simp [empty]

variable {s t : Registry types κ} {name : Str} {p : Nat} {x y : Var types κ}

theorem Inv.find_iff (h : Inv s) :
    s.find name = some p ↔ ∃ x, s.objects[p]? = some x ∧ x._name = name := by
  rw [← h.entries, find, Option.map_eq_some_iff]
  constructor
  · rintro ⟨entry, hentry, rfl⟩
    have hname : entry.1 = name := by simpa using List.find?_some hentry
    exact hname ▸ List.mem_of_find?_eq_some hentry
  · intro hmem
    have hsome : (s._configVars.find? fun entry => entry.1 = name).isSome := by
      rw [List.find?_isSome]
      exact ⟨_, hmem, by simp⟩
    obtain ⟨entry, hentry⟩ := Option.isSome_iff_exists.mp hsome
    have hname : entry.1 = name := by simpa using List.find?_some hentry
    have heq : entry = (name, p) := h.sorted.eq_of_key_eq (List.mem_of_find?_eq_some hentry) hmem
      (by rw [key, key, hname])
    exact ⟨entry, hentry, by rw [heq]⟩

theorem Inv.find_eq_none_iff (h : Inv s) :
    s.find name = none ↔
      ∀ (p : Nat) (x : Var types κ), s.objects[p]? = some x → x._name ≠ name := by
  rw [Option.eq_none_iff_forall_ne_some]
  constructor
  · intro hnone p x hx hname
    exact hnone p (h.find_iff.mpr ⟨x, hx, hname⟩)
  · intro hall p hp
    obtain ⟨x, hx, hname⟩ := h.find_iff.mp hp
    exact hall p x hx hname

theorem Inv.add (h : Inv s) (hnew : s.find x._name = none) : Inv (s.add x) where
  sorted := by
    refine h.sorted.insert rfl fun entry hentry hkey => ?_
    obtain ⟨y, hy, hname⟩ := (h.entries entry.1 entry.2).mp hentry
    exact h.find_eq_none_iff.mp hnew entry.2 y hy (hname.trans (key_injective hkey))
  entries name p := by
    rw [Registry.add, SortedKeys.mem_insert_iff h.sorted, h.entries, List.getElem?_append,
      Prod.mk.injEq]
    by_cases hp : p < s.objects.length
    · rw [if_pos hp, or_iff_right]
      rintro ⟨-, rfl⟩
      exact Nat.lt_irrefl _ hp
    · rw [if_neg hp, List.getElem?_eq_none (Nat.le_of_not_lt hp)]
      constructor
      · rintro (⟨rfl, rfl⟩ | ⟨y, hy, -⟩)
        · exact ⟨x, by simp, rfl⟩
        · cases hy
      · rintro ⟨y, hy, hname⟩
        obtain ⟨hzero, heq⟩ := List.getElem?_eq_some_iff.mp hy
        rw [List.getElem_singleton] at heq
        rw [List.length_singleton] at hzero
        exact Or.inl ⟨by rw [heq, hname], by omega⟩

theorem Inv.perm_traverse (h : Inv s) : s.traverse.Perm (List.range s.objects.length) := by
  have hnodup : s._configVars.Nodup := h.sorted.imp fun hlt heq => (heq ▸ hlt).false
  have hinj : ∀ e ∈ s._configVars, ∀ e' ∈ s._configVars, e.2 = e'.2 → e = e' := by
    intro e he e' he' hp
    obtain ⟨x, hx, hname⟩ := (h.entries e.1 e.2).mp he
    obtain ⟨y, hy, hname'⟩ := (h.entries e'.1 e'.2).mp he'
    rw [hp] at hx
    obtain rfl := Option.some.inj (hx.symm.trans hy)
    exact Prod.ext (hname.symm.trans hname') hp
  refine (List.perm_ext_iff_of_nodup (List.Nodup.map_on hinj hnodup) List.nodup_range).mpr fun p => ?_
  rw [List.mem_map, List.mem_range]
  constructor
  · rintro ⟨e, he, rfl⟩
    obtain ⟨x, hx, -⟩ := (h.entries e.1 e.2).mp he
    exact (List.getElem?_eq_some_iff.mp hx).1
  · intro hp
    have hx := List.getElem?_eq_getElem hp
    exact ⟨(_, p), (h.entries _ p).mpr ⟨_, hx, rfl⟩, rfl⟩

theorem getElem?_put {made : Var types κ × List (Call types κ)} (hx : s.objects[p]? = some x)
    (q : Nat) : (s.put p made).objects[q]? = if p = q then some made.1 else s.objects[q]? := by
  have hlt : p < s.objects.length := (List.getElem?_eq_some_iff.mp hx).1
  rw [put, List.getElem?_set]
  by_cases hpq : p = q
  · rw [if_pos hpq, if_pos hpq, if_pos hlt]
  · rw [if_neg hpq, if_neg hpq]

theorem Inv.put (h : Inv s) {made : Var types κ × List (Call types κ)}
    (hx : s.objects[p]? = some x) (hsame : x.Same made.1) : Inv (s.put p made) where
  sorted := h.sorted
  entries name q := by
    change (name, q) ∈ s._configVars ↔ _
    rw [h.entries, getElem?_put hx]
    by_cases hpq : p = q
    · subst hpq
      simp [hx, hsame.name]
    · rw [if_neg hpq]

/-- What is at an address stays there. -/
def Extends (s t : Registry types κ) : Prop :=
  ∀ (p : Nat) (x : Var types κ), s.objects[p]? = some x → ∃ y, t.objects[p]? = some y ∧ x.Same y

theorem Extends.refl (s : Registry types κ) : s.Extends s := fun _ x hx => ⟨x, hx, .refl x⟩

theorem Extends.trans {m : Registry types κ} (h : s.Extends m) (h' : m.Extends t) :
    s.Extends t := by
  intro p x hx
  obtain ⟨y, hy, hxy⟩ := h p x hx
  obtain ⟨z, hz, hyz⟩ := h' p y hy
  exact ⟨z, hz, hxy.trans hyz⟩

theorem extends_add : s.Extends (s.add x) := by
  intro p y hy
  refine ⟨y, ?_, .refl y⟩
  rw [add, List.getElem?_append_left (List.getElem?_eq_some_iff.mp hy).1, hy]

theorem extends_put {made : Var types κ × List (Call types κ)} (hx : s.objects[p]? = some x)
    (hsame : x.Same made.1) : s.Extends (s.put p made) := by
  intro q y hy
  rw [getElem?_put hx]
  by_cases hpq : p = q
  · subst hpq
    obtain rfl := Option.some.inj (hx.symm.trans hy)
    exact ⟨made.1, if_pos rfl, hsame⟩
  · exact ⟨y, by rw [if_neg hpq, hy], .refl y⟩

/-! ### What a step does -/

section Steps

variable [DecidableEq ι]

theorem lookupOrAdd_cases (s : Registry types κ) (i : ι) (name : Str) (val : (types i).T)
    (description : Str) :
    (s.lookupOrAdd i name val description = (s.lookup i name, s) ∧ s.find name ≠ none) ∨
      (s.find name = none ∧ s.lookupOrAdd i name val description =
        (some s.objects.length, s.add ⟨name, description, i, val, none⟩)) := by
  unfold lookupOrAdd
  cases hlookup : s.lookup i name with
  | some p =>
      refine Or.inl ⟨rfl, fun hnone => ?_⟩
      rw [lookup, hnone] at hlookup
      cases hlookup
  | none =>
      cases hfind : s.find name with
      | some p => exact Or.inl ⟨rfl, Option.some_ne_none p⟩
      | none => exact Or.inr ⟨rfl, rfl⟩

theorem step_cases {s t : Registry types κ} {label : Label types κ} (hstep : s.step label = some t) :
    t = s ∨ (∃ x, s.find x._name = none ∧ t = s.add x) ∨
      ∃ p x made, s.objects[p]? = some x ∧ x.Same made.1 ∧ t = s.put p made := by
  cases label with
  | lookup i name val description =>
      obtain rfl := Option.some.inj hstep
      rcases s.lookupOrAdd_cases i name val description with ⟨heq, -⟩ | ⟨hfind, heq⟩
      · exact Or.inl (by rw [heq])
      · exact Or.inr (Or.inl ⟨_, hfind, by rw [heq]⟩)
  | setValue p i v =>
      obtain ⟨x, hx, hput⟩ := Option.bind_eq_some_iff.mp hstep
      split at hput
      case isTrue htype =>
        obtain rfl := Option.some.inj hput
        exact Or.inr (Or.inr ⟨p, x, _, hx, x.same_setValue _, rfl⟩)
      case isFalse => cases hput
  | fromString p val =>
      obtain ⟨x, hx, hput⟩ := Option.bind_eq_some_iff.mp hstep
      obtain rfl := Option.some.inj hput
      exact Or.inr (Or.inr ⟨p, x, _, hx, x.same_fromString val, rfl⟩)
  | setOnChangeCallBack p cb =>
      obtain ⟨x, hx, hput⟩ := Option.bind_eq_some_iff.mp hstep
      obtain rfl := Option.some.inj hput
      exact Or.inr (Or.inr ⟨p, x, _, hx, ⟨rfl, rfl, rfl⟩, rfl⟩)
  | loadNode name text =>
      obtain rfl := Option.some.inj hstep
      unfold loadNode
      split
      · exact Or.inl rfl
      · split
        · exact Or.inl rfl
        · split
          · exact Or.inl rfl
          · exact Or.inr (Or.inr ⟨_, _, _, ‹_›, Var.same_fromString _ text, rfl⟩)

theorem Inv.step (h : Inv s) {label : Label types κ} (hstep : s.step label = some t) : Inv t := by
  rcases step_cases hstep with rfl | ⟨x, hnew, rfl⟩ | ⟨p, x, made, hx, hsame, rfl⟩
  · exact h
  · exact h.add hnew
  · exact h.put hx hsame

theorem extends_of_step {label : Label types κ} (hstep : s.step label = some t) : s.Extends t := by
  rcases step_cases hstep with rfl | ⟨x, -, rfl⟩ | ⟨p, x, made, hx, hsame, rfl⟩
  · exact .refl t
  · exact extends_add
  · exact extends_put hx hsame

def Step (s : Registry types κ) (label : Label types κ) (t : Registry types κ) : Prop :=
  s.step label = some t

theorem inv_of_reachable (hs : Transition.Reachable (· = empty) Step s) : Inv s :=
  hs.invariant_from inv_empty fun _ _ _ h hstep => h.step hstep

theorem extends_of_run {labels : List (Label types κ)} (hrun : Transition.Run Step s labels t) :
    s.Extends t := by
  induction hrun with
  | nil s => exact .refl s
  | cons first _ ih => exact (extends_of_step first).trans ih

/-! ### Pointers stay good -/

variable {i : ι}

theorem Inv.lookup_iff (h : Inv s) : s.lookup i name = some p ↔
    ∃ x, s.objects[p]? = some x ∧ x._name = name ∧ x.type = i := by
  unfold lookup
  cases hfind : s.find name with
  | none =>
      constructor
      · intro hnone
        cases hnone
      · rintro ⟨x, hx, hname, -⟩
        exact absurd hname (h.find_eq_none_iff.mp hfind p x hx)
  | some q =>
      obtain ⟨y, hy, hname⟩ := h.find_iff.mp hfind
      simp only [Option.bind_eq_bind, Option.bind_some, hy]
      constructor
      · intro hcast
        split at hcast
        case isTrue htype =>
          obtain rfl := Option.some.inj hcast
          exact ⟨y, hy, hname, htype⟩
        case isFalse => cases hcast
      · rintro ⟨x, hx, hname', htype⟩
        have hq : s.find name = some p := h.find_iff.mpr ⟨x, hx, hname'⟩
        obtain rfl := Option.some.inj (hfind.symm.trans hq)
        obtain rfl := Option.some.inj (hx.symm.trans hy)
        exact if_pos htype

/-- **A pointer stays good.** From when a lookup gives it, every lookup of its name and type gives it,
lookups with other types give nothing and change nothing, no other name leads to it, and `traverse`
hands over each object once. -/
theorem lookup_of_run (hs : Transition.Reachable (· = empty) Step s)
    {labels : List (Label types κ)} (hrun : Transition.Run Step s labels t)
    (hlookup : s.lookup i name = some p) :
    (t.find name = some p ∧ ∀ val description,
      t.lookupOrAdd i name val description = (some p, t)) ∧
    (∀ j, j ≠ i → ∀ val description, t.lookupOrAdd j name val description = (none, t)) ∧
    (∀ name', t.find name' = some p → name' = name) ∧
    t.traverse.Perm (List.range t.objects.length) ∧ p ∈ t.traverse := by
  have h := inv_of_reachable hs
  have ht : Inv t := hrun.invariant (fun _ _ _ h hstep => h.step hstep) h
  obtain ⟨x, hx, hname, htype⟩ := h.lookup_iff.mp hlookup
  obtain ⟨y, hy, hsame⟩ := extends_of_run hrun p x hx
  have hyname : y._name = name := hsame.name.trans hname
  have hytype : y.type = i := hsame.type.trans htype
  have hfind : t.find name = some p := ht.find_iff.mpr ⟨y, hy, hyname⟩
  have hgiven : t.lookup i name = some p := ht.lookup_iff.mpr ⟨y, hy, hyname, hytype⟩
  refine ⟨⟨hfind, fun val description => ?_⟩, fun j hj val description => ?_, ?_,
    ht.perm_traverse, ?_⟩
  · rw [lookupOrAdd, hgiven]
  · have hnone : t.lookup j name = none := by
      rw [lookup, hfind]
      simp only [Option.bind_eq_bind, Option.bind_some, hy]
      exact if_neg fun hcast => hj (hcast.symm.trans hytype)
    rw [lookupOrAdd, hnone, hfind]
  · intro name' hfind'
    obtain ⟨z, hz, hname'⟩ := ht.find_iff.mp hfind'
    obtain rfl := Option.some.inj (hy.symm.trans hz)
    exact hname'.symm.trans hyname
  · rw [ht.perm_traverse.mem_iff, List.mem_range]
    exact (List.getElem?_eq_some_iff.mp hy).1

/-- Numbers under two type names. -/
theorem lookup_of_two :
    let types : Bool → VarType := fun _ => ⟨Nat, (· == ·), fun _ => none, fun _ => some 7⟩
    ∃ t : Registry types Unit, t.find (bytes "a") = some 0 ∧
      t.lookupOrAdd false (bytes "a") (3 : Nat) [] = (none, t) := by
  intro types
  let s : Registry types Unit := ⟨[⟨bytes "a", [], true, (1 : Nat), none⟩], [(bytes "a", 0)], []⟩
  have hs : Transition.Reachable (· = empty) Step s :=
    ⟨_, [.lookup true (bytes "a") (1 : Nat) []], rfl, .cons rfl (.nil s)⟩
  have hrun : Transition.Run Step s [.setValue 0 true (5 : Nat), .loadNode (bytes "a") (bytes "7")]
      ⟨[⟨bytes "a", [], true, (7 : Nat), none⟩], [(bytes "a", 0)], []⟩ :=
    .cons rfl (.cons rfl (.nil _))
  have hlookup : s.lookup true (bytes "a") = some 0 := rfl
  obtain ⟨⟨hfind, -⟩, hother, -⟩ := lookup_of_run hs hrun hlookup
  exact ⟨_, hfind, hother false (by decide) (3 : Nat) []⟩

end Steps

/-! ### Variables are independent -/

/-- What calls do to one variable. -/
inductive Action (types : ι → VarType) (κ : Type) where
  | lookup (i : ι) (val : (types i).T) (description : Str)
  | setValue (i : ι) (v : (types i).T)
  | fromString (val : Str)
  | setOnChangeCallBack (cb : Option κ)

/-- The variable under a name. -/
def var (s : Registry types κ) (name : Str) : Option (Var types κ) := do
  let p ← s.find name
  s.objects[p]?

theorem Inv.var_iff (h : Inv s) :
    s.var name = some x ↔ ∃ p : Nat, s.objects[p]? = some x ∧ x._name = name := by
  rw [var, Option.bind_eq_bind, Option.bind_eq_some_iff]
  constructor
  · rintro ⟨p, hp, hx⟩
    obtain ⟨y, hy, hname⟩ := h.find_iff.mp hp
    obtain rfl := Option.some.inj (hx.symm.trans hy)
    exact ⟨p, hx, hname⟩
  · rintro ⟨p, hx, hname⟩
    exact ⟨p, h.find_iff.mpr ⟨x, hx, hname⟩, hx⟩

theorem Inv.var_add (h : Inv s) (hnew : s.find x._name = none) (name : Str) :
    (s.add x).var name = if x._name = name then some x else s.var name := by
  have ht := h.add hnew
  split
  case isTrue hname => exact ht.var_iff.mpr ⟨s.objects.length, by simp [Registry.add], hname⟩
  case isFalse hname =>
    ext y
    rw [ht.var_iff, h.var_iff]
    constructor
    · rintro ⟨p, hy, hyname⟩
      rw [Registry.add, List.getElem?_append] at hy
      split at hy
      case isTrue => exact ⟨p, hy, hyname⟩
      case isFalse =>
        obtain ⟨hzero, heq⟩ := List.getElem?_eq_some_iff.mp hy
        rw [List.getElem_singleton] at heq
        exact absurd (heq ▸ hyname) hname
    · rintro ⟨p, hy, hyname⟩
      refine ⟨p, ?_, hyname⟩
      rw [Registry.add, List.getElem?_append_left (List.getElem?_eq_some_iff.mp hy).1, hy]

theorem Inv.var_put (h : Inv s) {made : Var types κ × List (Call types κ)}
    (hx : s.objects[p]? = some x) (hsame : x.Same made.1) (name : Str) :
    (s.put p made).var name = if x._name = name then some made.1 else s.var name := by
  have ht := h.put hx hsame
  split
  case isTrue hname =>
    refine ht.var_iff.mpr ⟨p, ?_, hsame.name.trans hname⟩
    rw [getElem?_put hx, if_pos rfl]
  case isFalse hname =>
    ext y
    rw [ht.var_iff, h.var_iff]
    refine exists_congr fun q => and_congr_left fun hyname => ?_
    rw [getElem?_put hx]
    by_cases hpq : p = q
    · subst hpq
      rw [if_pos rfl, hx, Option.some.injEq, Option.some.injEq]
      constructor
      · intro hmade
        exact absurd (hsame.name.symm.trans (hmade ▸ hyname)) hname
      · intro heq
        exact absurd (heq ▸ hyname) hname
    · rw [if_neg hpq]

section Values

variable [DecidableEq ι]

/-- What is under `name`, after an action. -/
def Action.act (name : Str) (x : Option (Var types κ)) : Action types κ → Option (Var types κ)
  | .lookup i val description => some (x.getD ⟨name, description, i, val, none⟩)
  | .setValue i v => x.map fun x => if h : i = x.type then (x.setValue (h ▸ v)).1 else x
  | .fromString val => x.map fun x => (x.fromString val).1
  | .setOnChangeCallBack cb => x.map fun x => { x with _cb := cb }

/-- The name of what is at `p`. -/
def nameAt (s : Registry types κ) (p : Nat) : Option Str := s.objects[p]?.map Var._name

/-- The variable that a call is about. -/
def Label.about (s : Registry types κ) : Label types κ → Option (Str × Action types κ)
  | .lookup i name val description => some (name, .lookup i val description)
  | .setValue p i v => (s.nameAt p).map fun name => (name, .setValue i v)
  | .fromString p val => (s.nameAt p).map fun name => (name, .fromString val)
  | .setOnChangeCallBack p cb => (s.nameAt p).map fun name => (name, .setOnChangeCallBack cb)
  | .loadNode name text => if name.isEmpty then none else some (name, .fromString text)

theorem Inv.var_made (h : Inv s) {made : Var types κ × List (Call types κ)} (a : Action types κ)
    (hx : s.objects[p]? = some x) (hsame : x.Same made.1)
    (hact : a.act x._name (some x) = some made.1) (name : Str) :
    (s.put p made).var name =
      ([(x._name, a)].filter fun a => a.1 = name).foldl (fun x a => a.2.act name x) (s.var name) := by
  rw [h.var_put hx hsame, List.filter_singleton]
  by_cases hname : x._name = name
  · have hvar : s.var name = some x := h.var_iff.mpr ⟨p, hx, hname⟩
    rw [hname] at hact
    simp [hname, hvar, hact]
  · simp [hname]

/-- A step does to each variable what its call does if it is about it. -/
theorem Inv.var_step (h : Inv s) {label : Label types κ} (hstep : s.step label = some t)
    (name : Str) : t.var name =
      ((label.about s).toList.filter fun a => a.1 = name).foldl (fun x a => a.2.act name x)
        (s.var name) := by
  cases label with
  | lookup i name' val description =>
      obtain rfl := Option.some.inj hstep
      simp only [Label.about, Option.toList_some, List.filter_singleton]
      by_cases hname : name' = name
      · subst hname
        rcases s.lookupOrAdd_cases i name' val description with ⟨heq, hfind⟩ | ⟨hfind, heq⟩
        · obtain ⟨p, hp⟩ := Option.ne_none_iff_exists'.mp hfind
          obtain ⟨x, hx, hname⟩ := h.find_iff.mp hp
          have hvar : s.var name' = some x := h.var_iff.mpr ⟨p, hx, hname⟩
          simp [heq, hvar, Action.act]
        · have hvar : s.var name' = none := by
            rw [var, hfind]
            rfl
          rw [heq, h.var_add hfind, if_pos rfl]
          simp [hvar, Action.act]
      · rcases s.lookupOrAdd_cases i name' val description with ⟨heq, -⟩ | ⟨hfind, heq⟩
        · simp [heq, hname]
        · rw [heq, h.var_add hfind, if_neg hname]
          simp [hname]
  | setValue p i v =>
      obtain ⟨x, hx, hmade⟩ := Option.bind_eq_some_iff.mp hstep
      split at hmade
      case isTrue htype =>
        subst htype
        obtain rfl := Option.some.inj hmade
        simp only [Label.about, nameAt, hx, Option.map_some, Option.toList_some]
        exact h.var_made (.setValue x.type v) hx (x.same_setValue v) (by simp [Action.act]) name
      case isFalse => cases hmade
  | fromString p val =>
      obtain ⟨x, hx, hmade⟩ := Option.bind_eq_some_iff.mp hstep
      obtain rfl := Option.some.inj hmade
      simp only [Label.about, nameAt, hx, Option.map_some, Option.toList_some]
      exact h.var_made (.fromString val) hx (x.same_fromString val) rfl name
  | setOnChangeCallBack p cb =>
      obtain ⟨x, hx, hmade⟩ := Option.bind_eq_some_iff.mp hstep
      obtain rfl := Option.some.inj hmade
      simp only [Label.about, nameAt, hx, Option.map_some, Option.toList_some]
      exact h.var_made (.setOnChangeCallBack cb) hx ⟨rfl, rfl, rfl⟩ rfl name
  | loadNode name' text =>
      obtain rfl := Option.some.inj hstep
      rw [Label.about, loadNode]
      split
      case isTrue => rfl
      case isFalse =>
        cases hfind : s.find name' with
        | none =>
            by_cases hname : name' = name
            · have hvar : s.var name = none := by
                rw [var, ← hname, hfind]
                rfl
              simp [hname, hvar, Action.act]
            · simp [hname]
        | some p =>
            obtain ⟨x, hx, rfl⟩ := h.find_iff.mp hfind
            simp only [hx, Option.toList_some]
            exact h.var_made (.fromString text) hx (x.same_fromString text) rfl name

/-- A pointer that is good now leads to the same name later. -/
theorem Extends.about_eq {m u : Registry types κ} {label : Label types κ}
    (hstep : s.step label = some m) (h : s.Extends u) : label.about u = label.about s := by
  have hname : ∀ {p : Nat} {x : Var types κ}, s.objects[p]? = some x → u.nameAt p = s.nameAt p := by
    intro p x hx
    obtain ⟨y, hy, hsame⟩ := h p x hx
    rw [nameAt, nameAt, hx, hy, Option.map_some, Option.map_some, hsame.name]
  cases label with
  | lookup i name val description => rfl
  | setValue p i v =>
      obtain ⟨x, hx, -⟩ := Option.bind_eq_some_iff.mp hstep
      rw [Label.about, Label.about, hname hx]
  | fromString p val =>
      obtain ⟨x, hx, -⟩ := Option.bind_eq_some_iff.mp hstep
      rw [Label.about, Label.about, hname hx]
  | setOnChangeCallBack p cb =>
      obtain ⟨x, hx, -⟩ := Option.bind_eq_some_iff.mp hstep
      rw [Label.about, Label.about, hname hx]
  | loadNode name text => rfl

theorem about_of_run {m u : Registry types κ} {labels : List (Label types κ)}
    (hrun : Transition.Run Step s labels m) (h : m.Extends u) :
    ∀ label ∈ labels, label.about u = label.about m := by
  induction hrun with
  | nil s => exact nofun
  | cons first rest ih =>
      have hrest := (extends_of_step first).trans (extends_of_run rest)
      intro label hlabel
      rcases List.mem_cons.mp hlabel with rfl | hlabel
      · exact (Extends.about_eq first (hrest.trans h)).trans (Extends.about_eq first hrest).symm
      · exact ih h label hlabel

theorem Inv.var_run (h : Inv s) {labels : List (Label types κ)}
    (hrun : Transition.Run Step s labels t) (name : Str) :
    t.var name = ((labels.filterMap (Label.about t)).filter fun a => a.1 = name).foldl
      (fun x a => a.2.act name x) (s.var name) := by
  induction hrun with
  | nil s => rfl
  | @cons s m t label labels first rest ih =>
      have habout : label.about t = label.about s :=
        Extends.about_eq first ((extends_of_step first).trans (extends_of_run rest))
      rw [ih (h.step first), h.var_step first, ← habout, ← List.foldl_append, ← List.filter_append]
      congr 2
      cases habout : label.about t with
      | none => rw [List.filterMap_cons_none habout, Option.toList_none, List.nil_append]
      | some a => rw [List.filterMap_cons_some habout, Option.toList_some, List.singleton_append]

/-- **Variables are independent.** In any run, what becomes of the variable of a name is what the
calls about this name make of it, in their order. -/
theorem var_of_run (hs : Transition.Reachable (· = empty) Step s) {labels : List (Label types κ)}
    (hrun : Transition.Run Step s labels t) (name : Str) :
    t.var name = ((labels.filterMap (Label.about t)).filter fun a => a.1 = name).foldl
      (fun x a => a.2.act name x) (s.var name) :=
  (inv_of_reachable hs).var_run hrun name

/-- One variable is set, another one loaded. -/
theorem var_of_two :
    let types : Bool → VarType := fun _ => ⟨Nat, (· == ·), fun _ => none, fun _ => some 7⟩
    ∃ t : Registry types Unit, t.objects.length = 2 ∧
      t.var (bytes "a") = some ⟨bytes "a", [], true, (5 : Nat), none⟩ := by
  intro types
  let s : Registry types Unit := ⟨[⟨bytes "a", [], true, (1 : Nat), none⟩,
    ⟨bytes "b", [], false, (2 : Nat), none⟩], [(bytes "a", 0), (bytes "b", 1)], []⟩
  have hs : Transition.Reachable (· = empty) Step s :=
    ⟨_, [.lookup true (bytes "a") (1 : Nat) [], .lookup false (bytes "b") (2 : Nat) []], rfl,
      .cons rfl (.cons rfl (.nil s))⟩
  have hrun : Transition.Run Step s [.setValue 0 true (5 : Nat), .loadNode (bytes "b") (bytes "7")]
      ⟨[⟨bytes "a", [], true, (5 : Nat), none⟩, ⟨bytes "b", [], false, (7 : Nat), none⟩],
        [(bytes "a", 0), (bytes "b", 1)], []⟩ :=
    .cons rfl (.cons rfl (.nil _))
  exact ⟨_, rfl, var_of_run hs hrun (bytes "a")⟩

end Values

end CppUtils.Registry
