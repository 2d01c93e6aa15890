import CppUtils.Lib.Transition
import CppUtils.Proof.ThreadParty

/-!
# What `Thread::start` and `Thread::join` promise

In a program with any number of `Thread` objects every object keeps `Party.Inv`, whatever the others
do. The objects that are made without a name are told apart by a number.
-/

namespace CppUtils.ThreadStart

open Transition

variable {ρ : Type*}

namespace Threads

open Party

variable {s t : Threads ρ} {label : Label ρ}

/-- What a step does: an object is made, or one party moves or fails. -/
theorem step_cases (hstep : Step s label t) :
    s.fault = none ∧
      ((∃ start_routine name, label = .construct start_routine name ∧ t = { s with
          threadNum := toInt (s.threadNum + 1)
          parties := s.parties ++ [.new (.new s.threadNum start_routine name)] }) ∨
        ∃ i action p, label = .act i action ∧ s.parties[i]? = some p ∧
          ((∃ fault, p.step action = some (.error fault) ∧
              t = { s with fault := some (i, fault) }) ∨
            ∃ p', p.step action = some (.ok p') ∧
              t = { s with parties := s.parties.set i p' })) := by
  cases label with
  | construct start_routine name =>
      obtain ⟨hfault, heq⟩ := Option.ite_none_right_eq_some.mp hstep
      cases heq
      exact ⟨Option.isNone_iff_eq_none.mp hfault, Or.inl ⟨start_routine, name, rfl, rfl⟩⟩
  | act i action =>
      obtain ⟨hfault, hstep⟩ := Option.ite_none_right_eq_some.mp hstep
      obtain ⟨p, hp, hstep⟩ := Option.bind_eq_some_iff.mp hstep
      obtain ⟨result, hresult, heq⟩ := Option.map_eq_some_iff.mp hstep
      refine ⟨Option.isNone_iff_eq_none.mp hfault, Or.inr ⟨i, action, p, rfl, hp, ?_⟩⟩
      cases result with
      | error fault => exact Or.inl ⟨fault, hresult, heq.symm⟩
      | ok p' => exact Or.inr ⟨p', hresult, heq.symm⟩

def Inv (s : Threads ρ) : Prop := ∀ p ∈ s.parties, p.Inv

theorem Inv.step (h : s.Inv) (hstep : Step s label t) : t.Inv := by
  obtain ⟨-, ⟨start_routine, name, -, rfl⟩ | ⟨i, action, p, -, hp, hcases⟩⟩ := step_cases hstep
  · intro q hq
    rcases List.mem_append.mp hq with hq | hq
    · exact h q hq
    · rw [List.mem_singleton.mp hq]
      exact inv_new _ _ _
  · rcases hcases with ⟨fault, -, rfl⟩ | ⟨p', hp', rfl⟩
    · exact h
    · intro q hq
      rcases List.mem_or_eq_of_mem_set hq with hq | rfl
      · exact h q hq
      · exact (h p (List.mem_of_getElem? hp)).step hp'

theorem inv_of_reachable (hs : Reachable (· = new) Step s) : s.Inv :=
  hs.invariant_from (fun _ hp => absurd hp List.not_mem_nil) fun _ _ _ h hstep => Inv.step h hstep

/-- **The handshake.** In every reachable state a routine was called at most once, and it is the one
the object had when it was started; a `start` that got the semaphore returned to an owner whose
thread is running; after `join` the routine was called and the thread has gone. -/
theorem handshake_of_reachable (hs : Reachable (· = new) Step s) {i : Nat} {p : Party ρ}
    (hp : s.parties[i]? = some p) :
    (p.runs = [] ∨ ∃ routine, p.begun = some (some routine) ∧ p.runs = [routine]) ∧
      (p.woken = true → (∃ c, p.child = some c ∧ c.place ≠ .wakeup) ∧
        ∀ t, p.thread = some t → t._sem = .new 0) ∧
      (p.joined = true → ∃ c routine, p.child = some c ∧ c.place = .exited ∧
        p.begun = some (some routine) ∧ p.runs = [routine] ∧
        ∀ t, p.thread = some t → t._tid = c.tid) := by
  have h : p.Inv := inv_of_reachable hs p (List.mem_of_getElem? hp)
  refine ⟨?_, fun hwoken => ⟨?_, fun t ht => ?_⟩, fun hjoined => ?_⟩
  · cases hc : p.child with
    | none => exact Or.inl (h.childless hc).1
    | some c =>
        have hruns := h.runs c hc
        split at hruns
        case isTrue hle =>
            obtain ⟨routine, hroutine⟩ := Option.isSome_iff_exists.mp (h.called c hc hle)
            refine Or.inr ⟨routine, hroutine ▸ h.routine c hc, ?_⟩
            rw [hruns, hroutine]
            rfl
        case isFalse => exact Or.inl hruns
  · have hposts := h.woken hwoken
    cases hc : p.child with
    | none =>
        rw [posts.eq_1, hc] at hposts
        cases hposts
    | some c =>
        refine ⟨c, rfl, fun hplace => ?_⟩
        rw [posts_of_child hc, if_pos hplace] at hposts
        cases hposts
  · have hsem := h.sem t ht
    rw [hwoken, h.woken hwoken] at hsem
    exact congrArg Semaphore.mk (Nat.succ.inj hsem)
  · obtain ⟨c, hc, hexited⟩ := h.joined hjoined
    obtain ⟨routine, hroutine⟩ :=
      Option.isSome_iff_exists.mp (h.called c hc (by simp [hexited, Place.left]))
    refine ⟨c, routine, hc, hexited, hroutine ▸ h.routine c hc, ?_, fun t ht => ?_⟩
    · rw [h.runs c hc, hexited, hroutine]
      rfl
    · exact h.tid t c ht hc (by simp [hexited, Place.left])

/-- One thread, from its constructor to its destructor. -/
def lifetime : List (Label Nat) :=
  [.construct (some 7) [], .act 0 (.start (some 42)), .act 0 .startThread, .act 0 .wait,
    .act 0 .startThread, .act 0 .startThread, .act 0 .join, .act 0 .startThread,
    .act 0 .startThread, .act 0 .joined, .act 0 .destroy]

theorem handshake_of_lifetime : ∃ (s : Threads Nat) (p : Party Nat), s.parties[0]? = some p ∧
    p.woken = true ∧ p.joined = true ∧
    (p.runs = [] ∨ ∃ routine, p.begun = some (some routine) ∧ p.runs = [routine]) ∧
      (p.woken = true → (∃ c, p.child = some c ∧ c.place ≠ .wakeup) ∧
        ∀ t, p.thread = some t → t._sem = .new 0) ∧
      (p.joined = true → ∃ c routine, p.child = some c ∧ c.place = .exited ∧
        p.begun = some (some routine) ∧ p.runs = [routine] ∧
        ∀ t, p.thread = some t → t._tid = c.tid) := by
  have hflags : ((lifetime.take 10).foldlM step new).map (fun s =>
      s.parties[0]?.map fun p => (p.woken, p.joined)) = some (some (true, true)) := by
    decide +kernel
  obtain ⟨s, hrun, hs⟩ := Option.map_eq_some_iff.mp hflags
  obtain ⟨p, hp, heq⟩ := Option.map_eq_some_iff.mp hs
  obtain ⟨hwoken, hjoined⟩ := Prod.mk.inj heq
  exact ⟨s, p, hp, hwoken, hjoined, handshake_of_reachable ⟨_, _, rfl, .of_foldlM hrun⟩ hp⟩

/-! ### Names -/

/-- The name that the constructor is given. -/
def Label.given : Label ρ → List (List Byte)
  | .construct _ name => [name]
  | .act _ _ => []

/-- The objects bear the names that the constructors were given, and where there was none, their
number. -/
structure Named (names : List (List Byte)) (s : Threads ρ) : Prop where
  threadNum : s.threadNum = toInt names.length
  length : s.parties.length = names.length
  name : ∀ (i : Nat) p t, s.parties[i]? = some p → p.thread = some t →
    ∃ name, names[i]? = some name ∧ t._name = setDefaultName (toInt i) name

theorem named_new : Named [] (new : Threads ρ) where
  threadNum := by simp [new, toInt]
  length := rfl
  name i p t hp := by simp [new] at hp

theorem Named.step {names : List (List Byte)} (h : Named names s) (hstep : Step s label t) :
    Named (names ++ label.given) t := by
  obtain ⟨-, ⟨start_routine, name, rfl, rfl⟩ | ⟨i, action, p, rfl, hp, hcases⟩⟩ := step_cases hstep
  · refine ⟨?_, ?_, fun i q t hq ht => ?_⟩
    · simp only [h.threadNum, toInt, Label.given, List.length_append, List.length_singleton,
        Nat.cast_add, Nat.cast_one, Int.bmod_add_bmod]
    · simp [Label.given, h.length]
    · by_cases hi : i < s.parties.length
      · rw [List.getElem?_append_left hi] at hq
        rw [List.getElem?_append_left (h.length ▸ hi)]
        exact h.name i q t hq ht
      · have hlt := (List.getElem?_eq_some_iff.mp hq).1
        have heq : i = s.parties.length := by
          simp only [List.length_append, List.length_singleton] at hlt
          omega
        subst heq
        rw [List.getElem?_concat_length] at hq
        cases hq
        cases ht
        refine ⟨name, by simp [Label.given, h.length], ?_⟩
        rw [h.length, ← h.threadNum]
        rfl
  · rw [Label.given, List.append_nil]
    rcases hcases with ⟨fault, -, rfl⟩ | ⟨p', hok, rfl⟩
    · exact ⟨h.threadNum, h.length, h.name⟩
    · refine ⟨h.threadNum, by simpa using h.length, fun j q t hq ht => ?_⟩
      by_cases hij : i = j
      · subst hij
        rw [List.getElem?_set_self (List.getElem?_eq_some_iff.mp hp).1] at hq
        cases hq
        rcases thread_cases hok with hsame | ⟨-, hnone, -⟩ | ⟨u, u', hu, hu', hname⟩
        · exact h.name i p t hp (hsame ▸ ht)
        · cases hnone.symm.trans ht
        · cases hu'.symm.trans ht
          rw [hname]
          exact h.name i p u hp hu
      · rw [List.getElem?_set_ne hij] at hq
        exact h.name j q t hq ht

theorem Named.run {names : List (List Byte)} {labels : List (Label ρ)} (h : Named names s)
    (hrun : Run Step s labels t) : Named (names ++ labels.flatMap Label.given) t := by
  induction hrun generalizing names with
  | nil s => simpa using h
  | cons first _ ih =>
      rw [List.flatMap_cons, ← List.append_assoc]
      exact ih (h.step first)

theorem toInt_eq_iff (i j : Nat) : toInt i = toInt j ↔ i % 2 ^ 32 = j % 2 ^ 32 := by
  have hcast (n : Nat) : (n : Int) % ((2 ^ 32 : Nat) : Int) = ((n % 2 ^ 32 : Nat) : Int) :=
    (Int.natCast_emod n (2 ^ 32)).symm
  constructor
  · intro h
    have hmod : toInt i % ((2 ^ 32 : Nat) : Int) = toInt j % ((2 ^ 32 : Nat) : Int) := by rw [h]
    rw [toInt, toInt, Int.bmod_emod, Int.bmod_emod, hcast, hcast] at hmod
    exact Int.natCast_inj.mp hmod
  · intro h
    rw [toInt, toInt, ← Int.emod_bmod, hcast, h, ← hcast, Int.emod_bmod]

theorem toString_inj {v w : Int} : toString v = toString w ↔ v = w := by
  refine ⟨fun h => ?_, fun h => h ▸ rfl⟩
  have hread (z : Int) : Numeral.readSigned (bytes "0123456789") 45 (toString z) = some z :=
    Numeral.readSigned_writeSigned (by decide) (by decide) 0 (by decide) z
  have hv := hread v
  rw [h, hread w] at hv
  exact (Option.some.inj hv).symm

/-- **Names of their own.** Of the objects that were made without a name, two have the same exactly
if their numbers are the same `int`. -/
theorem name_eq_iff_of_run {labels : List (Label ρ)} (hrun : Run Step new labels s) {i j : Nat}
    {p q : Party ρ} {t u : Thread ρ} (hp : s.parties[i]? = some p) (hq : s.parties[j]? = some q)
    (ht : p.thread = some t) (hu : q.thread = some u)
    (hi : (labels.flatMap Label.given)[i]? = some [])
    (hj : (labels.flatMap Label.given)[j]? = some []) :
    t._name = u._name ↔ i % 2 ^ 32 = j % 2 ^ 32 := by
  have hnamed := named_new.run hrun
  rw [List.nil_append] at hnamed
  obtain ⟨name, hname, hti⟩ := hnamed.name i p t hp ht
  obtain ⟨name', hname', huj⟩ := hnamed.name j q u hq hu
  cases hname.symm.trans hi
  cases hname'.symm.trans hj
  rw [hti, huj, setDefaultName, if_pos rfl, setDefaultName, if_pos rfl, List.append_cancel_left_eq,
    toString_inj, toInt_eq_iff]

/-- An object between two that have no name has one. -/
theorem name_of_two : ∃ (s : Threads Nat) (p q : Party Nat) (t u : Thread Nat),
    s.parties[0]? = some p ∧ s.parties[2]? = some q ∧ p.thread = some t ∧ q.thread = some u ∧
      (t._name = u._name ↔ 0 % 2 ^ 32 = 2 % 2 ^ 32) := by
  let labels : List (Label Nat) :=
    [.construct (some 7) [], .construct none (bytes "x"), .construct (some 8) []]
  have hmade : (labels.foldlM step new).map (fun s =>
      ((s.parties[0]?.bind Party.thread).isSome, (s.parties[2]?.bind Party.thread).isSome)) =
        some (true, true) := by decide +kernel
  obtain ⟨s, hs, heq⟩ := Option.map_eq_some_iff.mp hmade
  obtain ⟨hfirst, hlast⟩ := Prod.mk.inj heq
  obtain ⟨t, ht⟩ := Option.isSome_iff_exists.mp hfirst
  obtain ⟨u, hu⟩ := Option.isSome_iff_exists.mp hlast
  obtain ⟨p, hp, hpt⟩ := Option.bind_eq_some_iff.mp ht
  obtain ⟨q, hq, hqu⟩ := Option.bind_eq_some_iff.mp hu
  exact ⟨s, p, q, t, u, hp, hq, hpt, hqu,
    name_eq_iff_of_run (.of_foldlM hs) hp hq hpt hqu rfl rfl⟩

end Threads

end CppUtils.ThreadStart
