import CppUtils.Lib.Progress
import CppUtils.Proof.ThreadHandshake
import Mathlib.Algebra.Order.BigOperators.Group.List

/-!
# Who waits for a thread

Left to themselves the threads, and the calls of `start` and `join` that wait for them, come to a
rest. Nobody waits then, unless for a thread that could not be made.
-/

namespace CppUtils.ThreadStart

open Transition

variable {ρ : Type*}

namespace Party

variable {p p' : Party ρ} {action : Action ρ}

/-- What the thread has still to do, and the call of the owner that is to return. -/
def load (p : Party ρ) : Nat :=
  (p.child.elim 0 fun c => c.place.left) + if p.owner = .ready then 0 else 1

theorem load_le (p : Party ρ) : p.load ≤ 6 := by
  have hchild : (p.child.elim 0 fun c => c.place.left) ≤ 5 := by
    cases p.child with
    | none => exact Nat.zero_le 5
    | some c => cases hplace : c.place <;> simp [hplace, Place.left]
  unfold load
  split <;> omega

theorem load_wait (hstep : p.wait = some (.ok p')) : p'.load < p.load := by
  obtain ⟨hwaiting, hstep⟩ := Option.ite_none_right_eq_some.mp hstep
  obtain ⟨t, -, hstep⟩ := Option.bind_eq_some_iff.mp hstep
  obtain ⟨sem, -, heq⟩ := Option.map_eq_some_iff.mp hstep
  cases heq
  simp [load, hwaiting]

theorem load_pthreadJoin (hstep : p.pthreadJoin = some (.ok p')) : p'.load < p.load := by
  obtain ⟨⟨hjoining, -⟩, heq⟩ := Option.ite_none_right_eq_some.mp hstep
  cases heq
  simp [load, hjoining]

theorem load_startThread (hstep : p.startThread = some (.ok p')) : p'.load < p.load := by
  obtain ⟨⟨place, start_routine, tid⟩, hc, hstep⟩ := Option.bind_eq_some_iff.mp hstep
  cases place with
  | startRoutine =>
      cases start_routine <;> cases hstep
      simp [load, hc, Place.left]
  | exited => cases hstep
  | running =>
      cases hstep
      simp [load, hc, Place.left]
  | afterRoutine =>
      cases hstep
      simp [load, hc, Place.left]
  | _ =>
      cases ht : p.thread with
      | none => simp [ht] at hstep
      | some t =>
          simp only [ht, Option.some.injEq, Except.ok.injEq] at hstep
          subst hstep
          simp [load, hc, Place.left]

theorem exists_startThread {c : Child ρ} (hc : p.child = some c) (hplace : c.place ≠ .exited) :
    ∃ result, p.startThread = some result := by
  obtain ⟨place, start_routine, tid⟩ := c
  cases place with
  | exited => exact absurd rfl hplace
  | startRoutine => cases start_routine <;> simp [Party.startThread, hc]
  | running => simp [Party.startThread, hc]
  | afterRoutine => simp [Party.startThread, hc]
  | _ => cases ht : p.thread <;> simp [Party.startThread, hc, ht]

/-- **What a party waits for** when none of its steps is possible: nothing, but for a `start` whose
thread was not made. -/
theorem Inv.of_stuck (h : p.Inv) (hwait : p.wait = none) (hjoin : p.pthreadJoin = none)
    (hstart : p.startThread = none) :
    (p.owner = .ready ∨ p.owner = .waiting ∧ p.child = none) ∧
      ∀ c, p.child = some c → c.place = .exited ∧ p.runs = c._start_routine.toList ∧
        c._start_routine.isSome = true := by
  have hexited : ∀ c, p.child = some c → c.place = .exited := by
    intro c hc
    by_contra hplace
    obtain ⟨result, hresult⟩ := exists_startThread hc hplace
    cases hstart.symm.trans hresult
  constructor
  · cases howner : p.owner with
    | ready => exact Or.inl rfl
    | waiting =>
        refine Or.inr ⟨rfl, ?_⟩
        cases hc : p.child with
        | none => rfl
        | some c =>
            -- the semaphore was posted, so it can be taken
            obtain ⟨hwoken, -, hthread⟩ := h.waiting howner
            obtain ⟨t, ht⟩ := Option.isSome_iff_exists.mp hthread
            have hsem := h.sem t ht
            rw [hwoken, posts_of_child hc, hexited c hc] at hsem
            have hone : t._sem._sem = 1 := hsem
            simp [Party.wait, howner, ht, Semaphore.wait, hone] at hwait
    | joining =>
        cases hc : p.child with
        | none => exact absurd howner (h.childless hc).2
        | some c => simp [pthreadJoin, howner, hc, hexited c hc] at hjoin
  · intro c hc
    have hleft : c.place.left ≤ 2 := by simp [hexited c hc, Place.left]
    refine ⟨hexited c hc, ?_, h.called c hc hleft⟩
    rw [h.runs c hc, if_pos hleft]

end Party

namespace Threads

open Party

variable {s t : Threads ρ} {label : Label ρ}

def load (s : Threads ρ) : Nat :=
  (s.parties.map Party.load).sum + if s.fault = none then 1 else 0

theorem load_le (s : Threads ρ) : s.load ≤ 6 * s.parties.length + 1 := by
  have hparties : (s.parties.map Party.load).sum ≤ s.parties.length * 6 := by
    rw [← List.length_map (f := Party.load)]
    refine List.sum_le_card_nsmul _ 6 fun n hn => ?_
    obtain ⟨p, -, rfl⟩ := List.mem_map.mp hn
    exact p.load_le
  unfold load
  split <;> omega

theorem load_step (hwork : label.Work) (hstep : Step s label t) : t.load < s.load := by
  obtain ⟨hfault, ⟨start_routine, name, rfl, -⟩ | ⟨i, action, p, rfl, hp, hcases⟩⟩ :=
    step_cases hstep
  · cases hwork
  · rcases hcases with ⟨fault, -, rfl⟩ | ⟨p', hok, rfl⟩
    · simp [load, hfault]
    · have hless : p'.load < p.load := by
        cases action with
        | wait => exact load_wait hok
        | joined => exact load_pthreadJoin hok
        | startThread => exact load_startThread hok
        | _ => cases hwork
      have hsum := sum_map_set_add Party.load hp p'
      simp only [load, hfault]
      omega

theorem stuck_of_atRest (hrest : AtRest Step Label.Work s) (hfault : s.fault = none) {i : Nat}
    {p : Party ρ} (hp : s.parties[i]? = some p) {action : Action ρ}
    (hwork : (Label.act i action).Work) : p.step action = none := by
  rw [← Option.not_isSome_iff_eq_none, Option.isSome_iff_exists]
  rintro ⟨result, hresult⟩
  obtain ⟨t, ht⟩ : ∃ t, s.step (.act i action) = some t := by
    simp [Threads.step, hfault, hp, hresult]
  exact hrest _ _ hwork ht

theorem atRest_of_stuck
    (hstuck : ∀ p ∈ s.parties, p.wait = none ∧ p.pthreadJoin = none ∧ p.startThread = none) :
    AtRest Step Label.Work s := by
  intro label t hwork hstep
  obtain ⟨-, ⟨start_routine, name, rfl, -⟩ | ⟨i, action, p, rfl, hp, hcases⟩⟩ := step_cases hstep
  · cases hwork
  · obtain ⟨result, hresult⟩ : ∃ result, p.step action = some result :=
      hcases.elim (fun ⟨_, herror, _⟩ => ⟨_, herror⟩) fun ⟨_, hok, _⟩ => ⟨_, hok⟩
    obtain ⟨hwait, hjoin, hthread⟩ := hstuck p (List.mem_of_getElem? hp)
    cases action with
    | wait => cases hwait.symm.trans hresult
    | joined => cases hjoin.symm.trans hresult
    | startThread => cases hthread.symm.trans hresult
    | _ => cases hwork

/-- **Who waits for ever.** The threads and the calls that wait for them come to a rest within six
steps for each object. Unless the program has failed, every routine has then been called, every
thread has gone, and only a `start` for which no thread was made has not returned. -/
theorem returned_of_run (hs : Reachable (· = new) Step s) {labels : List (Label ρ)}
    (hrun : Run (Working Step Label.Work) s labels t) :
    labels.length ≤ 6 * s.parties.length + 1 ∧
      (AtRest Step Label.Work t → t.fault = none → ∀ p ∈ t.parties,
        (p.owner = .ready ∨ p.owner = .waiting ∧ p.child = none) ∧
          ∀ c, p.child = some c → c.place = .exited ∧
            ∃ routine, p.begun = some (some routine) ∧ p.runs = [routine]) := by
  have hinv := inv_of_reachable hs
  constructor
  · have hless (s : Threads ρ) (label : Label ρ) (t : Threads ρ) (_ : s.Inv) (hwork : label.Work)
        (hstep : Step s label t) : t.load < s.load := load_step hwork hstep
    have hlength := hrun.length_le_measure (fun _ _ _ h hstep => Inv.step h hstep) hless hinv
    have hle := s.load_le
    omega
  · intro hrest hfault p hp
    have ht : t.Inv := hrun.of_working.invariant (fun _ _ _ h hstep => Inv.step h hstep) hinv
    obtain ⟨i, hi⟩ := List.getElem?_of_mem hp
    have hstuck (action : Action ρ) (hwork : (Label.act i action).Work) : p.step action = none :=
      stuck_of_atRest hrest hfault hi hwork
    obtain ⟨howner, hchild⟩ := (ht p hp).of_stuck (hstuck .wait trivial) (hstuck .joined trivial)
      (hstuck .startThread trivial)
    refine ⟨howner, fun c hc => ?_⟩
    obtain ⟨hexited, hruns, hroutine⟩ := hchild c hc
    obtain ⟨routine, hsome⟩ := Option.isSome_iff_exists.mp hroutine
    refine ⟨hexited, routine, hsome ▸ (ht p hp).routine c hc, ?_⟩
    rw [hruns, hsome]
    rfl

/-- The thread is made, and it and its owner go on until nothing is left to do. -/
theorem returned_of_start : ∃ s t : Threads Nat, s.parties.length = 1 ∧
    6 ≤ 6 * s.parties.length + 1 ∧ AtRest Step Label.Work t ∧ t.fault = none ∧
      ∀ p ∈ t.parties, (p.owner = .ready ∨ p.owner = .waiting ∧ p.child = none) ∧
        ∀ c, p.child = some c → c.place = .exited ∧
          ∃ routine, p.begun = some (some routine) ∧ p.runs = [routine] := by
  have hmade : ((lifetime.take 2).foldlM step new).map (fun s => (s.parties.length,
      ([.act 0 .startThread, .act 0 .wait, .act 0 .startThread, .act 0 .startThread,
        .act 0 .startThread, .act 0 .startThread].foldlM step s).map fun t => (t.fault.isNone,
          t.parties.all fun p => p.wait.isNone && p.pthreadJoin.isNone && p.startThread.isNone))) =
      some (1, some (true, true)) := by decide +kernel
  obtain ⟨s, hs, heq⟩ := Option.map_eq_some_iff.mp hmade
  obtain ⟨hone, hmore⟩ := Prod.mk.inj heq
  obtain ⟨t, ht, heq'⟩ := Option.map_eq_some_iff.mp hmore
  obtain ⟨hnone, hparties⟩ := Prod.mk.inj heq'
  have hfault : t.fault = none := Option.isNone_iff_eq_none.mp hnone
  have hrest : AtRest Step Label.Work t := by
    refine atRest_of_stuck fun p hp => ?_
    have hstuck := List.all_eq_true.mp hparties p hp
    simp only [Bool.and_eq_true, Option.isNone_iff_eq_none] at hstuck
    exact ⟨hstuck.1.1, hstuck.1.2, hstuck.2⟩
  obtain ⟨hlength, hreturned⟩ := returned_of_run ⟨_, _, rfl, .of_foldlM hs⟩
    ((Run.of_foldlM ht).working (by simp [Label.Work]))
  exact ⟨s, t, hone, hlength, hrest, hfault, hreturned hrest hfault⟩

end Threads

end CppUtils.ThreadStart
