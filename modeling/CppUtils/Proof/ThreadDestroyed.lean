import CppUtils.Proof.ThreadHandshake

/-!
# When a `Thread` may be destroyed

A thread stores its id in the object after it has posted the semaphore, so `start` may return before
that. Until the id is stored the object must not be destroyed.
-/

namespace CppUtils.ThreadStart

open Transition

variable {ρ : Type*}

namespace Party

variable {p p' : Party ρ} {action : Action ρ}

/-- The thread has still to use the object. -/
def Attached (p : Party ρ) : Prop := ∃ c, p.child = some c ∧ 3 < c.place.left

theorem call_ne_dangling {body : Thread ρ → Except Fault (Party ρ)}
    (hbody : ∀ t, body t ≠ .error .dangling) : p.call body ≠ some (.error .dangling) := by
  intro hcall
  obtain ⟨-, t, -, heq⟩ := call_eq_some_iff.mp hcall
  exact hbody t heq

/-- Only `startThread` uses a destroyed object, and only at its first two statements. -/
theorem step_dangling_iff :
    p.step action = some (.error .dangling) ↔
      action = .startThread ∧ p.thread = none ∧ p.Attached := by
  constructor
  · intro hstep
    cases action with
    | addThreadFunc start_routine => exact absurd hstep (call_ne_dangling nofun)
    | start tid =>
        refine absurd hstep (call_ne_dangling fun t => ?_)
        split <;> nofun
    | wait =>
        obtain ⟨-, hstep⟩ := Option.ite_none_right_eq_some.mp hstep
        obtain ⟨t, -, hstep⟩ := Option.bind_eq_some_iff.mp hstep
        obtain ⟨sem, -, heq⟩ := Option.map_eq_some_iff.mp hstep
        cases heq
    | interrupt =>
        obtain ⟨-, heq⟩ := Option.ite_none_right_eq_some.mp hstep
        cases heq
    | join =>
        refine absurd hstep (call_ne_dangling fun t => ?_)
        split
        · nofun
        · split <;> nofun
    | joined =>
        obtain ⟨-, heq⟩ := Option.ite_none_right_eq_some.mp hstep
        cases heq
    | destroy => exact absurd hstep (call_ne_dangling nofun)
    | startThread =>
        obtain ⟨⟨place, start_routine, tid⟩, hc, hstep⟩ := Option.bind_eq_some_iff.mp hstep
        cases place with
        | wakeup =>
            cases ht : p.thread with
            | none => exact ⟨rfl, rfl, _, hc, by simp [Place.left]⟩
            | some t => simp [ht] at hstep
        | beforeRoutine =>
            cases ht : p.thread with
            | none => exact ⟨rfl, rfl, _, hc, by simp [Place.left]⟩
            | some t => simp [ht] at hstep
        | startRoutine => cases start_routine <;> cases hstep
        | running => cases hstep
        | afterRoutine => cases hstep
        | exited => cases hstep
  · rintro ⟨rfl, ht, ⟨place, start_routine, tid⟩, hc, hleft⟩
    cases place with
    | wakeup => simp [step, Party.startThread, hc, ht]
    | beforeRoutine => simp [step, Party.startThread, hc, ht]
    | _ => simp [Place.left] at hleft

theorem not_attached {c : Child ρ} (hc : p.child = some c) (hleft : c.place.left ≤ 3) :
    ¬ p.Attached := by
  rintro ⟨c', hc', hlt⟩
  obtain rfl := Option.some.inj (hc'.symm.trans hc)
  exact Nat.not_lt.mpr hleft hlt

/-- A destroyed object is called no more, and its thread goes on. -/
theorem step_of_destroyed (hthread : p.thread = none) (hstep : p.step action = some (.ok p')) :
    p'.thread = none ∧ (p'.Attached → p.Attached) := by
  have hcall {body : Thread ρ → Except Fault (Party ρ)} : p.call body = none := by
    simp [call, hthread]
  cases action with
  | addThreadFunc start_routine => cases hcall.symm.trans hstep
  | start tid => cases hcall.symm.trans hstep
  | wait => simp [step, Party.wait, hthread] at hstep
  | interrupt =>
      obtain ⟨-, heq⟩ := Option.ite_none_right_eq_some.mp hstep
      cases heq
      exact ⟨hthread, id⟩
  | join => cases hcall.symm.trans hstep
  | joined =>
      obtain ⟨-, heq⟩ := Option.ite_none_right_eq_some.mp hstep
      cases heq
      exact ⟨hthread, id⟩
  | destroy => cases hcall.symm.trans hstep
  | startThread =>
      obtain ⟨⟨place, start_routine, tid⟩, hc, hstep⟩ := Option.bind_eq_some_iff.mp hstep
      cases place with
      | wakeup => simp [hthread] at hstep
      | beforeRoutine => simp [hthread] at hstep
      | startRoutine =>
          cases start_routine with
          | none => cases hstep
          | some routine =>
              cases hstep
              refine ⟨hthread, fun hattached => absurd hattached ?_⟩
              exact not_attached rfl (by simp [Place.left])
      | running =>
          cases hstep
          refine ⟨hthread, fun hattached => absurd hattached ?_⟩
          exact not_attached rfl (by simp [Place.left])
      | afterRoutine =>
          cases hstep
          refine ⟨hthread, fun hattached => absurd hattached ?_⟩
          exact not_attached rfl (by simp [Place.left])
      | exited => cases hstep

end Party

namespace Threads

open Party

variable {s t : Threads ρ} {label : Label ρ}

/-- The object is destroyed and its thread needs it no more. -/
def Settled (i : Nat) (s : Threads ρ) : Prop :=
  s.fault ≠ some (i, .dangling) ∧ ∃ p, s.parties[i]? = some p ∧ p.thread = none ∧ ¬ p.Attached

theorem Settled.step {i : Nat} (h : Settled i s) (hstep : Step s label t) : Settled i t := by
  obtain ⟨hfault, p, hp, hthread, hdetached⟩ := h
  obtain ⟨-, ⟨start_routine, name, -, rfl⟩ | ⟨j, action, q, -, hq, hcases⟩⟩ := step_cases hstep
  · refine ⟨hfault, p, ?_, hthread, hdetached⟩
    exact (List.getElem?_append_left (List.getElem?_eq_some_iff.mp hp).1).trans hp
  · rcases hcases with ⟨fault, herror, rfl⟩ | ⟨q', hok, rfl⟩
    · refine ⟨fun heq => ?_, p, hp, hthread, hdetached⟩
      obtain ⟨rfl, rfl⟩ := Prod.mk.inj (Option.some.inj heq)
      cases hp.symm.trans hq
      exact hdetached (step_dangling_iff.mp herror).2.2
    · by_cases hij : j = i
      · subst hij
        cases hp.symm.trans hq
        obtain ⟨hthread', hback⟩ := step_of_destroyed hthread hok
        refine ⟨hfault, q', ?_, hthread', fun hattached => hdetached (hback hattached)⟩
        exact List.getElem?_set_self (List.getElem?_eq_some_iff.mp hp).1
      · exact ⟨hfault, p, (List.getElem?_set_ne hij).trans hp, hthread, hdetached⟩

/-- **When an object was destroyed too early.** The thread can use it after the fact exactly while
it has not yet stored its id, whether or not `start` has returned. -/
theorem dangling_iff (hfault : s.fault = none) {i : Nat} {p : Party ρ}
    (hp : s.parties[i]? = some p) (hdestroyed : p.thread = none) :
    (∃ labels t, Run Step s labels t ∧ t.fault = some (i, .dangling)) ↔
      ∃ c, p.child = some c ∧ (c.place = .wakeup ∨ c.place = .beforeRoutine) := by
  have hattached : p.Attached ↔
      ∃ c, p.child = some c ∧ (c.place = .wakeup ∨ c.place = .beforeRoutine) := by
    refine exists_congr fun c => and_congr_right fun _ => ?_
    cases c.place <;> simp [Place.left]
  rw [← hattached]
  constructor
  · rintro ⟨labels, t, hrun, hdangling⟩
    by_contra hdetached
    have hsettled : Settled i s := ⟨by simp [hfault], p, hp, hdestroyed, hdetached⟩
    exact (hrun.invariant (fun _ _ _ h hstep => h.step hstep) hsettled).1 hdangling
  · intro hattached
    have hstep : p.step .startThread = some (.error .dangling) :=
      step_dangling_iff.mpr ⟨rfl, hdestroyed, hattached⟩
    refine ⟨[.act i .startThread], { s with fault := some (i, .dangling) }, .cons ?_ (.nil _), rfl⟩
    simp [Step, Threads.step, hfault, hp, hstep]

/-- `start` has returned, and the object is destroyed at once. -/
theorem dangling_of_early : ∃ (s : Threads Nat) (p : Party Nat), s.parties[0]? = some p ∧
    p.woken = true ∧ ((∃ labels t, Run Step s labels t ∧ t.fault = some (0, .dangling)) ↔
      ∃ c, p.child = some c ∧ (c.place = .wakeup ∨ c.place = .beforeRoutine)) := by
  let labels : List (Label Nat) := lifetime.take 4 ++ [.act 0 .destroy]
  have hearly : (labels.foldlM step new).map (fun s =>
      (s.fault, s.parties[0]?.map fun p => (p.woken, p.thread.isNone))) =
        some (none, some (true, true)) := by decide +kernel
  obtain ⟨s, -, hs⟩ := Option.map_eq_some_iff.mp hearly
  obtain ⟨hfault, hparty⟩ := Prod.mk.inj hs
  obtain ⟨p, hp, heq⟩ := Option.map_eq_some_iff.mp hparty
  obtain ⟨hwoken, hthread⟩ := Prod.mk.inj heq
  exact ⟨s, p, hp, hwoken, dangling_iff hfault hp (Option.isNone_iff_eq_none.mp hthread)⟩

/-- Owners destroy what they never started or have joined. -/
def Careful (s : Threads ρ) : Label ρ → Prop
  | .act i .destroy => ∀ p ∈ s.parties[i]?, p.begun.isNone = true ∨ p.joined = true
  | _ => True

instance (s : Threads ρ) : DecidablePred s.Careful
  | .construct _ _ => inferInstanceAs (Decidable True)
  | .act _ (.addThreadFunc _) => inferInstanceAs (Decidable True)
  | .act _ (.start _) => inferInstanceAs (Decidable True)
  | .act _ .wait => inferInstanceAs (Decidable True)
  | .act _ .interrupt => inferInstanceAs (Decidable True)
  | .act _ .join => inferInstanceAs (Decidable True)
  | .act _ .joined => inferInstanceAs (Decidable True)
  | .act i .destroy => inferInstanceAs (Decidable (∀ p ∈ s.parties[i]?, _ ∨ _))
  | .act _ .startThread => inferInstanceAs (Decidable True)

def CarefulStep (s : Threads ρ) (label : Label ρ) (t : Threads ρ) : Prop :=
  Step s label t ∧ s.Careful label

/-- No thread is left with a destroyed object. -/
structure Clear (s : Threads ρ) : Prop where
  inv : s.Inv
  detached : ∀ p ∈ s.parties, p.thread = none → ¬ p.Attached
  fault : ∀ i, s.fault ≠ some (i, .dangling)

theorem Clear.step (h : Clear s) (hstep : CarefulStep s label t) : Clear t := by
  obtain ⟨hstep, hcareful⟩ := hstep
  have hinv := h.inv.step hstep
  obtain ⟨-, ⟨start_routine, name, -, rfl⟩ | ⟨i, action, p, rfl, hp, hcases⟩⟩ := step_cases hstep
  · refine ⟨hinv, fun q hq hthread => ?_, h.fault⟩
    rcases List.mem_append.mp hq with hq | hq
    · exact h.detached q hq hthread
    · rw [List.mem_singleton.mp hq] at hthread
      cases hthread
  · have hmem := List.mem_of_getElem? hp
    rcases hcases with ⟨fault, herror, rfl⟩ | ⟨p', hok, rfl⟩
    · refine ⟨h.inv, h.detached, fun j heq => ?_⟩
      obtain ⟨-, rfl⟩ := Prod.mk.inj (Option.some.inj heq)
      obtain ⟨-, hthread, hattached⟩ := step_dangling_iff.mp herror
      exact h.detached p hmem hthread hattached
    · refine ⟨hinv, fun q hq hthread => ?_, h.fault⟩
      rcases List.mem_or_eq_of_mem_set hq with hq | rfl
      · exact h.detached q hq hthread
      · rcases thread_cases hok with hsame | ⟨rfl, -, hchild⟩ | ⟨t, t', -, ht', -⟩
        · have hnone : p.thread = none := hsame.symm.trans hthread
          exact fun hattached =>
            h.detached p hmem hnone ((step_of_destroyed hnone hok).2 hattached)
        · rintro ⟨c, hc, hleft⟩
          rw [hchild] at hc
          rcases hcareful p hp with hbegun | hjoined
          · rw [(h.inv p hmem).unbegun (Option.isNone_iff_eq_none.mp hbegun)] at hc
            cases hc
          · obtain ⟨c', hc', hexited⟩ := (h.inv p hmem).joined hjoined
            cases hc.symm.trans hc'
            rw [hexited] at hleft
            exact absurd hleft (by decide)
        · cases ht'.symm.trans hthread

/-- **Join before you destroy**, and no thread ever uses a destroyed object, whatever signals
arrive. -/
theorem clear_of_run {labels : List (Label ρ)} (hrun : Run CarefulStep new labels s) (i : Nat) :
    s.fault ≠ some (i, .dangling) := by
  have hclear : Clear (new : Threads ρ) :=
    ⟨fun _ hp => absurd hp List.not_mem_nil, fun _ hp => absurd hp List.not_mem_nil, nofun⟩
  exact (hrun.invariant (fun _ _ _ h hstep => h.step hstep) hclear).fault i

theorem clear_of_lifetime : ∃ s : Threads Nat,
    Run CarefulStep new lifetime s ∧ s.fault ≠ some (0, .dangling) := by
  have hdestroyed : (lifetime.foldlM (fun (s : Threads Nat) label =>
      if s.Careful label then s.step label else none) new).map (fun s => s.fault) = some none := by
    decide +kernel
  obtain ⟨s, hs, -⟩ := Option.map_eq_some_iff.mp hdestroyed
  have hrun : Run CarefulStep new lifetime s := (Run.of_foldlM hs).imp fun _ _ _ hstep =>
    (Option.ite_none_right_eq_some.mp hstep).symm
  exact ⟨s, hrun, clear_of_run hrun 0⟩

end Threads

end CppUtils.ThreadStart
