import CppUtils.Lib.Progress
import CppUtils.Proof.MessageQueueFifo
import Mathlib.Data.Finset.Card

/-!
# No pull of the message queue waits in vain

Every pull has returned with a value or is waiting, asleep or awake (`exists_waiting`). The work of
the queue is that threads that are awake go on. Each does so at most once unless it is woken again,
and when none is left to, a pull is waiting only if there is no value for it.
-/

namespace CppUtils.MQ

open Transition

variable {τ α : Type}

/-- A call of `pull`. -/
def Label.isPull : Label τ α → Bool
  | .pull _ => true
  | _ => false

/-- A thread comes out of `wait`. -/
def Label.Resumes : Label τ α → Prop
  | .resume _ => True
  | _ => False

/-- The threads whose pull has not returned. -/
def Waits (s : MQ τ α) (waiting : Finset τ) : Prop := ∀ t, t ∈ waiting ↔ s.status t ≠ .outside

theorem waits_new : (new : MQ τ α).Waits ∅ := by simp [Waits, new]

theorem wakeupAll_eq_outside {status : τ → Status} {t : τ} :
    Status.wakeupAll status t = .outside ↔ status t = .outside := by
  unfold Status.wakeupAll
  cases status t <;> simp

variable [DecidableEq τ] {s s' : MQ τ α} {waiting : Finset τ} {t : τ}

theorem Waits.sleep (h : s.Waits waiting)
    (hstatus : s'.status = Function.update s.status t .asleep) :
    s'.Waits (insert t waiting) := by
  intro u
  rw [hstatus, Finset.mem_insert, h u]
  by_cases hu : u = t
  · simp [hu]
  · simp [hu]

theorem Waits.leave (h : s.Waits waiting)
    (hstatus : s'.status = Function.update s.status t .outside) : s'.Waits (waiting.erase t) := by
  intro u
  rw [hstatus, Finset.mem_erase, h u]
  by_cases hu : u = t
  · simp [hu]
  · simp [hu]

/-- What returned and what waits change together by one in a call of `pull`, and not at all in any
other step. -/
theorem Waits.step {label : Label τ α} (h : s.Waits waiting) (hstep : Step s label s') :
    ∃ waiting', s'.Waits waiting' ∧ s'.taken.length + waiting'.card =
      s.taken.length + waiting.card + [label].countP Label.isPull := by
  cases hstep with
  | push data ht =>
      refine ⟨waiting, fun u => ?_, rfl⟩
      rw [h u]
      exact not_congr wakeupAll_eq_outside.symm
  | @pull t ht =>
      have hnot : t ∉ waiting := fun hmem => (h t).mp hmem ht
      rcases pull_cases s t with ⟨hq, hpull⟩ | ⟨item, rest, hq, hpull⟩
      · refine ⟨insert t waiting, h.sleep (by rw [hpull]), ?_⟩
        rw [hpull, Finset.card_insert_of_notMem hnot]
        exact (Nat.add_assoc _ _ _).symm
      · refine ⟨waiting.erase t, h.leave (by rw [hpull]), ?_⟩
        rw [hpull, Finset.erase_eq_of_notMem hnot, List.length_append]
        exact Nat.add_right_comm _ _ _
  | @resume t ht =>
      have hmem : t ∈ waiting := (h t).mpr (by rw [ht]; decide)
      rcases pull_cases s t with ⟨hq, hpull⟩ | ⟨item, rest, hq, hpull⟩
      · refine ⟨insert t waiting, h.sleep (by rw [hpull]), ?_⟩
        rw [hpull, Finset.insert_eq_of_mem hmem]
        rfl
      · refine ⟨waiting.erase t, h.leave (by rw [hpull]), ?_⟩
        have hcard := Finset.card_erase_add_one hmem
        rw [hpull, List.length_append, List.length_singleton, Nat.add_assoc, Nat.add_comm 1, hcard]
        rfl
  | @spurious t ht =>
      refine ⟨waiting, fun u => ?_, rfl⟩
      rw [h u]
      by_cases hu : u = t
      · simp [hu, ht]
      · simp [Function.update_of_ne hu]
  | clear ht => exact ⟨waiting, h, rfl⟩

/-- Every call of `pull` in a run has returned or is waiting. -/
theorem exists_waiting {labels : List (Label τ α)} (h : s.Waits waiting)
    (hrun : Run Step s labels s') :
    ∃ waiting', s'.Waits waiting' ∧ s'.taken.length + waiting'.card =
      s.taken.length + waiting.card + labels.countP Label.isPull := by
  induction hrun generalizing waiting with
  | nil s => exact ⟨waiting, h, rfl⟩
  | @cons s m s' label labels first rest ih =>
      obtain ⟨waitingM, hM, hfirst⟩ := h.step first
      obtain ⟨waiting', h', hrest⟩ := ih hM
      refine ⟨waiting', h', ?_⟩
      rw [hrest, hfirst, Nat.add_assoc, ← List.countP_append, List.singleton_append]

/-! ### Threads that go on -/

/-- How many of the threads are awake. -/
def awakeIn (threads : Finset τ) (s : MQ τ α) : Nat :=
  (threads.filter fun t => s.status t = .awake).card

/-- Nobody else is awake. -/
def Within (threads : Finset τ) (s : MQ τ α) : Prop := ∀ t, s.status t = .awake → t ∈ threads

theorem resume_cases {label : Label τ α} (hwork : label.Resumes) (hstep : Step s label s') :
    ∃ t status, label = .resume t ∧ s.status t = .awake ∧ status ≠ .awake ∧ s' = s.pull t ∧
      s'.status = Function.update s.status t status ∧ s'.kept = s.kept := by
  cases hstep with
  | @resume t ht =>
      rcases pull_cases s t with ⟨hq, hpull⟩ | ⟨item, rest, hq, hpull⟩
      · exact ⟨t, .asleep, rfl, ht, by decide, rfl, by rw [hpull], by rw [hpull]; rfl⟩
      · exact ⟨t, .outside, rfl, ht, by decide, rfl, by rw [hpull], by rw [hpull]; rfl⟩
  | _ => cases hwork

theorem Within.awakeIn_lt {label : Label τ α} (hawake : s.Within waiting) (hwork : label.Resumes)
    (hstep : Step s label s') : awakeIn waiting s' < awakeIn waiting s := by
  obtain ⟨t, status, -, ht, hne, -, hstatus, -⟩ := resume_cases hwork hstep
  apply Finset.card_lt_card
  rw [Finset.ssubset_iff_of_subset]
  · refine ⟨t, Finset.mem_filter.mpr ⟨hawake t ht, ht⟩, fun hmem => hne ?_⟩
    rw [hstatus, Finset.mem_filter, Function.update_self] at hmem
    exact hmem.2
  · intro u hu
    rw [Finset.mem_filter, hstatus] at hu
    rw [Finset.mem_filter]
    by_cases hut : u = t
    · exact ⟨hu.1, hut ▸ ht⟩
    · rwa [Function.update_of_ne hut] at hu

theorem Within.step {label : Label τ α} (hawake : s.Within waiting) (hwork : label.Resumes)
    (hstep : Step s label s') : s'.Within waiting := by
  obtain ⟨t, status, -, -, hne, -, hstatus, -⟩ := resume_cases hwork hstep
  intro u hu
  rw [hstatus] at hu
  by_cases hut : u = t
  · rw [hut, Function.update_self] at hu
    exact absurd hu hne
  · rw [Function.update_of_ne hut] at hu
    exact hawake u hu

theorem Within.length_le (h : s.Within waiting) {resumes : List (Label τ α)}
    (hresumes : Run (Working Step Label.Resumes) s resumes s') :
    resumes.length ≤ awakeIn waiting s := by
  have hpaid : awakeIn waiting s' + (resumes.map fun _ => 1).sum ≤
      awakeIn waiting s + (resumes.map fun _ => 0).sum := by
    refine hresumes.amortized (fun m label m' (hm : m.Within waiting) hstep => ?_)
      (fun m label m' hm hstep => ?_) h
    · exact hm.step hstep.1 hstep.2
    · exact hm.awakeIn_lt hstep.1 hstep.2
  have hlength : (resumes.map fun _ => 1).sum = resumes.length := by simp
  have hzero : (resumes.map fun _ => 0).sum = 0 := by simp
  omega

theorem kept_of_resumes {resumes : List (Label τ α)}
    (h : Run (Working Step Label.Resumes) s resumes s') :
    s'.kept = s.kept ∧ resumes.countP Label.isPull = 0 := by
  induction h with
  | nil s => exact ⟨rfl, rfl⟩
  | cons first _ ih =>
      obtain ⟨t, status, rfl, -, -, -, -, hkept⟩ := resume_cases first.1 first.2
      exact ⟨ih.1.trans hkept, ih.2⟩

/-- **No lost wakeup.** After any run, threads go on at most once for each pull that has not
returned; and when all that were awake have gone on, as many pulls have returned as were called, or
as there were values pushed and not cleared, whichever is less. -/
theorem pulls_returned_of_run {labels : List (Label τ α)} (hrun : Run Step new labels s)
    {resumes : List (Label τ α)} (hresumes : Run (Working Step Label.Resumes) s resumes s') :
    resumes.length + s.taken.length ≤ labels.countP Label.isPull ∧
      (AtRest Step Label.Resumes s' →
        s'.taken.length = min (labels.countP Label.isPull) s.kept.length) := by
  obtain ⟨waiting, hwaiting, hcount⟩ := exists_waiting waits_new hrun
  obtain ⟨waiting', hwaiting', hcount'⟩ := exists_waiting hwaiting hresumes.of_working
  obtain ⟨hkept, hnone⟩ := kept_of_resumes hresumes
  have hzero : (new : MQ τ α).taken.length + (∅ : Finset τ).card = 0 := rfl
  refine ⟨?_, fun hrest => ?_⟩
  · have hwithin : s.Within waiting := fun t ht => (hwaiting t).mpr (by rw [ht]; decide)
    have hbound := hwithin.length_le hresumes
    have hle : awakeIn waiting s ≤ waiting.card := Finset.card_filter_le _ _
    omega
  · have hinv : s'.Inv :=
      (hrun.append hresumes.of_working).invariant (fun s label s' h hstep => h.step hstep) inv_new
    have haccount := congrArg List.length hinv.account
    rw [List.length_append, List.length_map, hkept] at haccount
    rcases waiting'.eq_empty_or_nonempty with hempty | ⟨t, ht⟩
    · rw [hempty, Finset.card_empty] at hcount'
      omega
    · -- who waits is asleep, since nobody is awake, and then there is no value
      have hasleep : s'.status t = .asleep := by
        cases hstatus : s'.status t with
        | outside => exact absurd hstatus ((hwaiting' t).mp ht)
        | asleep => rfl
        | awake => exact absurd (Step.resume hstatus) (hrest _ _ trivial)
      rw [hinv.sleepers t hasleep, List.length_nil] at haccount
      omega

/-- A pull that slept through a push goes on and returns. -/
theorem pulls_returned_of_one : ∃ s s' : MQ Nat Nat, s.taken = [] ∧
    Run (Working Step Label.Resumes) s [.resume 1] s' ∧ s'.taken.length = min 1 1 := by
  have hrun : Run Step (new : MQ Nat Nat) [.pull 1, .push 0 7] ((new.pull 1).push 7) :=
    .cons (.pull rfl) (.cons (.push 7 rfl) (.nil _))
  have hresume : Run (Working Step Label.Resumes) (((new : MQ Nat Nat).pull 1).push 7) [.resume 1]
      (((new.pull 1).push 7).pull 1) := .cons ⟨trivial, .resume rfl⟩ (.nil _)
  have hrest : AtRest Step Label.Resumes ((((new : MQ Nat Nat).pull 1).push 7).pull 1) := by
    rintro _ t' hwork hstep
    obtain ⟨t, status, -, ht, -⟩ := resume_cases hwork hstep
    by_cases h : t = 1
    · rw [h] at ht
      cases ht
    · simp [MQ.pull, MQ.push, pop, new, Status.wakeupAll, h] at ht
  exact ⟨_, _, rfl, hresume, (pulls_returned_of_run hrun hresume).2 hrest⟩

end CppUtils.MQ
