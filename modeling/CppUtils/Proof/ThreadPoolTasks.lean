import CppUtils.Lib.Progress
import CppUtils.Proof.MessageQueueFifo
import CppUtils.Proof.ThreadPoolCount
import CppUtils.ThreadPoolTasks
import Mathlib.Algebra.Order.BigOperators.Group.Finset

/-!
# A thread pool runs each task once, and all of them

To its queue the pool is one of the systems that the queue is proved right for (`Inv.queue_step`), so
tasks start in the order they were added in. Each thread runs what it took one after the other
(`Inv.order`), and all threads together account for every task (`Inv.account`).

The threads' own steps are work. A step of a thread lowers `load`, where adding a task raises it by
two and by one for each thread that it wakes.
-/

namespace CppUtils

/-- The task that a thread of the pool runs. -/
def Routine.current {α : Type} : Routine α → List (Nat × α)
  | .running item => [item]
  | _ => []

namespace PoolRun

open Transition

variable {κ α : Type} [DecidableEq κ]

/-- The tasks that thread `i` took. -/
def takenBy (s : PoolRun κ α) (i : Nat) : List (Nat × α) :=
  (s._taskQueue.taken.filter fun entry => decide (entry.1 = .inl i)).map Prod.snd

/-- The tasks that thread `i` ran to their end. -/
def finishedBy (s : PoolRun κ α) (i : Nat) : List (Nat × α) :=
  (s.finished.filter fun entry => decide (entry.1 = i)).map Prod.snd

/-- The tasks that the threads of the pool run. -/
def running (s : PoolRun κ α) : Multiset (Nat × α) :=
  ∑ i ∈ Finset.range s._threads.length, ((s.routine i).current : Multiset (Nat × α))

/-- Thread `i` took the front of the queue. -/
def took (s : PoolRun κ α) (i : Nat) (item : Nat × α) (rest : List (Nat × α)) : PoolRun κ α :=
  { s with
    _taskQueue := { s._taskQueue with
      q := rest
      taken := s._taskQueue.taken ++ [(.inl i, item)]
      status := Function.update s._taskQueue.status (.inl i) .outside }
    routine := Function.update s.routine i (.running item) }

theorem pull_cases (s : PoolRun κ α) (i : Nat) :
    (s._taskQueue.q = [] ∧ s.pull i = { s with _taskQueue := { s._taskQueue with
        status := Function.update s._taskQueue.status (.inl i) .asleep } }) ∨
      ∃ item rest, s._taskQueue.q = item :: rest ∧ s.pull i = s.took i item rest := by
  rcases MQ.pull_cases s._taskQueue (.inl i) with ⟨hq, hpull⟩ | ⟨item, rest, hq, hpull⟩
  · exact Or.inl ⟨hq, by simp only [pull, hq, hpull]⟩
  · exact Or.inr ⟨item, rest, hq, by simp only [pull, took, hq, hpull]⟩

structure Inv (pool : ThreadPool) (s : PoolRun κ α) : Prop where
  queue : s._taskQueue.Inv
  uncleared : s._taskQueue.cleared = []
  length : s._threads.length = pool._threads.length
  next_le : s.next ≤ s._threads.length
  started : (pool._threads.take s.next).mapM Thread.start = some (s._threads.take s.next)
  unstarted : s._threads.drop s.next = pool._threads.drop s.next
  created : ∀ i, s.routine i = .created ↔ s.next ≤ i
  outside : ∀ i item, s.routine i = .running item → s._taskQueue.status (.inl i) = .outside
  order : ∀ i, s.takenBy i = s.finishedBy i ++ (s.routine i).current
  account : (s._taskQueue.pushed : Multiset (Nat × α)) =
    (s.finished.map Prod.snd : Multiset (Nat × α)) + s.running + s._taskQueue.q

theorem inv_ofPool (pool : ThreadPool) : Inv pool (ofPool pool : PoolRun κ α) where
  queue := MQ.inv_new
  uncleared := rfl
  length := rfl
  next_le := Nat.zero_le _
  started := rfl
  unstarted := rfl
  created := fun i => ⟨fun _ => Nat.zero_le i, fun _ => rfl⟩
  outside := nofun
  order := fun _ => rfl
  account := by simp [ofPool, MQ.new, running, Routine.current]

omit [DecidableEq κ] in
theorem startNext_cases {s s' : PoolRun κ α} (hs : s.startNext = some s') :
    ∃ thread thread', s._threads[s.next]? = some thread ∧ thread.start = some thread' ∧
      s' = { s with
        _threads := s._threads.set s.next thread'
        next := s.next + 1
        routine := Function.update s.routine s.next .pulling } := by
  simp only [startNext, Option.bind_eq_bind, Option.bind_eq_some_iff, Option.some.injEq] at hs
  obtain ⟨thread, hthread, thread', hthread', rfl⟩ := hs
  exact ⟨thread, thread', hthread, hthread', rfl⟩

namespace Inv

variable {pool : ThreadPool} {s s' : PoolRun κ α} {i : Nat} {item : Nat × α}

theorem lt_next (h : Inv pool s) (hi : s.routine i ≠ .created) : i < s.next := by
  rw [ne_eq, h.created i] at hi
  exact Nat.lt_of_not_le hi

theorem lt_length (h : Inv pool s) (hi : s.routine i ≠ .created) : i < s._threads.length :=
  Nat.lt_of_lt_of_le (h.lt_next hi) h.next_le

/-- What the threads run once thread `i` has moved. -/
theorem running_update (h : Inv pool s) (hi : s.routine i ≠ .created) {t : PoolRun κ α}
    {r : Routine α} (hthreads : t._threads = s._threads)
    (hroutine : t.routine = Function.update s.routine i r) :
    t.running + ((s.routine i).current : Multiset (Nat × α)) = s.running + r.current := by
  have hmoved := sum_add_of_moved (Finset.mem_range.mpr (h.lt_length hi))
    (f := fun j => ((t.routine j).current : Multiset (Nat × α)))
    (g := fun j => ((s.routine j).current : Multiset (Nat × α)))
    (fun j hj => by simp only [hroutine, Function.update_of_ne hj])
  simp only [hroutine, Function.update_self] at hmoved
  rw [running, running, hthreads, hroutine]
  exact hmoved

/-- **The queue of a pool is a message queue.** -/
theorem queue_step (h : Inv pool s) {label : Label κ α} (hstep : Step s label s') :
    s'._taskQueue = s._taskQueue ∨
      ∃ queueLabel, MQ.Step s._taskQueue queueLabel s'._taskQueue := by
  cases hstep with
  | start hs =>
      obtain ⟨thread, thread', -, -, rfl⟩ := startNext_cases hs
      exact Or.inl rfl
  | addTask t hc => exact Or.inr ⟨_, .push t hc⟩
  | spawn t hi => exact Or.inr ⟨_, .push t (h.outside _ _ hi)⟩
  | @pull i hi hawake =>
      right
      cases hstatus : s._taskQueue.status (.inl i) with
      | outside => exact ⟨_, .pull hstatus⟩
      | asleep => exact absurd hstatus hawake
      | awake => exact ⟨_, .resume hstatus⟩
  | finish hi => exact Or.inl rfl
  | spurious hi hasleep => exact Or.inr ⟨_, .spurious hasleep⟩

theorem queue_inv (h : Inv pool s) {label : Label κ α} (hstep : Step s label s') :
    s'._taskQueue.Inv := by
  rcases h.queue_step hstep with hsame | ⟨queueLabel, hqueue⟩
  · rw [hsame]
    exact h.queue
  · exact h.queue.step hqueue

/-! ### One step -/

theorem startNext (h : Inv pool s) (hs : s.startNext = some s') : Inv pool s' := by
  obtain ⟨thread, thread', hthread, hthread', rfl⟩ := startNext_cases hs
  have hlt : s.next < s._threads.length := (List.getElem?_eq_some_iff.mp hthread).1
  have hpool : pool._threads[s.next]? = some thread := by
    have hhead := congrArg List.head? h.unstarted
    rwa [List.head?_drop, List.head?_drop, hthread, eq_comm] at hhead
  have hcreated : s.routine s.next = .created := (h.created s.next).mpr (Nat.le_refl _)
  have hcurrent : ∀ i, (Function.update s.routine s.next .pulling i).current =
      (s.routine i).current := by
    intro i
    by_cases hi : i = s.next
    · rw [hi, Function.update_self, hcreated]
      rfl
    · rw [Function.update_of_ne hi]
  refine ⟨h.queue, h.uncleared, ?_, ?_, ?_, ?_, ?_, ?_, ?_, ?_⟩
  · rw [List.length_set]
    exact h.length
  · rw [List.length_set]
    exact hlt
  · rw [List.take_add_one, hpool, Option.toList_some, List.mapM_append, h.started,
      List.take_add_one, List.take_set_of_le (Nat.le_refl _), List.getElem?_set_self hlt]
    simp [hthread']
  · have htail := congrArg List.tail h.unstarted
    rwa [List.tail_drop, List.tail_drop, ← List.drop_set_of_lt (Nat.lt_succ_self _)] at htail
  · intro i
    by_cases hi : i = s.next
    · subst hi
      simp
    · simp only [Function.update_of_ne hi, h.created i]
      omega
  · intro i item hi
    by_cases hnext : i = s.next
    · subst hnext
      simp at hi
    · simp only [Function.update_of_ne hnext] at hi
      exact h.outside i item hi
  · intro i
    simp only [hcurrent]
    exact h.order i
  · have hrunning : running { s with
        _threads := s._threads.set s.next thread'
        next := s.next + 1
        routine := Function.update s.routine s.next .pulling } = s.running := by
      simp only [running, hcurrent, List.length_set]
    rw [hrunning]
    exact h.account

theorem addTask (h : Inv pool s) (t : α) (hqueue : (s._taskQueue.push t).Inv) :
    Inv pool (s.addTask t) := by
  refine ⟨hqueue, h.uncleared, h.length, h.next_le, h.started, h.unstarted, h.created, ?_, h.order, ?_⟩
  · intro i item hi
    have houtside := h.outside i item hi
    simp only [PoolRun.addTask, MQ.push, Status.wakeupAll, houtside]
    rfl
  · have haccount := h.account
    simp only [PoolRun.addTask, MQ.push, ← Multiset.coe_add, haccount]
    exact add_assoc _ _ _

theorem pull_nil (h : Inv pool s) (hi : s.routine i = .pulling)
    (hqueue : ({ s._taskQueue with
      status := Function.update s._taskQueue.status (.inl i) .asleep } : MQ (Nat ⊕ κ) α).Inv) :
    Inv pool { s with _taskQueue := { s._taskQueue with
      status := Function.update s._taskQueue.status (.inl i) .asleep } } := by
  refine ⟨hqueue, h.uncleared, h.length, h.next_le, h.started, h.unstarted, h.created, ?_, h.order,
    h.account⟩
  intro j item hj
  have hne : (Sum.inl j : Nat ⊕ κ) ≠ .inl i := by
    rintro ⟨⟩
    rw [hi] at hj
    cases hj
  simp only [Function.update_of_ne hne]
  exact h.outside j item hj

theorem pull_cons (h : Inv pool s) (hi : s.routine i = .pulling) {rest : List (Nat × α)}
    (hq : s._taskQueue.q = item :: rest) (hqueue : (s.took i item rest)._taskQueue.Inv) :
    Inv pool (s.took i item rest) := by
  have hcreated : s.routine i ≠ .created := by simp [hi]
  have hrunning := h.running_update hcreated (t := s.took i item rest) (r := .running item) rfl rfl
  refine ⟨hqueue, h.uncleared, h.length, h.next_le, h.started, h.unstarted, ?_, ?_, ?_, ?_⟩
  · intro j
    by_cases hj : j = i
    · subst hj
      simpa [took] using h.lt_next hcreated
    · simp only [took, Function.update_of_ne hj, h.created j]
  · intro j other hj
    by_cases hji : j = i
    · subst hji
      simp [took]
    · have hne : (Sum.inl j : Nat ⊕ κ) ≠ .inl i := fun heq => hji (Sum.inl_injective heq)
      simp only [took, Function.update_of_ne hji] at hj
      simp only [took, Function.update_of_ne hne]
      exact h.outside j other hj
  · intro j
    have horder := h.order j
    by_cases hj : j = i
    · subst hj
      rw [hi] at horder
      simp only [takenBy, finishedBy, Routine.current, List.append_nil] at horder
      simp [took, takenBy, finishedBy, Routine.current, horder]
    · have hne : ¬ i = j := fun heq => hj heq.symm
      simpa [took, takenBy, finishedBy, Function.update_of_ne hj, hne] using horder
  · rw [hi] at hrunning
    simp only [Routine.current, Multiset.coe_nil, add_zero] at hrunning
    rw [hrunning]
    have haccount := h.account
    rw [hq] at haccount
    simp only [took, haccount, ← Multiset.cons_coe, ← Multiset.singleton_add, Multiset.coe_nil,
      add_zero, add_assoc]

theorem finish (h : Inv pool s) (hi : s.routine i = .running item) :
    Inv pool (s.finish i item) := by
  have hcreated : s.routine i ≠ .created := by simp [hi]
  have hrunning := h.running_update hcreated (t := s.finish i item) (r := .pulling) rfl rfl
  refine ⟨h.queue, h.uncleared, h.length, h.next_le, h.started, h.unstarted, ?_, ?_, ?_, ?_⟩
  · intro j
    by_cases hj : j = i
    · subst hj
      simpa [PoolRun.finish] using h.lt_next hcreated
    · simpa only [PoolRun.finish, Function.update_of_ne hj] using h.created j
  · intro j other hj
    by_cases hji : j = i
    · subst hji
      simp [PoolRun.finish] at hj
    · simp only [PoolRun.finish, Function.update_of_ne hji] at hj
      exact h.outside j other hj
  · intro j
    have horder := h.order j
    by_cases hj : j = i
    · subst hj
      rw [hi] at horder
      simpa [takenBy, finishedBy, PoolRun.finish, Routine.current] using horder
    · have hne : ¬ i = j := fun heq => hj heq.symm
      simpa [takenBy, finishedBy, PoolRun.finish, Function.update_of_ne hj, hne] using horder
  · rw [hi] at hrunning
    simp only [Routine.current, Multiset.coe_nil, add_zero] at hrunning
    have hfinished : ((s.finish i item).finished.map Prod.snd : Multiset (Nat × α)) =
        (s.finished.map Prod.snd : Multiset (Nat × α)) + [item] := by
      rw [Multiset.coe_add]
      simp only [PoolRun.finish, List.map_append, List.map_cons, List.map_nil]
    calc
      (s._taskQueue.pushed : Multiset (Nat × α))
          = (s.finished.map Prod.snd : Multiset (Nat × α)) + s.running + s._taskQueue.q := h.account
      _ = (s.finished.map Prod.snd : Multiset (Nat × α)) + ((s.finish i item).running + [item]) +
            s._taskQueue.q := by rw [← hrunning]
      _ = (s.finished.map Prod.snd : Multiset (Nat × α)) + [item] + (s.finish i item).running +
            s._taskQueue.q := by rw [add_comm _ ([item] : Multiset (Nat × α)), ← add_assoc]
      _ = ((s.finish i item).finished.map Prod.snd : Multiset (Nat × α)) +
            (s.finish i item).running + s._taskQueue.q := by rw [hfinished]

theorem step (h : Inv pool s) {label : Label κ α} (hstep : Step s label s') : Inv pool s' := by
  have hqueue := h.queue_inv hstep
  cases hstep with
  | start hs => exact h.startNext hs
  | addTask t _ => exact h.addTask t hqueue
  | spawn t _ => exact h.addTask t hqueue
  | @pull i hi hawake =>
      rcases pull_cases s i with ⟨-, hpull⟩ | ⟨item, rest, hq, hpull⟩
      · rw [hpull] at hqueue ⊢
        exact h.pull_nil hi hqueue
      · rw [hpull] at hqueue ⊢
        exact h.pull_cons hi hq hqueue
  | finish hi => exact h.finish hi
  | @spurious i hi hasleep =>
      refine ⟨hqueue, h.uncleared, h.length, h.next_le, h.started, h.unstarted, h.created, ?_, h.order,
        h.account⟩
      intro j item hj
      have hne : (Sum.inl j : Nat ⊕ κ) ≠ .inl i := by
        rintro ⟨⟩
        rw [hi] at hj
        cases hj
      simp only [Function.update_of_ne hne]
      exact h.outside j item hj

end Inv

/-! ### Work -/

/-- The steps that a thread of the pool takes by itself. -/
def Label.done : Label κ α → Nat
  | .pull _ | .finish _ => 1
  | .start | .addTask _ _ | .spawn _ _ | .spurious _ => 0

def Label.Work (label : Label κ α) : Prop := label.done = 1

/-- How many steps a thread takes before it sleeps, if it finds nothing in the queue. -/
def weight (status : Status) : Routine α → Nat
  | .created => 0
  | .pulling => if status = .asleep then 0 else 1
  | .running _ => 2

theorem weight_le (status status' : Status) (r : Routine α) :
    weight status' r ≤ weight status r + 1 := by
  cases r with
  | created => exact Nat.zero_le _
  | pulling =>
      simp only [weight]
      split <;> omega
  | running _ => exact Nat.le_succ _

def weightOf (s : PoolRun κ α) (i : Nat) : Nat := weight (s._taskQueue.status (.inl i)) (s.routine i)

/-- What is left to do. -/
def load (s : PoolRun κ α) : Nat :=
  2 * s._taskQueue.q.length + ∑ i ∈ Finset.range s._threads.length, s.weightOf i

/-- What a step may add to the load of a pool of `threads` threads. -/
def Label.cost (threads : Nat) : Label κ α → Nat
  | .start | .spurious _ => 1
  | .addTask _ _ | .spawn _ _ => threads + 2
  | .pull _ | .finish _ => 0

omit [DecidableEq κ] in
theorem load_addTask_le (s : PoolRun κ α) (t : α) :
    (s.addTask t).load ≤ s.load + (s._threads.length + 2) := by
  have hweights : ∑ i ∈ Finset.range s._threads.length, (s.addTask t).weightOf i ≤
      ∑ i ∈ Finset.range s._threads.length, s.weightOf i + s._threads.length := by
    calc
      ∑ i ∈ Finset.range s._threads.length, (s.addTask t).weightOf i
          ≤ ∑ i ∈ Finset.range s._threads.length, (s.weightOf i + 1) :=
            Finset.sum_le_sum fun i _ => weight_le _ _ (s.routine i)
      _ = ∑ i ∈ Finset.range s._threads.length, s.weightOf i + s._threads.length := by
            simp [Finset.sum_add_distrib]
  simp only [load, addTask, MQ.push, List.length_append, List.length_singleton] at hweights ⊢
  omega

omit [DecidableEq κ] in
/-- The load after thread `i` has moved. -/
theorem load_moved {s t : PoolRun κ α} {i : Nat} (hi : i < s._threads.length)
    (hlength : t._threads.length = s._threads.length)
    (hothers : ∀ j, j ≠ i → t.weightOf j = s.weightOf j) :
    t.load + s.weightOf i + 2 * s._taskQueue.q.length =
      s.load + t.weightOf i + 2 * t._taskQueue.q.length := by
  have hmoved := sum_add_of_moved (Finset.mem_range.mpr hi) hothers
  simp only [load, hlength]
  omega

theorem Inv.load_step {pool : ThreadPool} {s s' : PoolRun κ α} (h : Inv pool s)
    {label : Label κ α} (hstep : Step s label s') :
    s'.load + label.done ≤ s.load + label.cost pool._threads.length := by
  cases hstep with
  | start hs =>
      obtain ⟨thread, thread', hthread, -, rfl⟩ := startNext_cases hs
      have hlt : s.next < s._threads.length := (List.getElem?_eq_some_iff.mp hthread).1
      have hmoved := load_moved (t := { s with
        _threads := s._threads.set s.next thread'
        next := s.next + 1
        routine := Function.update s.routine s.next .pulling }) hlt List.length_set
        fun j hj => by simp only [weightOf, Function.update_of_ne hj]
      have hzero : s.weightOf s.next = 0 := by
        simp only [weightOf, (h.created s.next).mpr (Nat.le_refl _), weight]
      have hone := weight_le (α := α) .asleep (s._taskQueue.status (.inl s.next)) .pulling
      rw [hzero] at hmoved
      simp only [weightOf, Function.update_self] at hmoved
      simp only [weight, if_true] at hone
      simp only [Label.done, Label.cost, weight] at hmoved ⊢
      omega
  | addTask t _ =>
      have hle := load_addTask_le s t
      rw [h.length] at hle
      exact hle
  | spawn t _ =>
      have hle := load_addTask_le s t
      rw [h.length] at hle
      exact hle
  | @pull i hi hawake =>
      have hlt := h.lt_length (by simp [hi] : s.routine i ≠ .created)
      have hone : s.weightOf i = 1 := by simp [weightOf, weight, hi, hawake]
      have hinj : ∀ j, j ≠ i → (Sum.inl j : Nat ⊕ κ) ≠ .inl i :=
        fun j hj heq => hj (Sum.inl_injective heq)
      rcases pull_cases s i with ⟨hq, hpull⟩ | ⟨item, rest, hq, hpull⟩
      · have hmoved := load_moved (t := s.pull i) hlt (by rw [hpull])
          fun j hj => by rw [hpull]; simp only [weightOf, Function.update_of_ne (hinj j hj)]
        have hzero : (s.pull i).weightOf i = 0 := by
          rw [hpull]
          simp [weightOf, weight, hi]
        have hsame : (s.pull i)._taskQueue.q = s._taskQueue.q := by rw [hpull]
        rw [hone, hzero, hsame] at hmoved
        simp only [Label.done, Label.cost]
        omega
      · have hmoved := load_moved (t := s.pull i) hlt (by rw [hpull]; rfl) fun j hj => by
          rw [hpull]
          simp only [weightOf, took, Function.update_of_ne (hinj j hj), Function.update_of_ne hj]
        have htwo : (s.pull i).weightOf i = 2 := by
          rw [hpull]
          simp [weightOf, weight, took]
        have hrest : (s.pull i)._taskQueue.q = rest := by rw [hpull]; rfl
        rw [hone, htwo, hrest, hq, List.length_cons] at hmoved
        simp only [Label.done, Label.cost]
        omega
  | @finish i item hi =>
      have hlt := h.lt_length (by simp [hi] : s.routine i ≠ .created)
      have hmoved := load_moved (t := s.finish i item) hlt rfl
        fun j hj => by simp only [weightOf, PoolRun.finish, Function.update_of_ne hj]
      have htwo : s.weightOf i = 2 := by simp [weightOf, weight, hi]
      have hone : (s.finish i item).weightOf i = 1 := by
        simp [weightOf, weight, PoolRun.finish, h.outside i item hi]
      rw [htwo, hone] at hmoved
      simp only [Label.done, Label.cost, PoolRun.finish] at hmoved ⊢
      omega
  | @spurious i hi hasleep =>
      have hlt := h.lt_length (by simp [hi] : s.routine i ≠ .created)
      have hmoved := load_moved (t := { s with _taskQueue := { s._taskQueue with
          status := Function.update s._taskQueue.status (.inl i) .awake } }) hlt rfl
        fun j hj => by
          have hne : (Sum.inl j : Nat ⊕ κ) ≠ .inl i := fun heq => hj (Sum.inl_injective heq)
          simp only [weightOf, Function.update_of_ne hne]
      have hone := weight_le (α := α) .asleep .awake .pulling
      simp only [weightOf, weight, hi, hasleep, Function.update_self, if_true] at hmoved hone
      simp only [Label.done, Label.cost]
      omega

/-! ### Rest -/

section Rest

variable {pool : ThreadPool} {s t : PoolRun κ α}

theorem Inv.asleep_of_atRest (h : Inv pool s) (hrest : AtRest Step Label.Work s) {i : Nat}
    (hi : i < s.next) : s.routine i = .pulling ∧ s._taskQueue.status (.inl i) = .asleep := by
  cases hroutine : s.routine i with
  | created => exact absurd ((h.created i).mp hroutine) (Nat.not_le_of_lt hi)
  | pulling =>
      refine ⟨rfl, ?_⟩
      by_contra hawake
      exact hrest (.pull i) _ rfl (.pull hroutine hawake)
  | running item => exact absurd (.finish hroutine) (hrest (.finish i) _ rfl)

/-- Nobody sleeps beside a task, so at rest every task has returned. -/
theorem Inv.finished_of_atRest (h : Inv pool s) (hrest : AtRest Step Label.Work s)
    (hstarted : 0 < s.next) :
    (s._taskQueue.pushed : Multiset (Nat × α)) = (s.finished.map Prod.snd : Multiset (Nat × α)) := by
  have hq : s._taskQueue.q = [] := h.queue.sleepers _ (h.asleep_of_atRest hrest hstarted).2
  have hrunning : s.running = 0 := by
    apply Finset.sum_eq_zero
    intro i _
    by_cases hi : i < s.next
    · rw [(h.asleep_of_atRest hrest hi).1]
      rfl
    · rw [(h.created i).mpr (Nat.le_of_not_lt hi)]
      rfl
  rw [h.account, hq, hrunning, add_zero, Multiset.coe_nil, add_zero]

theorem pushed_of_work {label : Label κ α} (hwork : label.Work) (hstep : Step s label t) :
    t._taskQueue.pushed = s._taskQueue.pushed ∧ t.next = s.next := by
  cases hstep with
  | @pull i _ _ =>
      rcases pull_cases s i with ⟨-, hpull⟩ | ⟨item, rest, -, hpull⟩
      · rw [hpull]
        exact ⟨rfl, rfl⟩
      · rw [hpull]
        exact ⟨rfl, rfl⟩
  | finish _ => exact ⟨rfl, rfl⟩
  | start _ => cases hwork
  | addTask _ _ => cases hwork
  | spawn _ _ => cases hwork
  | spurious _ _ => cases hwork

theorem pushed_of_works {labels : List (Label κ α)}
    (hrun : Run (Working Step Label.Work) s labels t) :
    t._taskQueue.pushed = s._taskQueue.pushed ∧ t.next = s.next := by
  induction hrun with
  | nil _ => exact ⟨rfl, rfl⟩
  | cons first _ ih =>
      obtain ⟨hpushed, hnext⟩ := pushed_of_work first.1 first.2
      exact ⟨ih.1.trans hpushed, ih.2.trans hnext⟩

theorem Inv.load_le (h : Inv pool s) : s.load ≤ 2 * (s._taskQueue.q.length + s.next) := by
  have hweights : ∑ i ∈ Finset.range s._threads.length, s.weightOf i ≤ 2 * s.next := by
    calc
      ∑ i ∈ Finset.range s._threads.length, s.weightOf i
          = ∑ i ∈ Finset.range s.next, s.weightOf i := by
            symm
            refine Finset.sum_subset (Finset.range_mono h.next_le) fun i _ hi => ?_
            have hcreated := (h.created i).mpr (Nat.le_of_not_lt (by simpa using hi))
            simp only [weightOf, hcreated, weight]
      _ ≤ ∑ _ ∈ Finset.range s.next, 2 :=
            Finset.sum_le_sum fun i _ => by
              unfold weightOf weight
              split
              · omega
              · split <;> omega
              · omega
      _ = 2 * s.next := by simp [Nat.mul_comm]
  unfold load
  omega

end Rest

/-! ### A run of one thread and one client -/

/-- The thread has taken the task. -/
theorem run_of_one : ∃ s : PoolRun Unit Nat,
    Run Step (ofPool (ThreadPool.configured none [1])) [.start, .addTask () 7, .pull 0] s ∧
      s.next = 1 ∧ s._threads.length = 1 ∧ s.routine 0 = .running (0, 7) := by
  have hstart : ∃ s' : PoolRun Unit Nat,
      (ofPool (ThreadPool.configured none [1])).startNext = some s' ∧ s'.next = 1 ∧
        s'._threads.length = 1 ∧ s'.routine 0 = .pulling ∧ s'._taskQueue = MQ.new :=
    ⟨_, rfl, rfl, rfl, rfl, rfl⟩
  obtain ⟨s', hs', hnext, hlength, hpulling, hqueue⟩ := hstart
  refine ⟨(s'.addTask 7).pull 0, .cons (.start hs') (.cons (.addTask 7 ?_) (.cons (.pull ?_ ?_)
    (.nil _))), ?_, ?_, ?_⟩
  · rw [hqueue]
    rfl
  · exact hpulling
  · simp [addTask, MQ.push, hqueue, MQ.new, Status.wakeupAll]
  · exact hnext
  · exact hlength
  · simp [pull, addTask, MQ.push, hqueue, MQ.new]

/-! ### Every run -/

section Reachable

variable {numThreads : Option Int} {requests : List Int} {s : PoolRun κ α}

theorem inv_of_reachable
    (hs : Reachable (· = ofPool (ThreadPool.configured numThreads requests)) Step s) :
    Inv (ThreadPool.configured numThreads requests) s :=
  hs.invariant_from (inv_ofPool _) fun _ _ _ h hstep => h.step hstep

/-- **Each task once, in order.** Of any pool, at any moment of any schedule: tasks start in the
order they were added in; each is in the queue, run by one started thread or finished; and a thread
runs one after the other. -/
theorem tasks_of_reachable
    (hs : Reachable (· = ofPool (ThreadPool.configured numThreads requests)) Step s) :
    s._taskQueue.taken.map Prod.snd ++ s._taskQueue.q = s._taskQueue.pushed ∧
      s._taskQueue.pushed.map Prod.fst = List.range s._taskQueue.pushed.length ∧
      (s._taskQueue.pushed : Multiset (Nat × α)) =
        (s.finished.map Prod.snd : Multiset (Nat × α)) +
          ∑ i ∈ Finset.range s.next, ((s.routine i).current : Multiset (Nat × α)) +
          s._taskQueue.q ∧
      (∀ i, s.takenBy i = s.finishedBy i ++ (s.routine i).current) ∧
      s._taskQueue.underflow = false := by
  have h := inv_of_reachable hs
  refine ⟨?_, h.queue.tickets, ?_, h.order, h.queue.underflow⟩
  · rw [h.queue.account, MQ.kept, h.uncleared]
    simp
  · have hrunning : ∑ i ∈ Finset.range s.next, ((s.routine i).current : Multiset (Nat × α)) =
        s.running := by
      refine Finset.sum_subset (Finset.range_mono h.next_le) fun i _ hi => ?_
      rw [(h.created i).mpr (Nat.le_of_not_lt (by simpa using hi))]
      rfl
    rw [hrunning]
    exact h.account

theorem tasks_of_one : ∃ s : PoolRun Unit Nat,
    s.takenBy 0 = s.finishedBy 0 ++ [(0, 7)] ∧ s._taskQueue.underflow = false := by
  obtain ⟨s, hrun, -, -, hrunning⟩ := run_of_one
  obtain ⟨-, -, -, horder, hunderflow⟩ := tasks_of_reachable ⟨_, _, rfl, hrun⟩
  have hzero := horder 0
  rw [hrunning] at hzero
  exact ⟨s, hzero, hunderflow⟩

/-- **`start` starts what it should.** Its loop never fails an assertion, and when it is through the
pool is the one that `start` returns. -/
theorem start_of_reachable
    (hs : Reachable (· = ofPool (ThreadPool.configured numThreads requests)) Step s) :
    (s.next < s._threads.length → ∃ s', Step s .start s') ∧
      (s.next = s._threads.length →
        (ThreadPool.configured numThreads requests).start =
          some { ThreadPool.configured numThreads requests with _threads := s._threads }) := by
  have h := inv_of_reachable hs
  constructor
  · intro hlt
    have hthread := List.getElem?_eq_getElem hlt
    have hfresh : s._threads[s.next]._started = false := by
      apply ThreadPool.fresh_configured numThreads requests
      apply List.mem_of_mem_drop (i := s.next)
      rw [← h.unstarted]
      exact List.mem_of_mem_head? (by rw [List.head?_drop, hthread, Option.mem_some])
    have hnext : ∃ s', s.startNext = some s' := by
      simp [startNext, hthread, Thread.start, hfresh]
    exact hnext.imp fun s' hs' => .start hs'
  · intro hnext
    have hlength : s.next = (ThreadPool.configured numThreads requests)._threads.length := by
      rw [hnext, h.length]
    have hstarted := h.started
    rw [hlength, List.take_length, ← h.length, List.take_length] at hstarted
    rw [ThreadPool.start, hstarted]
    rfl

/-- The loop is through, and the thread that it started runs a task. -/
theorem start_of_one : ∃ s : PoolRun Unit Nat,
    Run Step (ofPool (ThreadPool.configured none [1])) [.start, .addTask () 7, .pull 0] s ∧
      s.next = s._threads.length ∧ s.routine 0 = .running (0, 7) ∧
      (ThreadPool.configured none [1]).start =
        some { ThreadPool.configured none [1] with _threads := s._threads } := by
  obtain ⟨s, hrun, hnext, hlength, hrunning⟩ := run_of_one
  have hthrough : s.next = s._threads.length := hnext.trans hlength.symm
  exact ⟨s, hrun, hthrough, hrunning, (start_of_reachable ⟨_, _, rfl, hrun⟩).2 hthrough⟩

/-- **Every task is run.** Once a thread of the pool has started, whatever the threads do by
themselves, while no task is added, no other thread is started and no wake-up is spurious, is
bounded, can always go on until they all sleep, and has then run all tasks. -/
theorem all_tasks_run
    (hs : Reachable (· = ofPool (ThreadPool.configured numThreads requests)) Step s)
    (hstarted : 0 < s.next) {labels : List (Label κ α)} {t : PoolRun κ α}
    (hrun : Run (Working Step Label.Work) s labels t) :
    labels.length ≤ 2 * (s._taskQueue.q.length + s.next) ∧
      (AtRest Step Label.Work t →
        (t.finished.map Prod.snd : Multiset (Nat × α)) = s._taskQueue.pushed ∧
          ∀ i < s.next, t._taskQueue.status (.inl i) = .asleep) ∧
      ∃ more u, Run (Working Step Label.Work) t more u ∧ AtRest Step Label.Work u := by
  have h := inv_of_reachable hs
  have ht : Inv _ t := hrun.of_working.invariant (fun _ _ _ h hstep => h.step hstep) h
  have hload : ∀ (s : PoolRun κ α) label t, Inv (ThreadPool.configured numThreads requests) s →
      label.Work → Step s label t → t.load < s.load := by
    intro s label t hs hwork hstep
    have hle := hs.load_step hstep
    rw [hwork] at hle
    cases label with
    | pull i => exact hle
    | finish i => exact hle
    | start => cases hwork
    | addTask c task => cases hwork
    | spawn i task => cases hwork
    | spurious i => cases hwork
  have hkept := pushed_of_works hrun
  refine ⟨?_, fun hrest => ⟨?_, fun i hi => ?_⟩, ?_⟩
  · have hlength := hrun.length_le_measure (fun _ _ _ h hstep => h.step hstep) hload h
    have hle := h.load_le
    omega
  · rw [← hkept.1]
    exact (ht.finished_of_atRest hrest (hkept.2 ▸ hstarted)).symm
  · exact (ht.asleep_of_atRest hrest (hkept.2.symm ▸ hi)).2
  · exact exists_rest (fun _ _ _ h hstep => h.step hstep) hload t ht

theorem all_tasks_run_of_one : ∃ s : PoolRun Unit Nat, s.routine 0 = .running (0, 7) ∧
    ∃ more u, Run (Working Step Label.Work) s more u ∧ AtRest Step Label.Work u := by
  obtain ⟨s, hrun, hnext, -, hrunning⟩ := run_of_one
  have hstarted : 0 < s.next := hnext ▸ Nat.one_pos
  exact ⟨s, hrunning, (all_tasks_run ⟨_, _, rfl, hrun⟩ hstarted (.nil s)).2.2⟩

/-- **No polling.** In any run, the threads of a pool of `n` threads take at most `n + 2` steps for
each task added, and one for each start and each spurious wake-up. -/
theorem steps_of_run {labels : List (Label κ α)}
    (hrun : Run Step (ofPool (ThreadPool.configured numThreads requests)) labels s) :
    (labels.map Label.done).sum ≤
      (labels.map (Label.cost (ThreadPool.configured numThreads requests)._threads.length)).sum := by
  have hpaid : s.load + (labels.map Label.done).sum ≤
      load (ofPool (ThreadPool.configured numThreads requests)) +
        (labels.map
          (Label.cost (ThreadPool.configured numThreads requests)._threads.length)).sum :=
    hrun.amortized (fun _ _ _ h hstep => h.step hstep) (fun _ _ _ h hstep => h.load_step hstep)
      (inv_ofPool _)
  have hnothing : load (ofPool (ThreadPool.configured numThreads requests) : PoolRun κ α) = 0 := by
    simp [load, ofPool, MQ.new, weightOf, weight]
  omega

/-- The one thread takes two of the four steps that it has for its start and its task. -/
theorem steps_of_one :
    let labels : List (Label Unit Nat) := [.start, .addTask () 7, .pull 0, .finish 0]
    (∃ s, Run Step (ofPool (ThreadPool.configured none [1])) labels s) ∧
      (labels.map Label.done).sum = 2 ∧ (labels.map (Label.cost 1)).sum = 4 ∧
      (labels.map Label.done).sum ≤ (labels.map (Label.cost 1)).sum := by
  intro labels
  obtain ⟨s, hrun, -, -, hrunning⟩ := run_of_one
  have hall : Run Step (ofPool (ThreadPool.configured none [1])) labels (s.finish 0 (0, 7)) :=
    hrun.append (.cons (.finish hrunning) (.nil _))
  exact ⟨⟨_, hall⟩, rfl, rfl, steps_of_run hall⟩

end Reachable

end PoolRun

end CppUtils
