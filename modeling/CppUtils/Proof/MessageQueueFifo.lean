import CppUtils.MessageQueue
import Mathlib.Data.List.Nodup

/-!
# The message queue delivers each value once, in order

The pulls and `q` together hold what was pushed and not cleared, in the order of the pushes
(`Inv.account`). A thread falls asleep on an empty queue only, and a push wakes all that sleep, so
nobody sleeps unsignalled beside a value (`Inv.sleepers`).
-/

namespace CppUtils.MQ

variable {τ α : Type}

/-- What was pushed and not cleared. -/
def kept (s : MQ τ α) : List (Nat × α) := s.pushed.filter fun item => !s.cleared.contains item.1

structure Inv (s : MQ τ α) : Prop where
  account : s.taken.map Prod.snd ++ s.q = s.kept
  tickets : s.pushed.map Prod.fst = List.range s.pushed.length
  cleared_lt : ∀ n ∈ s.cleared, n < s.pushed.length
  sleepers : ∀ t, s.status t = .asleep → s.q = []
  underflow : s.underflow = false

theorem inv_new : (new : MQ τ α).Inv where
  account := rfl
  tickets := rfl
  cleared_lt := by simp [new]
  sleepers := by simp [new]
  underflow := rfl

theorem wakeupAll_ne_asleep (status : τ → Status) (t : τ) :
    Status.wakeupAll status t ≠ .asleep := by
  unfold Status.wakeupAll
  split
  · decide
  · assumption

theorem Inv.nodup_kept {s : MQ τ α} (h : s.Inv) : (s.kept.map Prod.fst).Nodup := by
  have hsublist : (s.kept.map Prod.fst).Sublist (s.pushed.map Prod.fst) :=
    List.filter_sublist.map _
  rw [h.tickets] at hsublist
  exact List.nodup_range.sublist hsublist

theorem Inv.push {s : MQ τ α} (h : s.Inv) (data : α) : (s.push data).Inv where
  account := by
    have hnew : s.pushed.length ∉ s.cleared := fun hmem => Nat.lt_irrefl _ (h.cleared_lt _ hmem)
    have hkept : (s.push data).kept = s.kept ++ [(s.pushed.length, data)] := by
      simp [kept, MQ.push, hnew]
    rw [hkept, ← h.account, List.append_assoc]
    rfl
  tickets := by
    simp only [MQ.push, List.map_append, h.tickets, List.length_append, List.length_singleton]
    rw [List.range_succ]
    rfl
  cleared_lt := by
    intro n hn
    have hlt := h.cleared_lt n hn
    simp only [MQ.push, List.length_append, List.length_singleton]
    omega
  sleepers := fun t ht => absurd ht (wakeupAll_ne_asleep _ t)
  underflow := h.underflow

theorem Inv.clear {s : MQ τ α} (h : s.Inv) : s.clear.Inv where
  account := by
    have hsplit : s.clear.kept = s.kept.filter fun item => !(s.q.map Prod.fst).contains item.1 := by
      simp only [kept, MQ.clear, List.filter_filter, List.contains_append, Bool.not_or,
        Bool.and_comm]
    have hnodup := h.nodup_kept
    rw [← h.account, List.map_append, List.nodup_append] at hnodup
    have hfirst : ∀ item ∈ s.taken.map Prod.snd, item.1 ∉ s.q.map Prod.fst := by
      intro item hitem hmem
      exact hnodup.2.2 _ (List.mem_map_of_mem hitem) _ hmem rfl
    have hlast : ∀ item ∈ s.q, ¬ item.1 ∉ s.q.map Prod.fst :=
      fun item hitem hnot => hnot (List.mem_map_of_mem hitem)
    rw [hsplit, ← h.account, List.filter_append,
      List.filter_eq_self.mpr (by simpa using hfirst),
      List.filter_eq_nil_iff.mpr (by simpa using hlast)]
    rfl
  tickets := h.tickets
  cleared_lt := by
    intro n hn
    rcases List.mem_append.mp hn with hn | hn
    · exact h.cleared_lt n hn
    · obtain ⟨item, hitem, rfl⟩ := List.mem_map.mp hn
      have hkept : item ∈ s.kept := by
        rw [← h.account]
        exact List.mem_append_right _ hitem
      have hticket := List.mem_map_of_mem (f := Prod.fst) (List.mem_of_mem_filter hkept)
      rw [h.tickets] at hticket
      exact List.mem_range.mp hticket
  sleepers := fun _ _ => rfl
  underflow := h.underflow

section Pull

variable [DecidableEq τ] {s : MQ τ α} {t : τ}

/-- What the section of a pull does: it sleeps on an empty queue, and takes the front of any
other. -/
theorem pull_cases (s : MQ τ α) (t : τ) :
    (s.q = [] ∧ s.pull t = { s with status := Function.update s.status t .asleep }) ∨
      ∃ item rest, s.q = item :: rest ∧
        s.pull t = { s with
          q := rest
          taken := s.taken ++ [(t, item)]
          status := Function.update s.status t .outside } := by
  unfold pull pop
  cases hq : s.q with
  | nil => exact Or.inl ⟨rfl, by simp⟩
  | cons item rest => exact Or.inr ⟨item, rest, rfl, by simp⟩

theorem Inv.pull (h : s.Inv) : (s.pull t).Inv := by
  rcases pull_cases s t with ⟨hq, hpull⟩ | ⟨item, rest, hq, hpull⟩
  · rw [hpull]
    exact ⟨h.account, h.tickets, h.cleared_lt, fun _ _ => hq, h.underflow⟩
  · have haccount := h.account
    rw [hq] at haccount
    rw [hpull]
    refine ⟨?_, h.tickets, h.cleared_lt, fun u hu => ?_, h.underflow⟩
    · simp only [List.map_append, List.map_cons, List.map_nil, List.append_assoc,
        List.singleton_append]
      exact haccount
    · -- the queue was not empty, so nobody was asleep
      by_cases hut : u = t
      · rw [hut] at hu
        simp at hu
      · simp only [Function.update_of_ne hut] at hu
        have hnil := h.sleepers u hu
        rw [hq] at hnil
        cases hnil

theorem Inv.step {s' : MQ τ α} {label : Label τ α} (h : s.Inv) (hstep : Step s label s') :
    s'.Inv := by
  cases hstep with
  | push data _ => exact h.push data
  | pull _ => exact h.pull
  | resume _ => exact h.pull
  | clear _ => exact h.clear
  | @spurious t _ =>
      refine ⟨h.account, h.tickets, h.cleared_lt, fun u hu => ?_, h.underflow⟩
      by_cases hut : u = t
      · rw [hut] at hu
        simp at hu
      · simp only [Function.update_of_ne hut] at hu
        exact h.sleepers u hu

end Pull

/-- **Each value once, in order, and nobody sleeps beside a value.** What the pulls took, followed
by what is in `q`, is what was pushed and not cleared. -/
theorem delivery_of_reachable [DecidableEq τ] {s : MQ τ α}
    (hs : Transition.Reachable (· = new) Step s) :
    s.taken.map Prod.snd ++ s.q = s.pushed.filter (fun item => !s.cleared.contains item.1) ∧
      s.pushed.map Prod.fst = List.range s.pushed.length ∧
      ((s.taken.map Prod.snd ++ s.q).map Prod.fst).Nodup ∧
      s.underflow = false ∧
      ∀ t, s.status t = .asleep → s.q = [] := by
  have hinv : s.Inv := hs.invariant_from inv_new fun s label s' h hstep => h.step hstep
  refine ⟨hinv.account, hinv.tickets, ?_, hinv.underflow, hinv.sleepers⟩
  rw [hinv.account]
  exact hinv.nodup_kept

/-- A pull that found nothing, slept through a push, and took the value. -/
theorem delivery_after_sleep :
    ∃ s : MQ Nat Nat, s.taken = [(1, 0, 7)] ∧
      s.taken.map Prod.snd ++ s.q = s.pushed.filter (fun item => !s.cleared.contains item.1) := by
  have hrun : Transition.Reachable (· = new) Step
      ((((new : MQ Nat Nat).pull 1).push 7).pull 1) :=
    ⟨new, [.pull 1, .push 0 7, .resume 1], rfl,
      .cons (.pull rfl) (.cons (.push 7 rfl) (.cons (.resume rfl) (.nil _)))⟩
  exact ⟨_, rfl, (delivery_of_reachable hrun).1⟩

end CppUtils.MQ

