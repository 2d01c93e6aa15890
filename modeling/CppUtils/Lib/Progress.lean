import CppUtils.Lib.Transition
import Mathlib.Algebra.BigOperators.Group.Finset.Basic
import Mathlib.Algebra.GroupWithZero.Nat

/-!
# Progress of a step relation

The labels are split into those the system takes by itself, its work, and those it is given from
outside. Where each step does no more than it lowers a measure by, what comes from outside pays for
all that is done (`Run.amortized`), and work alone always comes to a rest (`exists_rest`).
-/

namespace Transition

variable {σ ι : Type*} {step : σ → ι → σ → Prop} {work : ι → Prop}

section Measure

variable {Inv : σ → Prop} {measure : σ → Nat}

/-- **What a run does, its measure and what it is given pay for.** -/
theorem Run.amortized {done given : ι → Nat}
    (hinv : ∀ s label t, Inv s → step s label t → Inv t)
    (hstep : ∀ s label t, Inv s → step s label t → measure t + done label ≤ measure s + given label)
    {s t : σ} {labels : List ι} (hrun : Run step s labels t) (hs : Inv s) :
    measure t + (labels.map done).sum ≤ measure s + (labels.map given).sum := by
  induction hrun with
  | nil s => exact Nat.le_refl _
  | @cons s m t label labels first rest ih =>
      have hfirst := hstep s label m hs first
      have hrest := ih (hinv s label m hs first)
      simp only [List.map_cons, List.sum_cons]
      omega

/-- No work is left to do. -/
def AtRest (step : σ → ι → σ → Prop) (work : ι → Prop) (s : σ) : Prop :=
  ∀ label t, work label → ¬ step s label t

/-- The steps that are work. -/
def Working (step : σ → ι → σ → Prop) (work : ι → Prop) (s : σ) (label : ι) (t : σ) : Prop :=
  work label ∧ step s label t

theorem Run.of_working {s t : σ} {labels : List ι} (h : Run (Working step work) s labels t) :
    Run step s labels t :=
  h.imp fun _ _ _ hstep => hstep.2

theorem Run.working {s t : σ} {labels : List ι} (h : Run step s labels t)
    (hwork : ∀ label ∈ labels, work label) : Run (Working step work) s labels t := by
  induction h with
  | nil s => exact .nil s
  | cons first _ ih =>
      exact .cons ⟨hwork _ List.mem_cons_self, first⟩
        (ih fun label hmem => hwork label (List.mem_cons_of_mem _ hmem))

theorem Run.length_le_measure (hinv : ∀ s label t, Inv s → step s label t → Inv t)
    (hwork : ∀ s label t, Inv s → work label → step s label t → measure t < measure s)
    {s t : σ} {labels : List ι} (h : Run (Working step work) s labels t) (hs : Inv s) :
    measure t + labels.length ≤ measure s := by
  have hpaid : measure t + (labels.map fun _ => 1).sum ≤ measure s + (labels.map fun _ => 0).sum :=
    h.amortized (fun s label t hs hstep => hinv s label t hs hstep.2)
      (fun s label t hs hstep => hwork s label t hs hstep.1 hstep.2) hs
  simpa using hpaid

/-- **Work comes to a rest**, whatever is done first. -/
theorem exists_rest (hinv : ∀ s label t, Inv s → step s label t → Inv t)
    (hwork : ∀ s label t, Inv s → work label → step s label t → measure t < measure s)
    (s : σ) (hs : Inv s) :
    ∃ labels t, Run (Working step work) s labels t ∧ AtRest step work t := by
  induction hn : measure s using Nat.strong_induction_on generalizing s with
  | _ n ih =>
      by_cases hrest : AtRest step work s
      · exact ⟨[], s, .nil s, hrest⟩
      · simp only [AtRest, not_forall, not_not] at hrest
        obtain ⟨label, m, hlabel, hstep⟩ := hrest
        have hless := hwork s label m hs hlabel hstep
        obtain ⟨labels, t, hworks, ht⟩ := ih (measure m) (hn ▸ hless) m (hinv s label m hs hstep) rfl
        exact ⟨label :: labels, t, .cons ⟨hlabel, hstep⟩ hworks, ht⟩

end Measure

/-- A sum over parties of which one moved. -/
theorem sum_add_of_moved {κ M : Type*} [AddCommMonoid M] {parties : Finset κ} {i : κ}
    (hi : i ∈ parties) {f g : κ → M} (hothers : ∀ j, j ≠ i → f j = g j) :
    ∑ j ∈ parties, f j + g i = ∑ j ∈ parties, g j + f i := by
  classical
  have hrest : ∑ j ∈ parties.erase i, f j = ∑ j ∈ parties.erase i, g j :=
    Finset.sum_congr rfl fun j hj => hothers j (Finset.ne_of_mem_erase hj)
  calc
    ∑ j ∈ parties, f j + g i
        = f i + ∑ j ∈ parties.erase i, f j + g i := by rw [Finset.add_sum_erase parties f hi]
    _ = f i + ∑ j ∈ parties.erase i, g j + g i := by rw [hrest]
    _ = g i + ∑ j ∈ parties.erase i, g j + f i := by
        rw [add_right_comm, add_comm (f i), ← add_right_comm]
    _ = ∑ j ∈ parties, g j + f i := by rw [Finset.add_sum_erase parties g hi]

/-- A sum over a list of which one element moved. -/
theorem sum_map_set_add {κ : Type*} (f : κ → Nat) {parties : List κ} {i : Nat} {p : κ}
    (hp : parties[i]? = some p) (p' : κ) :
    ((parties.set i p').map f).sum + f p = (parties.map f).sum + f p' := by
  induction parties generalizing i with
  | nil => cases hp
  | cons q parties ih =>
      cases i with
      | zero =>
          obtain rfl := Option.some.inj hp
          simp only [List.set_cons_zero, List.map_cons, List.sum_cons]
          omega
      | succ i =>
          have hrest := ih hp
          simp only [List.set_cons_succ, List.map_cons, List.sum_cons]
          omega

end Transition
