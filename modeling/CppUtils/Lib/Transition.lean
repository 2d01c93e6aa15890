import Mathlib.Data.List.Basic
import Mathlib.Data.List.Induction

/-!
# Runs of a step relation

Two ways a program runs appear below. A concurrent program is a labelled step relation, and a run
is a list of labels: what every step keeps, every reachable state has. A sequential object is a
partial step function folded over its calls, `none` being a call that does not come back: there the
invariant may speak of the calls made so far, and the run lemma also gives that the fold succeeds.
-/

namespace Transition

variable {σ ι : Type*}

/-- The labels, taken in order, lead from the first state to the last. -/
inductive Run (step : σ → ι → σ → Prop) : σ → List ι → σ → Prop
  | nil (s : σ) : Run step s [] s
  | cons {s m t : σ} {label : ι} {labels : List ι} (first : step s label m)
      (rest : Run step m labels t) : Run step s (label :: labels) t

theorem Run.append {step : σ → ι → σ → Prop} {s m t : σ} {labels labels' : List ι}
    (h : Run step s labels m) (h' : Run step m labels' t) : Run step s (labels ++ labels') t := by
  induction h with
  | nil => exact h'
  | cons first _ ih => exact .cons first (ih h')

theorem Run.imp {step step' : σ → ι → σ → Prop}
    (himp : ∀ s label t, step s label t → step' s label t) {s t : σ} {labels : List ι}
    (h : Run step s labels t) : Run step' s labels t := by
  induction h with
  | nil s => exact .nil s
  | cons first _ ih => exact .cons (himp _ _ _ first) ih

/-- Some run from an initial state ends here. -/
def Reachable (init : σ → Prop) (step : σ → ι → σ → Prop) (t : σ) : Prop :=
  ∃ s labels, init s ∧ Run step s labels t

section Relation

variable {step : σ → ι → σ → Prop} {init Inv : σ → Prop}

/-- What every step with an allowed label keeps, a run with allowed labels keeps. -/
theorem Run.invariant_of_labels {P : ι → Prop}
    (hstep : ∀ s label t, P label → Inv s → step s label t → Inv t)
    {s t : σ} {labels : List ι} (hrun : Run step s labels t)
    (hlabels : ∀ label ∈ labels, P label) (hs : Inv s) : Inv t := by
  induction hrun with
  | nil s => exact hs
  | cons first rest ih =>
      refine ih (fun label hmem => hlabels label (List.mem_cons_of_mem _ hmem)) ?_
      exact hstep _ _ _ (hlabels _ List.mem_cons_self) hs first

theorem Run.invariant (hstep : ∀ s label t, Inv s → step s label t → Inv t)
    {s t : σ} {labels : List ι} (hrun : Run step s labels t) (hs : Inv s) : Inv t :=
  hrun.invariant_of_labels (P := fun _ => True)
    (fun s label t _ => hstep s label t) (fun _ _ => trivial) hs

/-- **The invariant rule.** What holds initially and is kept by every step holds in every reachable
state. -/
theorem Reachable.invariant (hinit : ∀ s, init s → Inv s)
    (hstep : ∀ s label t, Inv s → step s label t → Inv t)
    {t : σ} (ht : Reachable init step t) : Inv t := by
  obtain ⟨s, labels, hs, hrun⟩ := ht
  exact hrun.invariant hstep (hinit s hs)

/-- The invariant rule for one initial state. -/
@[elab_as_elim]
theorem Reachable.invariant_from {s t : σ} (hs : Inv s)
    (hstep : ∀ s label t, Inv s → step s label t → Inv t)
    (ht : Reachable (· = s) step t) : Inv t := by
  refine ht.invariant ?_ hstep
  rintro _ rfl
  exact hs

theorem foldlM_cons_eq_some_iff {f : σ → ι → Option σ} {s t : σ} {label : ι} {labels : List ι} :
    (label :: labels).foldlM f s = some t ↔
      ∃ m, f s label = some m ∧ labels.foldlM f m = some t := by
  rw [List.foldlM_cons, Option.bind_eq_bind, Option.bind_eq_some_iff]

theorem foldlM_append_singleton_eq_some_iff {f : σ → ι → Option σ} {s t : σ} {label : ι}
    {labels : List ι} : (labels ++ [label]).foldlM f s = some t ↔
      ∃ m, labels.foldlM f s = some m ∧ f m label = some t := by
  rw [List.foldlM_append, Option.bind_eq_bind, Option.bind_eq_some_iff]
  simp only [foldlM_cons_eq_some_iff, List.foldlM_nil, Option.pure_def, Option.some.injEq,
    exists_eq_right]

theorem Run.of_foldlM {f : σ → ι → Option σ} {s t : σ} {labels : List ι}
    (h : labels.foldlM f s = some t) : Run (fun s label t => f s label = some t) s labels t := by
  induction labels generalizing s with
  | nil =>
      cases h
      exact .nil _
  | cons label labels ih =>
      obtain ⟨m, hfirst, hrest⟩ := foldlM_cons_eq_some_iff.mp h
      exact .cons hfirst (ih hrest)

/-- Where a step has one label and one outcome, of two runs from a state the longer one goes on from
where the shorter one ends. -/
theorem Run.exists_append (hstep : ∀ s label label' t t', step s label t → step s label' t' →
      label = label' ∧ t = t')
    {s t t' : σ} {labels labels' : List ι} (h : Run step s labels t) (h' : Run step s labels' t')
    (hle : labels.length ≤ labels'.length) :
    ∃ rest, labels' = labels ++ rest ∧ Run step t rest t' := by
  induction h generalizing labels' with
  | nil s => exact ⟨labels', rfl, h'⟩
  | cons first rest ih =>
      cases h' with
      | nil => exact absurd hle (Nat.not_succ_le_zero _)
      | cons first' rest' =>
          obtain ⟨rfl, rfl⟩ := hstep _ _ _ _ _ first first'
          obtain ⟨more, rfl, hmore⟩ := ih rest' (Nat.le_of_succ_le_succ hle)
          exact ⟨more, rfl, hmore⟩

end Relation

section Fold

variable {f : σ → ι → Option σ}

/-- The invariant rule for a partial step function. The invariant may mention the calls already
made, and a step may use where in the whole run it stands. -/
theorem foldlM_invariant {Inv : List ι → σ → Prop} {calls : List ι} {s : σ} (hinit : Inv [] s)
    (hstep : ∀ before call after m, calls = before ++ call :: after → Inv before m →
      ∃ m', f m call = some m' ∧ Inv (before ++ [call]) m') :
    ∃ t, calls.foldlM f s = some t ∧ Inv calls t := by
  suffices h : ∀ rest before m, calls = before ++ rest → Inv before m →
      ∃ t, rest.foldlM f m = some t ∧ Inv calls t from h calls [] s rfl hinit
  intro rest
  induction rest with
  | nil =>
      intro before m hcalls hm
      rw [List.append_nil] at hcalls
      exact ⟨m, rfl, hcalls ▸ hm⟩
  | cons call rest ih =>
      intro before m hcalls hm
      obtain ⟨m', hcall, hm'⟩ := hstep before call rest m hcalls hm
      obtain ⟨t, hrest, ht⟩ := ih (before ++ [call]) m' (by simp [hcalls]) hm'
      exact ⟨t, by simp [List.foldlM_cons, hcall, hrest], ht⟩

/-- The rule for a fold that is known to succeed. -/
theorem foldlM_history {Inv : List ι → σ → Prop} {calls : List ι} {s t : σ} (hinit : Inv [] s)
    (hstep : ∀ before call m m', Inv before m → f m call = some m' → Inv (before ++ [call]) m')
    (hrun : calls.foldlM f s = some t) : Inv calls t := by
  induction calls using List.reverseRecOn generalizing t with
  | nil =>
      cases hrun
      exact hinit
  | append_singleton before call ih =>
      obtain ⟨m, hbefore, hcall⟩ := foldlM_append_singleton_eq_some_iff.mp hrun
      exact hstep before call m t (ih hbefore) hcall

end Fold

end Transition
