import Mathlib.Data.List.Chain
import Mathlib.Data.List.Nodup

/-!
# Changes of a variable

A change has an old value and a new one. The changes of one variable, in the order in which they
were made, are linked, each one starting from the value that the one before has left. Where no value
comes back, this is the only order in which they are linked.
-/

namespace Changes

variable {α : Type*}

def Linked (l : List (α × α)) : Prop := l.IsChain fun change next => change.2 = next.1

/-- The changes, made in order, leave the value `v`. -/
structure LeadsTo (l : List (α × α)) (v : α) : Prop where
  linked : Linked l
  last : ∀ change ∈ l.getLast?, change.2 = v

/-- The values on the way to `v`, with it. -/
def values (l : List (α × α)) (v : α) : List α := l.map Prod.fst ++ [v]

@[simp] theorem values_cons (change : α × α) (l : List (α × α)) (v : α) :
    values (change :: l) v = change.1 :: values l v := rfl

theorem leadsTo_nil (v : α) : LeadsTo [] v := ⟨List.IsChain.nil, by simp⟩

theorem leadsTo_cons_iff {a b v : α} {l : List (α × α)} :
    LeadsTo ((a, b) :: l) v ↔ LeadsTo l v ∧ (values l v).head? = some b := by
  cases l with
  | nil =>
      refine ⟨fun h => ⟨leadsTo_nil v, ?_⟩, fun h => ⟨List.isChain_singleton _, ?_⟩⟩
      · exact congrArg some (h.last (a, b) rfl).symm
      · intro change hchange
        obtain rfl := Option.some.inj hchange
        exact (Option.some.inj h.2).symm
  | cons next l =>
      refine ⟨fun h => ⟨⟨h.linked.tail, fun change hchange => ?_⟩, ?_⟩, fun h => ⟨?_, ?_⟩⟩
      · exact h.last change (by rwa [List.getLast?_cons_cons])
      · exact congrArg some (List.isChain_cons_cons.mp h.linked).1.symm
      · exact List.isChain_cons_cons.mpr ⟨(Option.some.inj h.2).symm, h.1.linked⟩
      · intro change hchange
        rw [List.getLast?_cons_cons] at hchange
        exact h.1.last change hchange

theorem LeadsTo.append {l : List (α × α)} {v : α} (h : LeadsTo l v) (w : α) :
    LeadsTo (l ++ [(v, w)]) w := by
  refine ⟨List.isChain_append.mpr ⟨h.linked, List.isChain_singleton _, ?_⟩, by simp⟩
  intro change hchange next hnext
  obtain rfl := Option.some.inj hnext
  exact h.last change hchange

theorem Linked.of_append {l m : List (α × α)} (h : Linked (l ++ m)) : Linked l :=
  h.left_of_append

/-- What a change leaves is one of the values after the first. -/
theorem LeadsTo.snd_mem {l : List (α × α)} {v : α} (h : LeadsTo l v) :
    ∀ change ∈ l, change.2 ∈ (values l v).tail := by
  induction l with
  | nil => exact nofun
  | cons change l ih =>
      obtain ⟨hrest, hhead⟩ := leadsTo_cons_iff.mp h
      rw [values_cons, List.tail_cons]
      intro change' hmem
      rcases List.mem_cons.mp hmem with rfl | hmem
      · exact List.mem_of_mem_head? hhead
      · exact List.mem_of_mem_tail (ih hrest change' hmem)

/-- Where no value comes back, the changes are linked in one order only. -/
theorem LeadsTo.eq_of_perm {l m : List (α × α)} {v : α} (h : LeadsTo l v)
    (hnodup : (values l v).Nodup) (hperm : m.Perm l) (hm : Linked m) : m = l := by
  induction l generalizing m with
  | nil => exact hperm.eq_nil
  | cons change l ih =>
      obtain ⟨hrest, -⟩ := leadsTo_cons_iff.mp h
      obtain ⟨before, after, rfl⟩ := List.append_of_mem (hperm.symm.subset List.mem_cons_self)
      rw [values_cons, List.nodup_cons] at hnodup
      -- nothing leads back to the first value, so nothing comes before its change
      have hbefore : before = [] := by
        by_contra hne
        have hlast := List.getLast?_eq_some_getLast hne
        have hback : (before.getLast hne).2 = change.1 :=
          (List.isChain_append.mp hm).2.2 _ hlast change rfl
        have hmem : before.getLast hne ∈ change :: l :=
          hperm.subset (List.mem_append_left _ (List.getLast_mem hne))
        have hvalue := h.snd_mem _ hmem
        rw [hback] at hvalue
        exact hnodup.1 hvalue
      subst hbefore
      have hafter := ih hrest hnodup.2 ((List.perm_cons change).mp hperm) hm.tail
      rw [List.nil_append, hafter]

end Changes
