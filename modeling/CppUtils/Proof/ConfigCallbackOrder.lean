import CppUtils.ConfigCallback
import CppUtils.Lib.Changes
import Mathlib.Data.List.Nodup

/-!
# Whether the callbacks follow the updates

The stores of a variable are linked, since each reads under the lock what the one before has left.
The callbacks are those of the stores that are no longer due, in whatever order the threads come to
them.
-/

namespace CppUtils.Callback.Shared

open Changes

variable {τ T W : Type} {s s' : Shared τ T W} {label : Label τ T}

/-- The calls of the callback are linked, and once none is due the last one has got the value. -/
structure Followed (s : Shared τ T W) : Prop where
  linked : Linked s.invoked
  last : s.due = [] → ∀ call ∈ s.invoked.getLast?, call.2 = s.var._val

/-- A step that calls no callback before that of an older store. -/
def OrderedStep (s : Shared τ T W) (label : Label τ T) (s' : Shared τ T W) : Prop :=
  Step s label s' ∧ ∀ t, label = .callback t → s.due.head?.map Prod.fst = some t

/-- What holds in every run. -/
structure Inv (s : Shared τ T W) : Prop where
  history : LeadsTo s.stored s.var._val
  threads : (s.due.map Prod.fst).Nodup
  quiet : s.var._cb = none → s.invoked = [] ∧ s.due = []
  account : s.var._cb.isSome → (s.invoked ++ s.due.map Prod.snd).Perm s.stored

/-- What holds in every run of ordered steps. -/
structure Ordered (s : Shared τ T W) : Prop extends Inv s where
  order : s.var._cb.isSome → s.invoked ++ s.due.map Prod.snd = s.stored

theorem ordered_new (var : ConfigVar T W) : (new var : Shared τ T W).Ordered where
  history := leadsTo_nil _
  threads := List.nodup_nil
  quiet _ := ⟨rfl, rfl⟩
  account _ := .refl _
  order _ := rfl

/-- The store of an equal value does nothing; any other is the next change, and its callback is
due. -/
theorem store_cases (s : Shared τ T W) (t : τ) (v : T) :
    s.store t v = s ∨
      s.store t v = { s with
        var := { s.var with _val := v }
        due := if s.var._cb.isSome then s.due ++ [(t, s.var._val, v)] else s.due
        stored := s.stored ++ [(s.var._val, v)] } := by
  rw [store, ConfigVar.store]
  by_cases heq : s.var.eq v s.var._val = true
  · rw [if_pos heq]
    exact .inl rfl
  · rw [if_neg heq]
    exact .inr rfl

theorem store_cb (s : Shared τ T W) (t : τ) (v : T) : (s.store t v).var._cb = s.var._cb := by
  rcases s.store_cases t v with hstore | hstore <;> rw [hstore]

theorem Inv.store (h : s.Inv) {t : τ} (ht : ∀ item ∈ s.due, item.1 ≠ t) (v : T) :
    (s.store t v).Inv := by
  rcases s.store_cases t v with hstore | hstore
  · rwa [hstore]
  · rw [hstore]
    refine ⟨h.history.append v, ?_, fun hcb => ?_, fun hcb => ?_⟩
    · change (List.map Prod.fst (if s.var._cb.isSome then _ else _)).Nodup
      split_ifs
      · rw [List.map_append, List.map_cons, List.map_nil, ← List.concat_eq_append]
        refine List.Nodup.concat ?_ h.threads
        intro hmem
        obtain ⟨item, hitem, heq⟩ := List.mem_map.mp hmem
        exact ht item hitem heq
      · exact h.threads
    · have hnone : s.var._cb = none := hcb
      simp only [hnone, Option.isSome_none, Bool.false_eq_true, if_false]
      exact h.quiet hnone
    · have hsome : s.var._cb.isSome := hcb
      simp only [hsome, if_true, List.map_append, List.map_cons, List.map_nil, ← List.append_assoc]
      exact (h.account hsome).append_right _

theorem Inv.callback (h : s.Inv) {t : τ} {call : T × T} {older newer : List (τ × T × T)}
    (hdue : s.due = older ++ (t, call) :: newer) :
    Inv { s with due := older ++ newer, invoked := s.invoked ++ [call] } := by
  refine ⟨h.history, ?_, fun hcb => ?_, fun hcb => ?_⟩
  · have hthreads := h.threads
    rw [hdue] at hthreads
    refine hthreads.sublist (List.Sublist.map _ ?_)
    exact (List.Sublist.refl older).append (List.sublist_cons_self _ _)
  · have hnil := (h.quiet hcb).2
    rw [hdue] at hnil
    simp at hnil
  · refine List.Perm.trans ?_ (h.account hcb)
    rw [hdue]
    simp only [List.map_append, List.map_cons, List.append_assoc, List.singleton_append]
    exact (List.perm_append_left_iff _).mpr List.perm_middle.symm

theorem Inv.step (h : s.Inv) (hstep : Step s label s') : s'.Inv := by
  cases hstep with
  | store v ht => exact h.store ht v
  | callback hdue => exact h.callback hdue

theorem Ordered.step (h : s.Ordered) (hstep : OrderedStep s label s') : s'.Ordered := by
  obtain ⟨hstep, horder⟩ := hstep
  refine ⟨h.toInv.step hstep, fun hcb => ?_⟩
  cases hstep with
  | @store t v ht =>
      rw [store_cb] at hcb
      rcases s.store_cases t v with hstore | hstore
      · rw [hstore]
        exact h.order hcb
      · rw [hstore]
        simp [hcb, ← h.order hcb]
  | @callback t call older newer hdue =>
      -- the thread at the head is there once, so `older` is empty
      have holder : older = [] := by
        have hhead := horder t rfl
        have hthreads := h.threads
        rw [hdue] at hhead hthreads
        cases older with
        | nil => rfl
        | cons item older =>
            have hitem : item.1 = t := Option.some.inj hhead
            simp [hitem] at hthreads
      rw [← h.order hcb, hdue, holder]
      simp

theorem Ordered.followed (h : s.Ordered) : s.Followed := by
  cases hcb : s.var._cb with
  | none =>
      obtain ⟨hinvoked, -⟩ := h.quiet hcb
      refine ⟨?_, fun _ => ?_⟩
      · rw [hinvoked]
        exact List.IsChain.nil
      · simp [hinvoked]
  | some cb =>
      have horder := h.order (by simp [hcb])
      have hlinked := h.history.linked
      rw [← horder] at hlinked
      refine ⟨hlinked.of_append, fun hdue => ?_⟩
      rw [hdue, List.map_nil, List.append_nil] at horder
      rw [horder]
      exact h.history.last

theorem Inv.followed_iff (h : s.Inv) (hcb : s.var._cb.isSome) (hdue : s.due = [])
    (hnodup : (values s.stored s.var._val).Nodup) : s.Followed ↔ s.invoked = s.stored := by
  have haccount := h.account hcb
  rw [hdue, List.map_nil, List.append_nil] at haccount
  refine ⟨fun hfollowed => h.history.eq_of_perm hnodup haccount hfollowed.linked, fun heq => ?_⟩
  exact ⟨heq ▸ h.history.linked, fun _ => heq ▸ h.history.last⟩

theorem cb_eq_of_step (h : Step s label s') : s'.var._cb = s.var._cb := by
  cases h with
  | store v _ => exact store_cb _ _ v
  | callback _ => rfl

/-- **The callbacks follow the updates** in every state of every run whose callbacks are called in
the order of the stores. In any run in which no value comes back, this is the only order in which
they do. -/
theorem callbacks_follow_updates (var : ConfigVar T W) :
    (∀ s : Shared τ T W, Transition.Reachable (· = new var) OrderedStep s → s.Followed) ∧
    ∀ s : Shared τ T W, Transition.Reachable (· = new var) Step s → var._cb.isSome → s.due = [] →
      (values s.stored s.var._val).Nodup → (s.Followed ↔ s.invoked = s.stored) := by
  refine ⟨fun s hs => ?_, fun s hs hcb hdue hnodup => ?_⟩
  · have hordered : s.Ordered :=
      hs.invariant_from (ordered_new var) fun s label s' h hstep => h.step hstep
    exact hordered.followed
  · have hinit : (new var : Shared τ T W).Inv ∧ (new var : Shared τ T W).var._cb = var._cb :=
      ⟨(ordered_new var).toInv, rfl⟩
    have hinv : s.Inv ∧ s.var._cb = var._cb := hs.invariant_from hinit fun s label s' h hstep =>
      ⟨h.1.step hstep, (cb_eq_of_step hstep).trans h.2⟩
    exact hinv.1.followed_iff (by rwa [hinv.2]) hdue hnodup

/-! ### Two threads -/

def counter : ConfigVar Nat Unit where
  eq := fun x y => x == y
  FromStr := fun _ => none
  _val := 0
  _cb := some fun _ _ val world => ⟨false, val, world, []⟩

/-- Thread 0 has set the counter to 1 and thread 1 to 2, and the callbacks have been these. -/
def counted (invoked : List (Nat × Nat)) : Shared Nat Nat Unit :=
  ⟨{ counter with _val := 2 }, [], [(0, 1), (1, 2)], invoked⟩

theorem reachable_swapped :
    Transition.Reachable (· = new counter) Step (counted [(1, 2), (0, 1)]) :=
  ⟨new counter, [.store 0 1, .store 1 2, .callback 1, .callback 0], rfl,
    .cons (.store 1 nofun) (.cons (.store 2 (by decide))
      (.cons (@Step.callback _ _ _ _ 1 (1, 2) [(0, 0, 1)] [] rfl)
        (.cons (@Step.callback _ _ _ _ 0 (0, 1) [] [] rfl) (.nil _))))⟩

theorem callbacks_follow_updates_two :
    (counted [(0, 1), (1, 2)]).Followed ∧ ¬(counted [(1, 2), (0, 1)]).Followed := by
  have hrun : Transition.Reachable (· = new counter) OrderedStep (counted [(0, 1), (1, 2)]) :=
    ⟨new counter, [.store 0 1, .store 1 2, .callback 0, .callback 1], rfl,
      .cons ⟨.store 1 nofun, nofun⟩ (.cons ⟨.store 2 (by decide), nofun⟩
        (.cons ⟨@Step.callback _ _ _ _ 0 (0, 1) [] [(1, 1, 2)] rfl, by rintro t ⟨⟩; rfl⟩
          (.cons ⟨@Step.callback _ _ _ _ 1 (1, 2) [] [] rfl, by rintro t ⟨⟩; rfl⟩ (.nil _))))⟩
  refine ⟨(callbacks_follow_updates counter).1 _ hrun, fun h => ?_⟩
  have horder := ((callbacks_follow_updates counter).2 _ reachable_swapped rfl rfl (by decide)).mp h
  exact absurd horder (by decide)

/-- The callbacks get 2 and then 1, and the value is 2. -/
theorem not_followed :
    ¬ ∀ s : Shared Nat Nat Unit, Transition.Reachable (· = new counter) Step s → s.Followed := by
  intro hfollowed
  have hlast := (hfollowed _ reachable_swapped).last rfl (0, 1) rfl
  exact absurd hlast (by decide)

end CppUtils.Callback.Shared
