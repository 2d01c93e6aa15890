import CppUtils.ThreadStart

/-!
# One thread and its owner

The semaphore is posted once and taken at most once, so a `start` that a signal did not interrupt
returns after its thread has begun, and a `join` returns after the routine, which is the one of the
object when `start` was called, has run once (`Party.Inv`).
-/

namespace CppUtils.ThreadStart

variable {ρ : Type*}

/-- How many statements of `startThread` are left. -/
def Place.left : Place → Nat
  | .wakeup => 5
  | .beforeRoutine => 4
  | .startRoutine => 3
  | .running => 2
  | .afterRoutine => 1
  | .exited => 0

namespace Party

variable {p p' : Party ρ} {action : Action ρ}

/-- How often the semaphore was posted. -/
def posts (p : Party ρ) : Nat :=
  match p.child with
  | none => 0
  | some c => if c.place = .wakeup then 0 else 1

structure Inv (p : Party ρ) : Prop where
  unbegun : p.begun = none → p.child = none
  started : ∀ t, p.thread = some t → (t._started = true ↔ p.begun.isSome = true)
  routine : ∀ c, p.child = some c → p.begun = some c._start_routine
  childless : p.child = none → p.runs = [] ∧ p.owner ≠ .joining
  runs : ∀ c, p.child = some c → p.runs = if c.place.left ≤ 2 then c._start_routine.toList else []
  called : ∀ c, p.child = some c → c.place.left ≤ 2 → c._start_routine.isSome = true
  sem : ∀ t, p.thread = some t → t._sem._sem + p.woken.toNat = p.posts
  tid : ∀ t c, p.thread = some t → p.child = some c → c.place.left ≤ 3 → t._tid = c.tid
  waiting : p.owner = .waiting → p.woken = false ∧ p.begun.isSome = true ∧ p.thread.isSome = true
  unwoken : p.begun = none → p.woken = false
  woken : p.woken = true → p.posts = 1
  joined : p.joined = true → ∃ c, p.child = some c ∧ c.place = .exited

theorem call_eq_some_iff {body : Thread ρ → Except Fault (Party ρ)}
    {result : Except Fault (Party ρ)} :
    p.call body = some result ↔
      p.owner = .ready ∧ ∃ t, p.thread = some t ∧ body t = result := by
  unfold call
  rw [Option.ite_none_right_eq_some, Option.map_eq_some_iff]

theorem inv_new (tn : Int) (start_routine : Option ρ) (s : List Byte) :
    (Party.new (Thread.new tn start_routine s)).Inv where
  unbegun _ := rfl
  started := by
    rintro _ ⟨⟩
    simp [Thread.new, Party.new]
  routine := nofun
  childless _ := ⟨rfl, nofun⟩
  runs := nofun
  called := nofun
  sem := by
    rintro _ ⟨⟩
    rfl
  tid := nofun
  waiting := nofun
  unwoken _ := rfl
  woken := nofun
  joined := nofun

/-- The thread goes on without touching the object. -/
theorem Inv.advance (h : p.Inv) {c : Child ρ} (hc : p.child = some c) (place : Place)
    {runs : List ρ} (hleft : place.left < c.place.left) (hdetached : c.place.left ≤ 3)
    (hcalled : c._start_routine.isSome = true) (hruns : runs = c._start_routine.toList) :
    Inv { p with child := some { c with place := place }, runs := runs } := by
  have hposts (q : Place) (hq : q.left ≤ 3) : q ≠ .wakeup := by
    rintro rfl
    exact absurd hq (by decide)
  have hposted :
      posts { p with child := some { c with place := place }, runs := runs } = p.posts := by
    simp only [posts, hc]
    rw [if_neg (hposts _ hdetached), if_neg (hposts place (by omega))]
  refine { h with
    unbegun := fun hnone => ?_
    routine := ?_
    childless := nofun
    runs := ?_
    called := ?_
    sem := hposted ▸ h.sem
    tid := ?_
    woken := hposted ▸ h.woken
    joined := fun hjoined => ?_ }
  · rw [h.unbegun hnone] at hc
    cases hc
  · rintro _ ⟨⟩
    exact h.routine c hc
  · rintro _ ⟨⟩
    rw [if_pos (show place.left ≤ 2 by omega), hruns]
  · rintro _ ⟨⟩ -
    exact hcalled
  · rintro t _ ht ⟨⟩ -
    exact h.tid t c ht hc hdetached
  · obtain ⟨c', hc', hexited⟩ := h.joined hjoined
    cases hc.symm.trans hc'
    rw [hexited] at hleft
    exact absurd hleft (Nat.not_lt_zero _)

theorem posts_of_child {c : Child ρ} (hc : p.child = some c) :
    p.posts = if c.place = .wakeup then 0 else 1 := by rw [posts.eq_1, hc]

/-- The thread does something to the object. -/
theorem Inv.touch (h : p.Inv) {c : Child ρ} (hc : p.child = some c) {t : Thread ρ}
    (ht : p.thread = some t) (place : Place) (t' : Thread ρ) (hearly : 3 < c.place.left)
    (hmoved : place = .beforeRoutine ∨ place = .startRoutine ∧ t'._tid = c.tid)
    (hstarted : t'._started = t._started) (hsem : t'._sem._sem + p.woken.toNat = 1) :
    Inv { p with thread := some t', child := some { c with place := place } } := by
  have hleft : 3 ≤ place.left := by
    rcases hmoved with rfl | ⟨rfl, -⟩ <;> decide
  have hposts :
      posts { p with thread := some t', child := some { c with place := place } } = 1 := by
    rcases hmoved with rfl | ⟨rfl, -⟩ <;> rfl
  refine { h with
    unbegun := fun hnone => ?_
    started := ?_
    routine := ?_
    childless := nofun
    runs := ?_
    called := ?_
    sem := ?_
    tid := ?_
    waiting := fun hwaiting => ⟨(h.waiting hwaiting).1, (h.waiting hwaiting).2.1, rfl⟩
    woken := fun _ => hposts
    joined := fun hjoined => ?_ }
  · rw [h.unbegun hnone] at hc
    cases hc
  · rintro _ ⟨⟩
    rw [hstarted]
    exact h.started t ht
  · rintro _ ⟨⟩
    exact h.routine c hc
  · rintro _ ⟨⟩
    rw [h.runs c hc, if_neg (by omega), if_neg (show ¬ place.left ≤ 2 by omega)]
  · rintro _ ⟨⟩ hle
    exact absurd (show place.left ≤ 2 from hle) (by omega)
  · rintro _ ⟨⟩
    exact hsem.trans hposts.symm
  · rintro _ _ ⟨⟩ ⟨⟩ hle
    rcases hmoved with rfl | ⟨-, htid⟩
    · exact absurd hle (by simp [Place.left])
    · exact htid
  · obtain ⟨c', hc', hexited⟩ := h.joined hjoined
    cases hc.symm.trans hc'
    rw [hexited] at hearly
    exact absurd hearly (by decide)

theorem Inv.startThread (h : p.Inv) (hstep : p.startThread = some (.ok p')) : p'.Inv := by
  obtain ⟨⟨place, start_routine, tid⟩, hc, hstep⟩ := Option.bind_eq_some_iff.mp hstep
  have hruns := h.runs _ hc
  have hposts := posts_of_child hc
  cases place with
  | wakeup =>
      cases ht : p.thread with
      | none => simp [ht] at hstep
      | some t =>
          simp only [ht, Option.some.injEq, Except.ok.injEq] at hstep
          subst hstep
          have hsem := h.sem t ht
          rw [hposts, if_pos rfl, Nat.add_eq_zero_iff] at hsem
          refine h.touch hc ht .beforeRoutine _ (by simp [Place.left]) (Or.inl rfl) rfl ?_
          rw [hsem.2, Semaphore.wakeup, hsem.1]
          rfl
  | beforeRoutine =>
      cases ht : p.thread with
      | none => simp [ht] at hstep
      | some t =>
          simp only [ht, Option.some.injEq, Except.ok.injEq] at hstep
          subst hstep
          exact h.touch hc ht .startRoutine _ (by simp [Place.left]) (Or.inr ⟨rfl, rfl⟩) rfl
            ((h.sem t ht).trans hposts)
  | startRoutine =>
      cases start_routine with
      | none => cases hstep
      | some routine =>
          cases hstep
          have hnone : p.runs = [] := hruns
          exact h.advance hc .running (by simp [Place.left]) (by simp [Place.left]) rfl
            (by rw [hnone]; rfl)
  | running =>
      cases hstep
      exact h.advance hc .afterRoutine (by simp [Place.left]) (by simp [Place.left])
        (h.called _ hc (by simp [Place.left])) hruns
  | afterRoutine =>
      cases hstep
      exact h.advance hc .exited (by simp [Place.left]) (by simp [Place.left])
        (h.called _ hc (by simp [Place.left])) hruns
  | exited => cases hstep

/-- The owner does something to the object that the thread does not see. -/
theorem Inv.keep (h : p.Inv) {t : Thread ρ} (ht : p.thread = some t) (t' : Thread ρ) (owner : Owner)
    (hstarted : t'._started = t._started) (hsem : t'._sem = t._sem) (htid : t'._tid = t._tid)
    (hwaiting : owner ≠ .waiting) (hjoining : owner = .joining → p.child ≠ none) :
    Inv { p with thread := some t', owner := owner } :=
  { h with
    started := by
      rintro _ ⟨⟩
      rw [hstarted]
      exact h.started t ht
    childless := fun hnone => ⟨(h.childless hnone).1, fun heq => hjoining heq hnone⟩
    sem := by
      rintro _ ⟨⟩
      rw [hsem]
      exact h.sem t ht
    tid := by
      rintro _ c ⟨⟩ hc hle
      rw [htid]
      exact h.tid t c ht hc hle
    waiting := fun heq => absurd heq hwaiting }

theorem posts_le (p : Party ρ) : p.posts ≤ 1 := by
  unfold posts
  split
  · exact Nat.zero_le 1
  · split <;> simp

theorem Inv.start (h : p.Inv) {tid : Option Int} (hstep : p.start tid = some (.ok p')) :
    p'.Inv := by
  obtain ⟨-, t, ht, hbody⟩ := call_eq_some_iff.mp hstep
  split at hbody
  case isTrue => cases hbody
  case isFalse hstarted =>
      cases hbody
      have hbegun : p.begun = none := by
        rw [h.started t ht] at hstarted
        simpa using hstarted
      have hchild := h.unbegun hbegun
      have hwoken := h.unwoken hbegun
      have hnew : ∀ c, (tid.map fun tid => (⟨.wakeup, t._start_routine, tid⟩ : Child ρ)) = some c →
          c.place = .wakeup ∧ c._start_routine = t._start_routine := by
        intro c hc
        obtain ⟨_, -, rfl⟩ := Option.map_eq_some_iff.mp hc
        exact ⟨rfl, rfl⟩
      have hposts : posts { p with
          thread := some { t with _started := true }
          child := tid.map fun tid => ⟨.wakeup, t._start_routine, tid⟩
          owner := .waiting
          begun := some t._start_routine } = 0 := by
        cases tid <;> rfl
      have hsem := h.sem t ht
      rw [hwoken, posts.eq_1, hchild] at hsem
      refine {
        unbegun := nofun
        started := ?_
        routine := fun c hc => congrArg some (hnew c hc).2.symm
        childless := fun _ => ⟨(h.childless hchild).1, nofun⟩
        runs := fun c hc => ?_
        called := fun c hc hle => ?_
        sem := ?_
        tid := fun _ c _ hc hle => ?_
        waiting := fun _ => ⟨hwoken, rfl, rfl⟩
        unwoken := nofun
        woken := fun htrue => ?_
        joined := fun htrue => ?_ }
      · rintro _ ⟨⟩
        exact iff_of_true rfl rfl
      · rw [(hnew c hc).1]
        exact (h.childless hchild).1
      · rw [(hnew c hc).1] at hle
        exact absurd hle (by decide)
      · rintro _ ⟨⟩
        rw [hposts, hwoken]
        exact hsem
      · rw [(hnew c hc).1] at hle
        exact absurd hle (by decide)
      · rw [hwoken] at htrue
        cases htrue
      · obtain ⟨c, hc, -⟩ := h.joined htrue
        rw [hchild] at hc
        cases hc

theorem Inv.wait (h : p.Inv) (hstep : p.wait = some (.ok p')) : p'.Inv := by
  obtain ⟨hwaiting, hstep⟩ := Option.ite_none_right_eq_some.mp hstep
  obtain ⟨t, ht, hstep⟩ := Option.bind_eq_some_iff.mp hstep
  obtain ⟨sem, hsem, heq⟩ := Option.map_eq_some_iff.mp hstep
  cases heq
  obtain ⟨hwoken, hbegun, -⟩ := h.waiting hwaiting
  have hold := h.sem t ht
  have hle := p.posts_le
  unfold Semaphore.wait at hsem
  split at hsem
  case isTrue => cases hsem
  case isFalse hpos =>
      cases hsem
      rw [hwoken, Bool.toNat_false] at hold
      have hposts : p.posts = 1 := by omega
      exact { h with
        started := by
          rintro _ ⟨⟩
          exact h.started t ht
        childless := fun hnone => ⟨(h.childless hnone).1, nofun⟩
        sem := by
          rintro _ ⟨⟩
          change t._sem._sem - 1 + 1 = p.posts
          omega
        tid := by
          rintro _ c ⟨⟩ hc hleft
          exact h.tid t c ht hc hleft
        waiting := nofun
        unwoken := fun hnone => by
          rw [show p.begun = none from hnone] at hbegun
          cases hbegun
        woken := fun _ => hposts }

theorem Inv.join (h : p.Inv) (hstep : p.join = some (.ok p')) : p'.Inv := by
  obtain ⟨-, t, ht, hbody⟩ := call_eq_some_iff.mp hstep
  split at hbody
  case isTrue => cases hbody
  case isFalse =>
      split at hbody
      case isTrue => cases hbody
      case isFalse hchild =>
          cases hbody
          exact h.keep ht _ .joining rfl rfl rfl nofun fun _ => by simpa using hchild

/-- Every step of a party keeps the invariant. -/
theorem Inv.step (h : p.Inv) (hstep : p.step action = some (.ok p')) : p'.Inv := by
  cases action with
  | addThreadFunc start_routine =>
      obtain ⟨hready, t, ht, hbody⟩ := call_eq_some_iff.mp hstep
      cases hbody
      exact h.keep ht _ p.owner rfl rfl rfl (by rw [hready]; nofun) (by rw [hready]; nofun)
  | start tid => exact h.start hstep
  | wait => exact h.wait hstep
  | interrupt =>
      obtain ⟨-, heq⟩ := Option.ite_none_right_eq_some.mp hstep
      cases heq
      exact { h with
        childless := fun hnone => ⟨(h.childless hnone).1, nofun⟩
        waiting := nofun }
  | join => exact h.join hstep
  | joined =>
      obtain ⟨⟨-, hexited⟩, heq⟩ := Option.ite_none_right_eq_some.mp hstep
      cases heq
      obtain ⟨c, hc, hplace⟩ := (Option.any_eq_true _ _).mp hexited
      exact { h with
        childless := fun hnone => ⟨(h.childless hnone).1, nofun⟩
        waiting := nofun
        joined := fun _ => ⟨c, hc, of_decide_eq_true hplace⟩ }
  | destroy =>
      obtain ⟨hready, t, -, hbody⟩ := call_eq_some_iff.mp hstep
      cases hbody
      exact { h with
        started := nofun
        sem := nofun
        tid := nofun
        waiting := fun hwaiting => by
          rw [show p.owner = .waiting from hwaiting] at hready
          cases hready }
  | startThread => exact h.startThread hstep

/-- **A pool starts its threads with this `start`**, and both fail on the same objects. -/
theorem start_pooled (hready : p.owner = .ready) {t : Thread ρ} (ht : p.thread = some t)
    (tid : Option Int) :
    (∃ p' t', p.start tid = some (.ok p') ∧ p'.thread = some t' ∧
        t.pooled.start = some t'.pooled) ∨
      p.start tid = some (.error .assertion) ∧ t.pooled.start = none := by
  by_cases hstarted : t._started = true
  · refine Or.inr ⟨call_eq_some_iff.mpr ⟨hready, t, ht, if_pos hstarted⟩, if_pos hstarted⟩
  · refine Or.inl ⟨_, _, call_eq_some_iff.mpr ⟨hready, t, ht, if_neg hstarted⟩, rfl, ?_⟩
    exact if_neg hstarted

/-- What a step does to the object: it may destroy it, and its name stays as it is. -/
theorem thread_cases (hstep : p.step action = some (.ok p')) :
    p'.thread = p.thread ∨ action = .destroy ∧ p'.thread = none ∧ p'.child = p.child ∨
      ∃ t t', p.thread = some t ∧ p'.thread = some t' ∧ t'._name = t._name := by
  cases action with
  | addThreadFunc start_routine =>
      obtain ⟨-, t, ht, heq⟩ := call_eq_some_iff.mp hstep
      cases heq
      exact Or.inr (Or.inr ⟨t, _, ht, rfl, rfl⟩)
  | start tid =>
      obtain ⟨-, t, ht, heq⟩ := call_eq_some_iff.mp hstep
      split at heq <;> cases heq
      exact Or.inr (Or.inr ⟨t, _, ht, rfl, rfl⟩)
  | wait =>
      obtain ⟨-, hstep⟩ := Option.ite_none_right_eq_some.mp hstep
      obtain ⟨t, ht, hstep⟩ := Option.bind_eq_some_iff.mp hstep
      obtain ⟨sem, -, heq⟩ := Option.map_eq_some_iff.mp hstep
      cases heq
      exact Or.inr (Or.inr ⟨t, _, ht, rfl, rfl⟩)
  | interrupt =>
      obtain ⟨-, heq⟩ := Option.ite_none_right_eq_some.mp hstep
      cases heq
      exact Or.inl rfl
  | join =>
      obtain ⟨-, t, ht, heq⟩ := call_eq_some_iff.mp hstep
      split at heq
      · cases heq
      · split at heq <;> cases heq
        exact Or.inr (Or.inr ⟨t, _, ht, rfl, rfl⟩)
  | joined =>
      obtain ⟨-, heq⟩ := Option.ite_none_right_eq_some.mp hstep
      cases heq
      exact Or.inl rfl
  | destroy =>
      obtain ⟨-, t, -, heq⟩ := call_eq_some_iff.mp hstep
      cases heq
      exact Or.inr (Or.inl ⟨rfl, rfl, rfl⟩)
  | startThread =>
      obtain ⟨⟨place, start_routine, tid⟩, -, hstep⟩ := Option.bind_eq_some_iff.mp hstep
      cases place with
      | startRoutine =>
          cases start_routine <;> cases hstep
          exact Or.inl rfl
      | running =>
          cases hstep
          exact Or.inl rfl
      | afterRoutine =>
          cases hstep
          exact Or.inl rfl
      | exited => cases hstep
      | _ =>
          cases ht : p.thread with
          | none => simp [ht] at hstep
          | some t =>
              simp only [ht, Option.some.injEq, Except.ok.injEq] at hstep
              subst hstep
              exact Or.inr (Or.inr ⟨t, _, rfl, rfl, rfl⟩)

end Party

end CppUtils.ThreadStart
