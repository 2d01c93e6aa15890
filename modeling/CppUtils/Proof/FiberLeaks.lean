import CppUtils.Proof.FiberAssertions

/-!
# Which fibers are destroyed

As long as fibers are used as the assertions want it, a fiber is destroyed at the moment when its
user has dropped it and it is final, and no other fiber is. So one that was dropped while it was
suspended is there forever: the `cur` on its own stack refers to it, and nobody can swap it in to let
its `MainFunc` come to an end.
-/

namespace CppUtils.Fiber.Owned

variable {L : Type}

/-- The fibers that were constructed and not destroyed. -/
def alive (s : Owned L) : Nat := (List.range s.thread.ids).countP fun id => !s.dead id

/-! ### References that keep a fiber alive -/

theorem release_of_refers {s : Owned L} {f : Option Nat} (hf : ∀ id ∈ f, s.refers id = true) :
    s.release f = s := by
  cases f with
  | none => rfl
  | some id => rw [release, if_pos (by rw [hf id rfl]; rfl)]

theorem setThis_of_refers {s : Owned L} {f : Option Nat}
    (hf : ∀ id ∈ s.thread.t_curFiber, refers { s with thread := s.thread.setThis f } id = true) :
    s.setThis f = { s with thread := s.thread.setThis f } :=
  release_of_refers (s := { s with thread := s.thread.setThis f }) hf

theorem refers_of_held {s : Owned L} {id : Nat} (h : s.held id = true) : s.refers id = true := by
  simp [refers, h]

/-- What an allowed event does. -/
inductive Moved (s t : Owned L) : Prop
  | created (cb : Bool) (ht : t = s.create cb)
  | dropped {id : Nat} (hheld : s.held id = true) (hcontrol : s.thread.control.stack = none)
      (hinit : (s.thread.fibers id)._status ≠ .INIT) (ht : t = s.drop id)
  | entered {id : Nat} {l : L} (hheld : s.held id = true) (hcontrol : s.thread.control.stack = none)
      (hfinal : ¬ (s.thread.fibers id)._status.final) (ht : t.thread = s.thread.into id l)
      (hstack : t.thread.control.stack = some id)
      (hrest : t.held = s.held ∧ t.dead = s.dead ∧ t.totalFiberCounts = s.totalFiberCounts)
      (hcur : t.cur = s.cur)
  | began {id : Nat} (hcontrol : s.thread.control = .mainFunc id)
      (ht : t = { s with
        thread := { s.thread with control := .callback id id none }
        cur := Function.update s.cur id (some id) })
  | left {id : Nat} {status : Status} {saved : Context L}
      (hcontrol : s.thread.control.stack = some id) (ht : t.thread = s.thread.leave id status saved)
      (hstack : t.thread.control.stack = none)
      (hrest : t.held = s.held ∧ t.dead = s.dead ∧ t.totalFiberCounts = s.totalFiberCounts)
      (hcur : (status.suspended ∧ t.cur = s.cur ∧ s.cur id = some id) ∨
        status.final ∧ t.cur = Function.update s.cur id none)

structure Exact (s : Owned L) : Prop where
  inv : s.Inv
  born : ∀ id, s.held id = true → 0 < id ∧ id < s.thread.ids
  running : ∀ id, s.thread.control.stack = some id → s.held id = true
  started : ∀ id, id < s.thread.ids → (s.thread.fibers id)._status = .INIT → s.held id = true
  cur : ∀ stack id, s.cur stack = some id → id = stack ∧ ¬ (s.thread.fibers id)._status.final
  dead_iff : ∀ id, s.dead id = true ↔
    0 < id ∧ id < s.thread.ids ∧ s.held id = false ∧ (s.thread.fibers id)._status.final
  counted : s.totalFiberCounts = BitVec.ofNat 32 s.alive

theorem exact_new : (new : Owned L).Exact where
  inv := inv_new
  born := nofun
  running := nofun
  started := by
    intro id hid hinit
    obtain rfl : id = 0 := Nat.lt_one_iff.mp hid
    cases hinit
  cur := nofun
  dead_iff := by
    intro id
    refine iff_of_false nofun ?_
    rintro ⟨hpos, hlt, -⟩
    exact hpos.ne' (Nat.lt_one_iff.mp hlt)
  counted := rfl

section Steps

variable {s t : Owned L} {id stack cur : Nat} {status : Status} {l : L}

theorem swapIn_rest (h : s.swapIn id l = some t)
    (hrefers : ∀ id' ∈ s.thread.t_curFiber, refers
      { s with thread := s.thread.setThis (some id) } id' = true) :
    (t.held = s.held ∧ t.dead = s.dead ∧ t.totalFiberCounts = s.totalFiberCounts) ∧
      t.cur = s.cur := by
  obtain ⟨f, -, h⟩ := Option.bind_eq_some_iff.mp h
  obtain rfl := Option.some.inj h
  rw [setThis_of_refers hrefers]
  exact ⟨⟨rfl, rfl, rfl⟩, rfl⟩

/-- A suspended fiber is referred to by its user and by its own stack. -/
theorem leave_rest (hheld : s.held id = true) (hcur : s.thread.t_curFiber = some id)
    (h : s.swapOut id l = some t ∨ s.yieldSleeping id l = some t) :
    (t.held = s.held ∧ t.dead = s.dead ∧ t.totalFiberCounts = s.totalFiberCounts) ∧
      t.cur = s.cur := by
  have hsame : s.setThis s.thread.t_threadFiber =
      { s with thread := s.thread.setThis s.thread.t_threadFiber } := by
    refine setThis_of_refers fun id' hid' => refers_of_held ?_
    obtain rfl := Option.some.inj (hcur.symm.trans hid')
    exact hheld
  rcases h with h | h
  · obtain ⟨f, -, h⟩ := Option.bind_eq_some_iff.mp h
    obtain rfl := Option.some.inj h
    rw [hsame]
    exact ⟨⟨rfl, rfl, rfl⟩, rfl⟩
  · obtain ⟨f, -, h⟩ := Option.bind_eq_some_iff.mp h
    obtain rfl := Option.some.inj h
    rw [hsame]
    exact ⟨⟨rfl, rfl, rfl⟩, rfl⟩

theorem finish_rest (hheld : s.held id = true) (hcur : s.thread.t_curFiber = some id)
    (h : s.finish stack id status = some t) :
    (t.held = s.held ∧ t.dead = s.dead ∧ t.totalFiberCounts = s.totalFiberCounts) ∧
      t.cur = Function.update s.cur stack none := by
  have hreset : (s.setStatus id status).resetCur stack id =
      { s.setStatus id status with cur := Function.update s.cur stack none } :=
    release_of_refers (s := { s.setStatus id status with cur := Function.update s.cur stack none })
      fun id' hid' => refers_of_held (Option.some.inj hid' ▸ hheld)
  obtain ⟨m, hm⟩ : ∃ m, m =
      { s.setStatus id status with cur := Function.update s.cur stack none } := ⟨_, rfl⟩
  rw [finish, fiberExit, hreset, ← hm] at h
  have hsame : m.setThis m.thread.t_threadFiber =
      { m with thread := m.thread.setThis m.thread.t_threadFiber } := by
    refine setThis_of_refers fun id' hid' => refers_of_held ?_
    rw [hm] at hid' ⊢
    obtain rfl := Option.some.inj (hcur.symm.trans hid')
    exact hheld
  obtain ⟨f, -, h⟩ := Option.bind_eq_some_iff.mp h
  obtain rfl := Option.some.inj h
  rw [hsame, hm]
  exact ⟨⟨rfl, rfl, rfl⟩, rfl⟩

end Steps

/-! ### One event -/

section Event

variable {s t : Owned L} {id : Nat}

/-- A child that leaves for good. -/
theorem moved_finish (h : s.Exact) {actions : List (Action L)} (hinv : Fiber.Inv actions s.thread)
    (hsw : Switched actions s.thread id) (hstack : s.thread.control.stack = some id)
    {status : Status} (hfinal : status.final) (cur : Option Nat)
    (hfinish : Owned.finish { s with cur := Function.update s.cur id cur } id id status = some t) :
    s.Moved t := by
  have hheld := h.running id hstack
  obtain ⟨hthread, -, -⟩ := finish_cases hfinish
  change (s.thread.setStatus id status).fiberExit id id = some t.thread at hthread
  rw [hinv.fiberExit_eq hsw.pos.ne', Option.some.injEq] at hthread
  obtain ⟨hrest, hcur⟩ := finish_rest
    (s := { s with cur := Function.update s.cur id cur }) hheld hsw.cur hfinish
  refine .left hstack hthread.symm ?_ hrest (Or.inr ⟨hfinal, ?_⟩)
  · rw [← hthread, Thread.leave, hsw.main]
    rfl
  · rw [hcur, Function.update_idem]

theorem moved_suspend (h : s.Exact) {actions : List (Action L)} (hinv : Fiber.Inv actions s.thread)
    (hsw : Switched actions s.thread id) {cur : Nat} {point : Option L}
    (hcontrol : s.thread.control = .callback id cur point) {l : L}
    (hleave : s.swapOut id l = some t ∨ s.yieldSleeping id l = some t) : s.Moved t := by
  have hstack : s.thread.control.stack = some id := by rw [hcontrol]; rfl
  obtain ⟨hrest, hcur⟩ := leave_rest (h.running id hstack) hsw.cur hleave
  have hrunning := h.inv.running id cur point hcontrol
  rcases hleave with hleave | hleave
  · obtain ⟨hthread, -⟩ := swapOut_cases hleave
    rw [hinv.swapOut_eq hsw.pos.ne', Option.some.injEq] at hthread
    refine .left hstack hthread.symm ?_ hrest (Or.inl ⟨Or.inl rfl, hcur, hrunning⟩)
    rw [← hthread, Thread.leave, hsw.main]
    rfl
  · obtain ⟨hthread, -⟩ := yieldSleeping_cases hleave
    rw [hinv.yieldSleeping_eq hsw.pos.ne', Option.some.injEq] at hthread
    refine .left hstack hthread.symm ?_ hrest (Or.inl ⟨Or.inr rfl, hcur, hrunning⟩)
    rw [← hthread, Thread.leave, hsw.main]
    rfl

theorem moved_swapIn (h : s.Exact) {p : Option L} (hcontrol : s.thread.control = .main p) {l : L}
    (husable : s.usable id = true) (hfinal : ¬ (s.thread.fibers id)._status.final)
    (hswap : s.swapIn id l = some t) : s.Moved t := by
  obtain ⟨actions, hinv⟩ := h.inv.thread
  have hstack : s.thread.control.stack = none := by rw [hcontrol]; rfl
  have hheld : s.held id = true := by
    rcases (Bool.or_eq_true _ _).mp husable with hheld | hmain
    · exact hheld
    · have hzero := Option.some.inj (hinv.thread.symm.trans (of_decide_eq_true hmain))
      rw [← hzero, hinv.main_status] at hfinal
      exact absurd (Or.inl rfl) hfinal
  obtain ⟨hpos, hlt⟩ := h.born id hheld
  have hcur : s.thread.t_curFiber = some 0 := by
    cases hinv.executed with
    | main _ hmain => exact hmain
    | mainFunc hother | callback hother => cases hother.symm.trans hcontrol
  obtain ⟨hrest, hsame⟩ := swapIn_rest hswap fun id' hid' => by
    obtain rfl := Option.some.inj (hcur.symm.trans hid')
    exact refers_main hinv.thread
  obtain ⟨hthread, -⟩ := swapIn_cases hswap
  rw [hinv.swapIn_eq hpos.ne' hcontrol, Option.some.injEq] at hthread
  have hidle := hinv.idle id hpos hlt (by rw [hstack]; exact nofun)
  obtain ⟨-, hresumes⟩ := hinv.into hpos hlt hcontrol (not_finished_of_not_final hidle hfinal) l
  refine .entered hheld hstack hfinal hthread.symm ?_ hrest hsame
  rw [← hthread, hresumes]
  split <;> rfl

theorem moved_of_step (h : s.Exact) {event : Event L} (hstep : s.AllowedStep event t) :
    s.Moved t := by
  obtain ⟨hact, hallowed⟩ := hstep
  obtain ⟨actions, hinv⟩ := h.inv.thread
  unfold Step Owned.act at hact
  rw [h.inv.aborted, if_neg Bool.false_ne_true] at hact
  split at hact
  case h_1 | h_2 => exact .created _ (Option.some.inj hact).symm
  case h_3 hcontrol =>
    split at hact
    case isTrue husable => exact moved_swapIn h hcontrol husable hallowed.2 hact
    case isFalse => cases hact
  case h_4 hcontrol =>
    have hstack : s.thread.control.stack = none := hallowed.1
    rw [hcontrol] at hstack
    cases hstack
  case h_5 id hcontrol =>
    split at hact
    case isFalse => cases hact
    case isTrue heq =>
      subst heq
      have hsw : Switched actions s.thread id := by
        cases hinv.executed with
        | mainFunc hother hsw =>
            cases hother.symm.trans hcontrol
            exact hsw
        | main hother | callback hother => cases hother.symm.trans hcontrol
      obtain ⟨-, hfinish | rfl⟩ := mainFunc_cases hinv.thread hsw.cur hact
      · exact moved_finish h hinv hsw (by rw [hcontrol]; rfl) (Or.inl rfl) (some id) hfinish
      · exact .began hcontrol rfl
  case h_6 hcontrol =>
    split at hact
    case isTrue heq =>
      subst heq
      exact moved_suspend h hinv (switched_of_callback hinv hcontrol).2 hcontrol (Or.inl hact)
    case isFalse => cases hact
  case h_7 hcontrol =>
    split at hact
    case isTrue heq =>
      subst heq
      exact moved_suspend h hinv (switched_of_callback hinv hcontrol).2 hcontrol (Or.inr hact)
    case isFalse => cases hact
  case h_8 hcontrol | h_9 hcontrol =>
    split at hact
    case isFalse => cases hact
    case isTrue heq =>
      subst heq
      obtain ⟨rfl, hsw⟩ := switched_of_callback hinv hcontrol
      refine moved_finish h hinv hsw (by rw [hcontrol]; rfl) ?_ (s.cur _)
        (by rw [Function.update_eq_self]; exact hact)
      first | exact Or.inl rfl | exact Or.inr rfl
  case h_10 hcontrol =>
    split at hact
    case isTrue hheld =>
      exact .dropped hheld (by rw [hcontrol]; rfl) hallowed (Option.some.inj hact).symm
    case isFalse => cases hact
  case h_11 => cases hact

end Event

/-! ### What every event keeps -/

section Keep

variable {s t : Owned L} {id : Nat}

theorem Exact.not_dead (h : s.Exact) (hheld : s.held id = true) : s.dead id = false := by
  rw [Bool.eq_false_iff, ne_eq, h.dead_iff]
  rintro ⟨-, -, hnot, -⟩
  rw [hheld] at hnot
  cases hnot

/-- One fiber less is alive after `~Fiber`. -/
theorem countP_destroyed {n : Nat} {dead : Nat → Bool} (hlt : id < n) (halive : dead id = false) :
    (List.range n).countP (fun id' => !dead id') =
      (List.range n).countP (fun id' => !Function.update dead id true id') + 1 := by
  have hperm := List.perm_cons_erase (List.mem_range.mpr hlt)
  rw [hperm.countP_eq, hperm.countP_eq, List.countP_cons_of_pos (by simp [halive]),
    List.countP_cons_of_neg (by simp)]
  congr 1
  refine List.countP_congr fun id' hid' => ?_
  have hne := (List.nodup_range.mem_erase_iff.mp hid').1
  rw [Function.update_of_ne hne]

theorem Exact.create (h : s.Exact) (cb : Bool) (ht : (s.create cb).Inv) : (s.create cb).Exact := by
  have hids : ∀ {id}, id < (s.create cb).thread.ids → id ≠ s.thread.ids → id < s.thread.ids :=
    fun hlt hne => Nat.lt_of_le_of_ne (Nat.lt_succ_iff.mp hlt) hne
  have hfiber : ∀ {id}, id ≠ s.thread.ids →
      (s.create cb).thread.fibers id = s.thread.fibers id := fun hne => Function.update_of_ne hne _ _
  have hheld : ∀ {id}, id ≠ s.thread.ids → (s.create cb).held id = s.held id :=
    fun hne => Function.update_of_ne hne _ _
  have hnew : (s.create cb).held s.thread.ids = true := Function.update_self _ _ _
  obtain ⟨actions, hinv⟩ := h.inv.thread
  have hdead : s.dead s.thread.ids = false := by
    rw [Bool.eq_false_iff, ne_eq, h.dead_iff]
    exact fun hdead => Nat.lt_irrefl _ hdead.2.1
  refine ⟨ht, fun id hid => ?_, fun id hid => ?_, fun id hlt hinit => ?_, fun stack id hcur => ?_,
    fun id => ?_, ?_⟩
  · by_cases hne : id = s.thread.ids
    · rw [hne]
      exact ⟨hinv.ids_pos, Nat.lt_succ_self _⟩
    · rw [hheld hne] at hid
      exact ⟨(h.born id hid).1, Nat.lt_succ_of_lt (h.born id hid).2⟩
  · by_cases hne : id = s.thread.ids
    · rw [hne]
      exact hnew
    · rw [hheld hne]
      exact h.running id hid
  · by_cases hne : id = s.thread.ids
    · rw [hne]
      exact hnew
    · rw [hfiber hne] at hinit
      rw [hheld hne]
      exact h.started id (hids hlt hne) hinit
  · obtain ⟨rfl, hfinal⟩ := h.cur stack id hcur
    refine ⟨rfl, ?_⟩
    by_cases hne : id = s.thread.ids
    · -- a fiber that was not there is final
      rw [hne, (hinv.unborn _ le_rfl).2.2] at hfinal
      exact absurd (Or.inl rfl) hfinal
    · rw [hfiber hne]
      exact hfinal
  · by_cases hne : id = s.thread.ids
    · subst hne
      refine iff_of_false (by rw [show (s.create cb).dead _ = _ from hdead]; exact nofun) ?_
      rintro ⟨-, -, hheld', -⟩
      rw [hnew] at hheld'
      cases hheld'
    · rw [hheld hne, hfiber hne]
      refine (h.dead_iff id).trans ?_
      have hlt : id < s.thread.ids ↔ id < (s.create cb).thread.ids :=
        ⟨Nat.lt_succ_of_lt, fun hlt => hids hlt hne⟩
      rw [hlt]
  · have halive : (s.create cb).alive = s.alive + 1 := by
      change (List.range (s.thread.ids + 1)).countP _ = _
      rw [List.range_succ, List.countP_append, List.countP_singleton]
      change _ + (if (!s.dead s.thread.ids) = true then 1 else 0) = _
      rw [hdead]
      rfl
    rw [halive, BitVec.ofNat_add, ← h.counted]
    rfl

/-- Dropping a fiber destroys it if it is final. -/
theorem drop_eq (h : s.Exact) (hheld : s.held id = true) (hcontrol : s.thread.control.stack = none)
    (hinit : (s.thread.fibers id)._status ≠ .INIT) :
    (s.drop id).thread = s.thread ∧ (s.drop id).cur = s.cur ∧
      (s.drop id).held = Function.update s.held id false ∧
      (s.drop id).dead = Function.update s.dead id (decide (s.thread.fibers id)._status.final) ∧
      (s.drop id).totalFiberCounts =
        if (s.thread.fibers id)._status.final then s.totalFiberCounts - 1
        else s.totalFiberCounts := by
  obtain ⟨actions, hinv⟩ := h.inv.thread
  obtain ⟨hpos, hlt⟩ := h.born id hheld
  have hidle := hinv.idle id hpos hlt (by rw [hcontrol]; exact nofun)
  have halive := h.not_dead hheld
  refine ⟨drop_thread s id, drop_cur s id, release_held _ _, ?_⟩
  rw [drop]
  rcases final_of_not_suspended hidle hinit with hsuspended | hfinal
  · have hcur := h.inv.suspended id hsuspended
    have hrefers : refers { s with held := Function.update s.held id false } id = true :=
      refers_of_cur (s := { s with held := Function.update s.held id false }) hlt hcur
    rw [release_of_refers fun id' hid' => Option.some.inj hid' ▸ hrefers,
      decide_eq_false (h.cur id id hcur).2, if_neg (h.cur id id hcur).2]
    refine ⟨?_, rfl⟩
    rw [← halive, Function.update_eq_self]
  · have hmain : s.thread.t_curFiber = some 0 := by
      cases hinv.executed with
      | main _ hmain => exact hmain
      | mainFunc hother | callback hother =>
          rw [hother] at hcontrol
          cases hcontrol
    have hnocur : ∀ stack, s.cur stack ≠ some id := fun stack hcur => (h.cur stack id hcur).2 hfinal
    have hrefers : refers { s with held := Function.update s.held id false } id = false := by
      simp [refers, hmain, hinv.thread, hpos.ne, hnocur]
    have hgone : (refers { s with held := Function.update s.held id false } id || s.dead id) =
        false := by rw [hrefers, halive]; rfl
    rw [release]
    simp only [hgone, Bool.false_eq_true, if_false, destroy]
    rw [decide_eq_true hfinal, if_pos hfinal]
    exact ⟨rfl, rfl⟩

theorem Exact.drop (h : s.Exact) (hheld : s.held id = true)
    (hcontrol : s.thread.control.stack = none) (hinit : (s.thread.fibers id)._status ≠ .INIT)
    (ht : (s.drop id).Inv) : (s.drop id).Exact := by
  obtain ⟨hthread, hcur, hheld', hdead, hcounts⟩ := drop_eq h hheld hcontrol hinit
  refine ⟨ht, fun id' hid' => ?_, fun id' hid' => ?_, fun id' hlt hinit' => ?_,
    fun stack id' hid' => ?_, fun id' => ?_, ?_⟩
  · rw [hheld'] at hid'
    rw [hthread]
    by_cases hne : id' = id
    · rw [hne, Function.update_self] at hid'
      cases hid'
    · rw [Function.update_of_ne hne] at hid'
      exact h.born id' hid'
  · rw [hthread, hcontrol] at hid'
    cases hid'
  · rw [hthread] at hlt hinit'
    have hne : id' ≠ id := by
      rintro rfl
      exact hinit hinit'
    rw [hheld', Function.update_of_ne hne]
    exact h.started id' hlt hinit'
  · rw [hcur] at hid'
    rw [hthread]
    exact h.cur stack id' hid'
  · rw [hheld', hdead, hthread]
    by_cases hne : id' = id
    · subst hne
      simp only [Function.update_self, decide_eq_true_eq]
      exact ⟨fun hfinal => ⟨(h.born id' hheld).1, (h.born id' hheld).2, trivial, hfinal⟩,
        fun hall => hall.2.2.2⟩
    · simp only [Function.update_of_ne hne]
      exact h.dead_iff id'
  · rw [hcounts, alive, hdead, hthread]
    split
    case isTrue hfinal =>
      rw [decide_eq_true hfinal, h.counted, alive,
        countP_destroyed (h.born id hheld).2 (h.not_dead hheld), BitVec.ofNat_add]
      exact BitVec.add_sub_cancel _ _
    case isFalse hlive =>
      rw [decide_eq_false hlive, ← h.not_dead hheld, Function.update_eq_self]
      exact h.counted

/-- The status of one fiber changes, and only what is about that fiber has to be shown again. -/
theorem Exact.of_moved (h : s.Exact) (ht : t.Inv) (hids : t.thread.ids = s.thread.ids)
    (hfibers : ∀ id', id' ≠ id → (t.thread.fibers id')._status = (s.thread.fibers id')._status)
    (hrest : t.held = s.held ∧ t.dead = s.dead ∧ t.totalFiberCounts = s.totalFiberCounts)
    (hheld : s.held id = true)
    (hstack : ∀ id', t.thread.control.stack = some id' → id' = id)
    (hcur : ∀ stack id', t.cur stack = some id' →
      id' = stack ∧ ¬ (t.thread.fibers id')._status.final) : t.Exact := by
  refine ⟨ht, ?_, ?_, fun id' hlt hinit => ?_, hcur, fun id' => ?_, ?_⟩
  · rw [hrest.1, hids]
    exact h.born
  · intro id' hid'
    rw [hrest.1, hstack id' hid']
    exact hheld
  · rw [hrest.1]
    by_cases hne : id' = id
    · rw [hne]
      exact hheld
    · rw [hids] at hlt
      rw [hfibers id' hne] at hinit
      exact h.started id' hlt hinit
  · rw [hrest.2.1, hrest.1, hids]
    by_cases hne : id' = id
    · rw [hne, h.dead_iff, hheld]
      simp
    · rw [hfibers id' hne]
      exact h.dead_iff id'
  · rw [hrest.2.2, alive, hrest.2.1, hids]
    exact h.counted

/-- Where no `cur` changes, each is still that of its stack, if the fiber that changes is not final. -/
theorem Exact.cur_of_same (h : s.Exact) (hsame : t.cur = s.cur)
    (hothers : ∀ id', id' ≠ id → (t.thread.fibers id')._status = (s.thread.fibers id')._status)
    (hself : ¬ (t.thread.fibers id)._status.final) {stack id' : Nat}
    (hid' : t.cur stack = some id') : id' = stack ∧ ¬ (t.thread.fibers id')._status.final := by
  rw [hsame] at hid'
  obtain ⟨heq, hlive⟩ := h.cur stack id' hid'
  refine ⟨heq, ?_⟩
  by_cases hne : id' = id
  · rw [hne]
    exact hself
  · rw [hothers id' hne]
    exact hlive

theorem Exact.step (h : s.Exact) {event : Event L} (hstep : s.AllowedStep event t) : t.Exact := by
  have ht : t.Inv := h.inv.step hstep
  cases moved_of_step h hstep with
  | created cb heq =>
      subst heq
      exact h.create cb ht
  | dropped hheld hcontrol hinit heq =>
      subst heq
      exact h.drop hheld hcontrol hinit ht
  | @entered id l hheld hcontrol hfinal hthread hstack hrest hsame =>
      have hpos := (h.born id hheld).1
      have hself : (t.thread.fibers id)._status = .RUNNING := by
        rw [hthread, Thread.into_fibers_self hpos.ne']
      have hothers : ∀ id', id' ≠ id →
          (t.thread.fibers id')._status = (s.thread.fibers id')._status := by
        intro id' hne
        rw [hthread]
        by_cases hzero : id' = 0
        · rw [hzero, Thread.into_fibers_main]
        · rw [Thread.into_fibers_of_ne hne hzero]
      refine h.of_moved ht (by rw [hthread]; rfl) hothers hrest hheld ?_ ?_
      · intro id' hid'
        exact Option.some.inj (hid'.symm.trans hstack)
      · exact fun stack id' => h.cur_of_same hsame hothers (hself ▸ Status.not_final_running)
  | @began id hcontrol heq =>
      subst heq
      have hheld := h.running id (by rw [hcontrol]; rfl)
      refine h.of_moved ht rfl (fun _ _ => rfl) ⟨rfl, rfl, rfl⟩ hheld ?_ ?_
      · intro id' hid'
        exact (Option.some.inj hid').symm
      · intro stack id' hid'
        by_cases hne : stack = id
        · subst hne
          simp only [Function.update_self, Option.some.injEq] at hid'
          subst hid'
          obtain ⟨actions, hinv⟩ := h.inv.thread
          refine ⟨rfl, ?_⟩
          cases hinv.executed with
          | mainFunc hother hsw =>
              cases hother.symm.trans hcontrol
              exact hsw.status ▸ Status.not_final_running
          | main hother | callback hother => cases hother.symm.trans hcontrol
        · simp only [Function.update_of_ne hne] at hid'
          exact h.cur stack id' hid'
  | @left id status saved hcontrol hthread hstack hrest hcur =>
      have hheld := h.running id hcontrol
      have hself : (t.thread.fibers id)._status = status := by
        rw [hthread, Thread.leave_fibers_self]
      have hothers : ∀ id', id' ≠ id →
          (t.thread.fibers id')._status = (s.thread.fibers id')._status := by
        intro id' hne
        rw [hthread, Thread.leave_fibers_of_ne _ hne]
      refine h.of_moved ht (by rw [hthread]; rfl) hothers hrest hheld
        (fun id' hid' => by rw [hstack] at hid'; cases hid') ?_
      intro stack id' hid'
      rcases hcur with ⟨hsuspended, hsame, -⟩ | ⟨-, hsame⟩
      · exact h.cur_of_same hsame hothers (hself ▸ hsuspended.not_final) hid'
      · rw [hsame] at hid'
        by_cases hne : stack = id
        · subst hne
          simp at hid'
        · rw [Function.update_of_ne hne] at hid'
          obtain ⟨heq, hlive⟩ := h.cur stack id' hid'
          rw [hothers id' (heq ▸ hne)]
          exact ⟨heq, hlive⟩

/-- A fiber that was dropped while it was suspended stays as it is. -/
structure Leaked (s : Owned L) (id : Nat) (f : Fiber L) : Prop where
  born : id < s.thread.ids
  fiber : s.thread.fibers id = f
  suspended : f._status.suspended
  dropped : s.held id = false

theorem Leaked.step {f : Fiber L} (h : s.Leaked id f) (hs : s.Exact) {event : Event L}
    (hstep : s.AllowedStep event t) : t.Leaked id f := by
  have hnever : ∀ id', s.held id' = true → id ≠ id' := by
    rintro id' hheld rfl
    rw [h.dropped] at hheld
    cases hheld
  have hpos : id ≠ 0 := by
    rintro rfl
    obtain ⟨actions, hinv⟩ := hs.inv.thread
    have hsuspended := h.suspended
    rw [← h.fiber, hinv.main_status] at hsuspended
    rcases hsuspended with hrunnable | hsleeping
    · cases hrunnable
    · cases hsleeping
  cases moved_of_step hs hstep with
  | created cb heq =>
      subst heq
      have hne : id ≠ s.thread.ids := h.born.ne
      exact ⟨Nat.lt_succ_of_lt h.born, (Function.update_of_ne hne _ _).trans h.fiber, h.suspended,
        (Function.update_of_ne hne _ _).trans h.dropped⟩
  | @dropped id' hheld hcontrol hinit heq =>
      subst heq
      obtain ⟨hthread, -, hheld', -⟩ := drop_eq hs hheld hcontrol hinit
      refine ⟨hthread ▸ h.born, hthread ▸ h.fiber, h.suspended, ?_⟩
      rw [hheld', Function.update_of_ne (hnever id' hheld)]
      exact h.dropped
  | @entered id' l hheld _ _ hthread _ hrest _ =>
      refine ⟨?_, ?_, h.suspended, hrest.1 ▸ h.dropped⟩
      · rw [hthread]
        exact h.born
      · rw [hthread, Thread.into_fibers_of_ne (hnever id' hheld) hpos]
        exact h.fiber
  | began _ heq =>
      subst heq
      exact ⟨h.born, h.fiber, h.suspended, h.dropped⟩
  | @left id' status saved hcontrol hthread _ hrest _ =>
      refine ⟨?_, ?_, h.suspended, hrest.1 ▸ h.dropped⟩
      · rw [hthread]
        exact h.born
      · rw [hthread, Thread.leave_fibers_of_ne _ (hnever id' (hs.running id' hcontrol))]
        exact h.fiber

theorem Leaked.run {f : Fiber L} (h : s.Leaked id f) (hs : s.Exact) {events : List (Event L)}
    (hrun : Transition.Run AllowedStep s events t) : t.Exact ∧ t.Leaked id f := by
  induction hrun with
  | nil _ => exact ⟨hs, h⟩
  | cons first _ ih => exact ih (h.step hs first) (hs.step first)

end Keep

/-! ### Every run -/

theorem exact_of_reachable {s : Owned L} (hs : Transition.Reachable (· = new) AllowedStep s) :
    s.Exact :=
  hs.invariant_from exact_new fun _ _ _ h hstep => h.step hstep

/-- **Which fibers are destroyed.** Exactly those that were dropped and are final; what is executed
is never on the stack of one, nobody has a reference to one, and the counter that constructors and
destructors keep is the number of the others. -/
theorem dead_iff_of_reachable {s : Owned L}
    (hs : Transition.Reachable (· = new) AllowedStep s) :
    (∀ id, s.dead id = true ↔
        0 < id ∧ id < s.thread.ids ∧ s.held id = false ∧ (s.thread.fibers id)._status.final) ∧
      (∀ stack, s.thread.control.stack = some stack → s.dead stack = false) ∧
      (∀ id, s.dead id = true → s.refers id = false) ∧
      s.totalFiberCounts = BitVec.ofNat 32 s.alive := by
  have h := exact_of_reachable hs
  refine ⟨h.dead_iff, fun stack hstack => h.not_dead (h.running stack hstack),
    fun id hdead => ?_, h.counted⟩
  obtain ⟨hpos, -, hdropped, hfinal⟩ := (h.dead_iff id).mp hdead
  obtain ⟨actions, hinv⟩ := h.inv.thread
  have hcur : s.thread.t_curFiber ≠ some id := by
    intro hcurrent
    have hswitched : ∀ {id'}, Switched actions s.thread id' → s.thread.control.stack = some id' →
        False := by
      intro id' hsw hstack
      obtain rfl := Option.some.inj (hcurrent.symm.trans hsw.cur)
      rw [h.running id hstack] at hdropped
      cases hdropped
    cases hinv.executed with
    | main _ hmain =>
        have hzero := Option.some.inj (hcurrent.symm.trans hmain)
        exact hpos.ne' hzero
    | mainFunc hcontrol hsw => exact hswitched hsw (by rw [hcontrol]; rfl)
    | callback hcontrol hsw => exact hswitched hsw (by rw [hcontrol]; rfl)
  have hnocur : ∀ stack, s.cur stack ≠ some id := fun stack hcur => (h.cur stack id hcur).2 hfinal
  simp [refers, hdropped, hcur, hinv.thread, hpos.ne, hnocur]

/-- The first of two fibers has returned and was dropped. -/
theorem dead_iff_of_two : ∃ s : Owned Nat, s.dead 1 = true ∧ s.refers 1 = false ∧
    s.totalFiberCounts = 2 := by
  have hrun : (([.action (.create true), .action (.create true), .action (.swapIn 1 10),
      .action (.enter 1), .action (.returns 1), .drop 1] : List (Event Nat)).foldlM guarded new).map
      (fun s => (s.dead 1, s.totalFiberCounts)) = some (true, 2) := by decide
  obtain ⟨s, hs, heq⟩ := Option.map_eq_some_iff.mp hrun
  obtain ⟨hdead, hcount⟩ := Prod.mk.inj heq
  exact ⟨s, hdead, (dead_iff_of_reachable ⟨_, _, rfl, run_of_guarded hs⟩).2.2.1 1 hdead, hcount⟩

/-- **What is dropped while it is suspended is never destroyed**, and its callback never goes on. -/
theorem leaked_of_run {s t : Owned L} (hs : Transition.Reachable (· = new) AllowedStep s)
    {events : List (Event L)} (hrun : Transition.Run AllowedStep s events t) {id : Nat}
    (hid : id < s.thread.ids) (hsuspended : (s.thread.fibers id)._status.suspended)
    (hdropped : s.held id = false) :
    t.thread.fibers id = s.thread.fibers id ∧ t.dead id = false := by
  have h := exact_of_reachable hs
  obtain ⟨ht, hleaked⟩ := Leaked.run ⟨hid, rfl, hsuspended, hdropped⟩ h hrun
  refine ⟨hleaked.fiber, ?_⟩
  rw [Bool.eq_false_iff, ne_eq, ht.dead_iff, hleaked.fiber]
  exact fun hdead => hsuspended.not_final hdead.2.2.2

/-- A fiber that was dropped while it was suspended, and another that is created then. -/
theorem leaked_of_one : ∃ t : Owned Nat, t.held 1 = false ∧ t.thread.ids = 3 ∧ t.dead 1 = false := by
  have hrun : (([.action (.create true), .action (.swapIn 1 10), .action (.enter 1),
      .action (.swapOut 1 20), .drop 1] : List (Event Nat)).foldlM guarded new).map (fun s =>
        (s.held 1, s.thread.ids, (s.thread.fibers 1)._status,
          ([.action (.create true)] : List (Event Nat)).foldlM guarded s |>.map fun t =>
            (t.held 1, t.thread.ids))) = some (false, 2, .RUNNABLE, some (false, 3)) := by decide
  obtain ⟨s, hs, heq⟩ := Option.map_eq_some_iff.mp hrun
  obtain ⟨hheld, hids, hstatus, hnext⟩ := by simpa only [Prod.mk.injEq] using heq
  obtain ⟨t, ht, heq'⟩ := Option.map_eq_some_iff.mp hnext
  obtain ⟨hheld', hids'⟩ := Prod.mk.inj heq'
  exact ⟨t, hheld', hids', (leaked_of_run ⟨_, _, rfl, run_of_guarded hs⟩ (run_of_guarded ht)
    (by rw [hids]; decide) (Or.inl hstatus) hheld).2⟩

end CppUtils.Fiber.Owned
