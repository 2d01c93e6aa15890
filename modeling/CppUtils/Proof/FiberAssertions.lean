import CppUtils.FiberLifetime
import CppUtils.Proof.FiberSchedule

/-!
# The assertions about fibers

A fiber that is suspended is kept alive by the `cur` on its own stack, so only a fiber that has
not started and one that is finished can be destroyed. As long as only fibers that are not finished
are swapped in, and no fiber is dropped before it has started, neither assertion is reached in a
state where it fails.
-/

namespace CppUtils.Fiber

variable {L : Type}

/-- `FREE` or `EXCEPT`, as `~Fiber` asserts. -/
def Status.final (status : Status) : Prop := status = .FREE ∨ status = .EXCEPT

instance (status : Status) : Decidable status.final := inferInstanceAs (Decidable (_ ∨ _))

def Status.suspended (status : Status) : Prop := status = .RUNNABLE ∨ status = .SLEEPING

theorem Status.not_final_running : ¬ Status.RUNNING.final := by decide

theorem Status.suspended.not_final {status : Status} (h : status.suspended) : ¬ status.final := by
  rcases h with rfl | rfl
  · decide
  · decide

namespace Owned

/-! ### References -/

@[simp] theorem release_thread (s : Owned L) (f : Option Nat) : (s.release f).thread = s.thread := by
  unfold release
  split
  · rfl
  · split <;> rfl

@[simp] theorem release_held (s : Owned L) (f : Option Nat) : (s.release f).held = s.held := by
  unfold release
  split
  · rfl
  · split <;> rfl

@[simp] theorem release_cur (s : Owned L) (f : Option Nat) : (s.release f).cur = s.cur := by
  unfold release
  split
  · rfl
  · split <;> rfl

/-- The assertion holds if the fiber lives on, or is final. -/
theorem release_aborted {s : Owned L} (h : s.aborted = false) {f : Option Nat}
    (hf : ∀ id ∈ f, s.refers id = true ∨ (s.thread.fibers id)._status.final) :
    (s.release f).aborted = false := by
  cases f with
  | none => exact h
  | some id =>
      rw [release]
      split
      case isTrue => exact h
      case isFalse hdead =>
        rcases hf id rfl with hrefers | hfinal
        · rw [hrefers] at hdead
          exact absurd rfl hdead
        · rcases hfinal with hstatus | hstatus <;> simp [destroy, h, hstatus]

@[simp] theorem setThis_thread (s : Owned L) (f : Option Nat) :
    (s.setThis f).thread = s.thread.setThis f := release_thread _ _

@[simp] theorem setThis_cur (s : Owned L) (f : Option Nat) : (s.setThis f).cur = s.cur :=
  release_cur _ _

theorem setThis_aborted {s : Owned L} (h : s.aborted = false) (f : Option Nat)
    (hf : ∀ id ∈ s.thread.t_curFiber, Owned.refers { s with thread := s.thread.setThis f } id = true ∨
      (s.thread.fibers id)._status.final) : (s.setThis f).aborted = false :=
  release_aborted (s := { s with thread := s.thread.setThis f }) h hf

theorem drop_aborted {s : Owned L} (h : s.aborted = false) {id : Nat}
    (hf : Owned.refers { s with held := Function.update s.held id false } id = true ∨
      (s.thread.fibers id)._status.final) : (s.drop id).aborted = false := by
  refine release_aborted (s := { s with held := Function.update s.held id false }) h ?_
  rintro id' ⟨⟩
  exact hf

@[simp] theorem resetCur_thread (s : Owned L) (stack cur : Nat) :
    (s.resetCur stack cur).thread = s.thread := release_thread _ _

@[simp] theorem resetCur_cur (s : Owned L) (stack cur : Nat) :
    (s.resetCur stack cur).cur = Function.update s.cur stack none := release_cur _ _

@[simp] theorem drop_thread (s : Owned L) (id : Nat) : (s.drop id).thread = s.thread :=
  release_thread _ _

@[simp] theorem drop_cur (s : Owned L) (id : Nat) : (s.drop id).cur = s.cur := release_cur _ _

/-! ### What the functions do

In each case the thread goes where the function without references takes it. -/

section Cases

variable {s t : Owned L} {id stack cur : Nat} {status : Status} {l : L}

theorem swapIn_cases (h : s.swapIn id l = some t) :
    s.thread.swapIn id l = some t.thread ∧ t.cur = s.cur ∧
      t.aborted = (s.setThis (some id)).aborted := by
  obtain ⟨f, hf, h⟩ := Option.bind_eq_some_iff.mp h
  obtain rfl := Option.some.inj h
  rw [setThis_thread] at hf
  refine ⟨?_, setThis_cur s _, rfl⟩
  have hthread : (s.thread.setThis (some id)).t_threadFiber = some f := hf
  rw [Thread.swapIn]
  simp only [swap, setThis_thread, Thread.setStatus, hthread]
  rfl

theorem swapOut_cases (h : s.swapOut id l = some t) :
    s.thread.swapOut id l = some t.thread ∧ t.cur = s.cur ∧
      t.aborted = (s.setThis s.thread.t_threadFiber).aborted := by
  obtain ⟨f, hf, h⟩ := Option.bind_eq_some_iff.mp h
  obtain rfl := Option.some.inj h
  rw [setThis_thread] at hf
  refine ⟨?_, setThis_cur s _, rfl⟩
  rw [Thread.swapOut]
  simp only [swap, setThis_thread, Thread.setStatus, hf]
  rfl

theorem yieldSleeping_cases (h : s.yieldSleeping id l = some t) :
    s.thread.yieldSleeping id l = some t.thread ∧ t.cur = s.cur ∧
      t.aborted = (s.setThis s.thread.t_threadFiber).aborted := by
  obtain ⟨f, hf, h⟩ := Option.bind_eq_some_iff.mp h
  obtain rfl := Option.some.inj h
  rw [setThis_thread] at hf
  refine ⟨?_, setThis_cur s _, rfl⟩
  rw [Thread.yieldSleeping]
  simp only [swap, setThis_thread, Thread.setStatus, hf]
  rfl

/-- Both references that go are to a fiber that is final. -/
theorem finish_cases (h : s.finish stack cur status = some t) :
    (s.thread.setStatus cur status).fiberExit stack cur = some t.thread ∧
      t.cur = Function.update s.cur stack none ∧
      (s.aborted = false → status.final → s.thread.t_curFiber = some cur → t.aborted = false) := by
  rw [finish, fiberExit] at h
  generalize hm : s.setStatus cur status = m at h
  have hthread : m.thread = s.thread.setStatus cur status := by rw [← hm]; rfl
  obtain ⟨f, hf, h⟩ := Option.bind_eq_some_iff.mp h
  obtain rfl := Option.some.inj h
  rw [setThis_thread, resetCur_thread] at hf
  refine ⟨?_, ?_, fun haborted hfinal hcur => ?_⟩
  · rw [← hthread, Thread.fiberExit]
    simp only [setThis_thread, resetCur_thread, hf]
    rfl
  · rw [setThis_cur, resetCur_cur, ← hm]
    rfl
  · have hstatus : (m.thread.fibers cur)._status.final := by
      rw [hthread, Thread.setStatus]
      simpa using hfinal
    have hreset : (m.resetCur stack cur).aborted = false := by
      refine release_aborted (by rw [← hm]; exact haborted) ?_
      rintro id ⟨⟩
      exact .inr hstatus
    refine setThis_aborted hreset _ fun id hid => .inr ?_
    rw [resetCur_thread] at hid ⊢
    rw [hthread] at hid
    obtain rfl := Option.some.inj (hcur.symm.trans hid)
    exact hstatus

end Cases

/-! ### The invariant -/

structure Inv (s : Owned L) : Prop where
  thread : ∃ actions, Fiber.Inv actions s.thread
  aborted : s.aborted = false
  /-- A suspended fiber has its `MainFunc` on the stack. -/
  suspended : ∀ id, (s.thread.fibers id)._status.suspended → s.cur id = some id
  /-- So has the one whose callback is executed. -/
  running : ∀ stack cur point, s.thread.control = .callback stack cur point →
    s.cur stack = some stack

theorem inv_new : (new : Owned L).Inv where
  thread := ⟨[], Fiber.inv_new⟩
  aborted := rfl
  suspended id h := by
    have hinv : Fiber.Inv [] (new : Owned L).thread := Fiber.inv_new
    have hstatus : ((new : Owned L).thread.fibers id)._status = .FREE := by
      rcases Nat.eq_zero_or_pos id with rfl | hpos
      · exact hinv.main_status
      · exact (hinv.unborn id hpos).2.2
    rw [hstatus] at h
    simp [Status.suspended] at h
  running _ _ _ h := by cases h

section Steps

variable {s t : Owned L} {actions : List (Action L)} {id stack cur : Nat} {status : Status} {l : L}

theorem refers_of_cur (hlt : stack < s.thread.ids) (h : s.cur stack = some id) :
    s.refers id = true := by
  have hany : ((List.range s.thread.ids).any fun stack => s.cur stack = some id) = true := by
    rw [List.any_eq_true]
    exact ⟨stack, List.mem_range.mpr hlt, decide_eq_true h⟩
  simp [refers, hany]

theorem refers_main (h : s.thread.t_threadFiber = some id) : s.refers id = true := by
  simp [refers, h]

theorem Inv.create (h : s.Inv) (cb : Bool) : (s.create cb).Inv := by
  obtain ⟨actions, hinv⟩ := h.thread
  have hother : ∀ id, id ≠ s.thread.ids →
      (s.thread.create cb).fibers id = s.thread.fibers id :=
    fun id hne => Function.update_of_ne hne _ _
  refine ⟨⟨_, hinv.create cb⟩, h.aborted, fun id hid => ?_, h.running⟩
  by_cases hnew : id = s.thread.ids
  · subst hnew
    rw [show (s.create cb).thread.fibers _ = _ from Function.update_self _ _ _] at hid
    simp [Status.suspended] at hid
  · rw [show (s.create cb).thread.fibers id = _ from hother id hnew] at hid
    exact h.suspended id hid

/-- The child leaves for the main fiber. -/
theorem Inv.leave (h : s.Inv) (hsw : Switched actions s.thread id) {saved : Context L}
    (hthread : t.thread = s.thread.leave id status saved)
    (hnew : ∃ actions, Fiber.Inv actions t.thread) (haborted : t.aborted = false)
    (hcur : ∀ id', id' ≠ id → t.cur id' = s.cur id')
    (hself : status.suspended → t.cur id = some id) : t.Inv := by
  refine ⟨hnew, haborted, fun id' hid' => ?_, fun stack cur point hcontrol => ?_⟩
  · rw [hthread] at hid'
    by_cases heq : id' = id
    · subst heq
      rw [Thread.leave_fibers_self] at hid'
      exact hself hid'
    · rw [Thread.leave_fibers_of_ne _ heq] at hid'
      rw [hcur id' heq]
      exact h.suspended id' hid'
  · rw [hthread, Thread.leave, hsw.main] at hcontrol
    cases hcontrol

theorem final_of_not_suspended {f : Fiber L} (hidle : Idle actions id f)
    (hinit : f._status ≠ .INIT) : f._status.suspended ∨ f._status.final := by
  cases hidle with
  | start => exact absurd rfl hinit
  | suspended hstatus => exact .inl hstatus
  | returned | empty => exact .inr (.inl rfl)
  | thrown => exact .inr (.inr rfl)

/-- Where a swapped-in fiber goes on. -/
theorem idle_of_not_final {f : Fiber L} (hidle : Idle actions id f) (hfinal : ¬f._status.final) :
    lastOut id actions = none ∨ f._status.suspended := by
  cases hidle with
  | start hout => exact .inl hout
  | suspended hstatus => exact .inr hstatus
  | returned | empty => exact absurd (.inl rfl) hfinal
  | thrown => exact absurd (.inr rfl) hfinal

theorem not_finished_of_not_final (hidle : Idle actions id (s.thread.fibers id))
    (hfinal : ¬(s.thread.fibers id)._status.final) : s.thread.finished id = false := by
  rw [Thread.finished]
  generalize s.thread.fibers id = f at hidle hfinal
  cases hidle with
  | start | suspended => rfl
  | returned | empty => exact absurd (.inl rfl) hfinal
  | thrown => exact absurd (.inr rfl) hfinal

theorem Inv.swapIn (h : s.Inv) {p : Option L} (hcontrol : s.thread.control = .main p)
    (hfinal : ¬(s.thread.fibers id)._status.final) (hswap : s.swapIn id l = some t) : t.Inv := by
  obtain ⟨actions, hinv⟩ := h.thread
  obtain ⟨hthread, hcur, haborted⟩ := swapIn_cases hswap
  have hpos : 0 < id := by
    refine Nat.pos_of_ne_zero fun heq => hfinal ?_
    rw [heq, hinv.main_status]
    exact .inl rfl
  have hlt : id < s.thread.ids := by
    refine Nat.lt_of_not_le fun hle => hfinal ?_
    rw [(hinv.unborn id hle).2.2]
    exact .inl rfl
  have hidle := hinv.idle id hpos hlt (by rw [hcontrol]; exact nofun)
  have hfinished := not_finished_of_not_final hidle hfinal
  rw [hinv.swapIn_eq hpos.ne' hcontrol, Option.some.injEq] at hthread
  obtain ⟨hinto, hresumes⟩ := hinv.into hpos hlt hcontrol hfinished l
  rw [hthread] at hinto hresumes
  refine ⟨⟨_, hinto⟩, ?_, fun id' hid' => ?_, fun stack cur point hpoint => ?_⟩
  · rw [haborted]
    refine setThis_aborted h.aborted _ fun id' hid' => .inl ?_
    -- the fiber that was current is the main one
    cases hinv.executed with
    | main _ hmain =>
        obtain rfl := Option.some.inj (hmain.symm.trans hid')
        exact refers_main hinv.thread
    | mainFunc hother | callback hother => cases hother.symm.trans hcontrol
  · rw [hcur]
    rw [← hthread] at hid'
    by_cases heq : id' = id
    · subst heq
      rw [Thread.into_fibers_self hpos.ne'] at hid'
      simp [Status.suspended] at hid'
    · by_cases hzero : id' = 0
      · subst hzero
        rw [Thread.into_fibers_main] at hid'
        exact h.suspended 0 hid'
      · rw [Thread.into_fibers_of_ne heq hzero] at hid'
        exact h.suspended id' hid'
  · rw [hpoint] at hresumes
    rcases idle_of_not_final hidle hfinal with hnone | hsuspended
    · rw [hnone] at hresumes
      cases hresumes
    · rw [hcur]
      split at hresumes
      · cases hresumes
      · cases hresumes
        exact h.suspended id hsuspended

theorem switched_of_callback (h : Fiber.Inv actions s.thread) {point : Option L}
    (hcontrol : s.thread.control = .callback stack cur point) :
    cur = stack ∧ Switched actions s.thread stack := by
  cases h.executed with
  | callback hother hsw =>
      cases hother.symm.trans hcontrol
      exact ⟨rfl, hsw⟩
  | main hother | mainFunc hother => cases hother.symm.trans hcontrol

/-- `SetThis` in a child whose `MainFunc` is on its stack. -/
theorem aborted_setThis (h : s.Inv) (hsw : Switched actions s.thread id) (hcur : s.cur id = some id)
    (f : Option Nat) : (s.setThis f).aborted = false := by
  refine setThis_aborted h.aborted f fun id' hid' => .inl ?_
  obtain rfl := Option.some.inj (hsw.cur.symm.trans hid')
  exact refers_of_cur hsw.lt hcur

/-- A child leaves in the middle of its callback, and its `cur` stays on its stack. -/
theorem Inv.suspend (h : s.Inv) (hinv : Fiber.Inv actions s.thread) (hsw : Switched actions s.thread id)
    {point : Option L} (hcontrol : s.thread.control = .callback id cur point) {saved : Context L}
    (hthread : t.thread = s.thread.leave id status saved) (hsame : t.cur = s.cur)
    (haborted : t.aborted = (s.setThis s.thread.t_threadFiber).aborted) {a : Action L}
    (hact : s.thread.act a = some t.thread) : t.Inv := by
  have hrunning := h.running id cur point hcontrol
  refine h.leave hsw hthread ⟨_, (hinv.act hact).1⟩ ?_ (fun id' _ => by rw [hsame]) fun _ => ?_
  · rw [haborted]
    exact aborted_setThis h hsw hrunning _
  · rw [hsame]
    exact hrunning

theorem Inv.swapOut (h : s.Inv) {point : Option L}
    (hcontrol : s.thread.control = .callback id cur point) (hswap : s.swapOut id l = some t) :
    t.Inv := by
  obtain ⟨actions, hinv⟩ := h.thread
  obtain ⟨-, hsw⟩ := switched_of_callback hinv hcontrol
  obtain ⟨hthread, hsame, haborted⟩ := swapOut_cases hswap
  have hact : s.thread.act (.swapOut id l) = some t.thread := by
    simp only [Thread.act, hcontrol, if_true]
    exact hthread
  rw [hinv.swapOut_eq hsw.pos.ne', Option.some.injEq] at hthread
  exact h.suspend hinv hsw hcontrol hthread.symm hsame haborted hact

theorem Inv.yieldSleeping (h : s.Inv) {point : Option L}
    (hcontrol : s.thread.control = .callback id cur point) (hswap : s.yieldSleeping id l = some t) :
    t.Inv := by
  obtain ⟨actions, hinv⟩ := h.thread
  obtain ⟨-, hsw⟩ := switched_of_callback hinv hcontrol
  obtain ⟨hthread, hsame, haborted⟩ := yieldSleeping_cases hswap
  have hact : s.thread.act (.yieldSleeping id l) = some t.thread := by
    simp only [Thread.act, hcontrol, if_true]
    exact hthread
  rw [hinv.yieldSleeping_eq hsw.pos.ne', Option.some.injEq] at hthread
  exact h.suspend hinv hsw hcontrol hthread.symm hsame haborted hact

/-- A `MainFunc` comes to its end, perhaps with a `cur` that was just set. -/
theorem Inv.finish (h : s.Inv) (hinv : Fiber.Inv actions s.thread)
    (hsw : Switched actions s.thread id) (hfinal : status.final) (cur : Option Nat)
    (hfinish : Owned.finish { s with cur := Function.update s.cur id cur } id id status = some t)
    (hnew : ∃ actions, Fiber.Inv actions t.thread) : t.Inv := by
  obtain ⟨hthread, hsame, haborted⟩ := finish_cases hfinish
  change (s.thread.setStatus id status).fiberExit id id = some t.thread at hthread
  rw [hinv.fiberExit_eq hsw.pos.ne', Option.some.injEq] at hthread
  refine h.leave hsw hthread.symm hnew (haborted h.aborted hfinal hsw.cur) (fun id' hne => ?_) ?_
  · rw [hsame, Function.update_of_ne hne]
    exact Function.update_of_ne hne _ _
  · exact fun hsuspended => absurd hfinal hsuspended.not_final

theorem Inv.finish_callback (h : s.Inv) {point : Option L}
    (hcontrol : s.thread.control = .callback id cur point) (hfinal : status.final)
    (hfinish : s.finish id cur status = some t) {a : Action L}
    (hact : s.thread.act a = some t.thread) : t.Inv := by
  obtain ⟨actions, hinv⟩ := h.thread
  obtain ⟨rfl, hsw⟩ := switched_of_callback hinv hcontrol
  refine h.finish hinv hsw hfinal (s.cur cur) ?_ ⟨_, (hinv.act hact).1⟩
  rw [Function.update_eq_self]
  exact hfinish

theorem mainFunc_cases (hthread : s.thread.t_threadFiber = some 0)
    (hcur : s.thread.t_curFiber = some id) (h : s.mainFunc id = some t) :
    s.thread.mainFunc id = some t.thread ∧
      (Owned.finish { s with cur := Function.update s.cur id (some id) } id id .FREE = some t ∨
        t = { s with
          thread := { s.thread with control := .callback id id none }
          cur := Function.update s.cur id (some id) }) := by
  have hgetThis : s.thread.getThis = s.thread := by rw [Thread.getThis, hthread]
  have hsame : s.getThis = s := by rw [getThis, hthread]
  rw [mainFunc, hsame] at h
  rw [Thread.mainFunc, hgetThis]
  simp only [hcur, Option.bind_eq_bind, Option.bind_some] at h ⊢
  split at h
  case isTrue hcb =>
    rw [if_pos hcb]
    exact ⟨(finish_cases h).1, .inl h⟩
  case isFalse hcb =>
    obtain rfl := Option.some.inj h
    rw [if_neg hcb]
    exact ⟨rfl, .inr rfl⟩

theorem Inv.enter (h : s.Inv) (hcontrol : s.thread.control = .mainFunc id)
    (hmain : s.mainFunc id = some t) : t.Inv := by
  obtain ⟨actions, hinv⟩ := h.thread
  have hsw : Switched actions s.thread id := by
    cases hinv.executed with
    | mainFunc hother hsw =>
        cases hother.symm.trans hcontrol
        exact hsw
    | main hother | callback hother => cases hother.symm.trans hcontrol
  obtain ⟨hthread, hcases⟩ := mainFunc_cases hinv.thread hsw.cur hmain
  have hact : s.thread.act (.enter id) = some t.thread := by
    simp only [Thread.act, hcontrol, if_true]
    exact hthread
  rcases hcases with hfinish | rfl
  · exact h.finish hinv hsw (.inl rfl) (some id) hfinish ⟨_, (hinv.act hact).1⟩
  · refine ⟨⟨_, (hinv.act hact).1⟩, h.aborted, fun id' hid' => ?_, fun stack cur point hpoint => ?_⟩
    · by_cases heq : id' = id
      · subst heq
        exact Function.update_self _ _ _
      · exact (Function.update_of_ne heq _ _).trans (h.suspended id' hid')
    · cases hpoint
      exact Function.update_self _ _ _

/-- Dropping a fiber that has started destroys it if it is final, and changes nothing else. -/
theorem Inv.drop (h : s.Inv) {p : Option L} (hcontrol : s.thread.control = .main p)
    (hinit : (s.thread.fibers id)._status ≠ .INIT) : (s.drop id).Inv := by
  obtain ⟨actions, hinv⟩ := h.thread
  refine ⟨⟨actions, by rw [drop_thread]; exact hinv⟩, drop_aborted h.aborted ?_, ?_, ?_⟩
  · rcases Nat.eq_zero_or_pos id with rfl | hpos
    · exact .inl (refers_main hinv.thread)
    rcases Nat.lt_or_ge id s.thread.ids with hlt | hge
    · have hidle := hinv.idle id hpos hlt (by rw [hcontrol]; exact nofun)
      refine (final_of_not_suspended hidle hinit).imp_left fun hsuspended => ?_
      exact refers_of_cur hlt (h.suspended id hsuspended)
    · exact .inr (.inl (hinv.unborn id hge).2.2)
  · rw [drop_thread, drop_cur]
    exact h.suspended
  · rw [drop_thread, drop_cur]
    exact h.running

end Steps

/-! ### Runs -/

/-- Only the main fiber swaps in, and a fiber that is not final; no fiber is dropped before it has
started. -/
def Allowed (s : Owned L) : Event L → Prop
  | .action (.swapIn id _) => s.thread.control.stack = none ∧ ¬(s.thread.fibers id)._status.final
  | .drop id => (s.thread.fibers id)._status ≠ .INIT
  | _ => True

instance (s : Owned L) : (event : Event L) → Decidable (s.Allowed event)
  | .action (.swapIn _ _) => inferInstanceAs (Decidable (_ ∧ _))
  | .drop _ => inferInstanceAs (Decidable (_ ≠ _))
  | .action (.create _) | .action (.enter _) | .action (.swapOut _ _)
  | .action (.yieldSleeping _ _) | .action (.returns _) | .action (.throws _) => .isTrue trivial

def Step (s : Owned L) (event : Event L) (t : Owned L) : Prop := s.act event = some t

def AllowedStep (s : Owned L) (event : Event L) (t : Owned L) : Prop :=
  s.Step event t ∧ s.Allowed event

/-- No assertion has failed, and that of the main fiber will not when its thread ends. -/
structure Safe (s : Owned L) : Prop where
  neverBack : ∀ stack, s.thread.control ≠ .neverBack stack
  destroyed : s.aborted = false
  main : ∀ id, s.thread.t_threadFiber = some id → (s.thread.fibers id)._status.final

theorem Inv.safe {s : Owned L} (h : s.Inv) : s.Safe := by
  obtain ⟨actions, hinv⟩ := h.thread
  refine ⟨fun stack hcontrol => ?_, h.aborted, fun id hid => ?_⟩
  · cases hinv.executed with
    | main hother | mainFunc hother | callback hother => cases hother.symm.trans hcontrol
  · obtain rfl := Option.some.inj (hinv.thread.symm.trans hid)
    exact .inl hinv.main_status

theorem Inv.step {s t : Owned L} {event : Event L} (h : s.Inv) (hstep : s.AllowedStep event t) :
    t.Inv := by
  obtain ⟨hact, hallowed⟩ := hstep
  unfold Step Owned.act at hact
  rw [h.aborted, if_neg Bool.false_ne_true] at hact
  split at hact
  case h_1 | h_2 => exact Option.some.inj hact ▸ h.create _
  case h_3 hcontrol =>
    split at hact
    · exact h.swapIn hcontrol hallowed.2 hact
    · cases hact
  case h_4 hcontrol =>
    have hstack : s.thread.control.stack = none := hallowed.1
    rw [hcontrol] at hstack
    cases hstack
  case h_5 hcontrol =>
    split at hact
    · exact h.enter hcontrol hact
    · cases hact
  case h_6 hcontrol =>
    split at hact
    case isTrue heq => exact h.swapOut (heq ▸ hcontrol) hact
    case isFalse => cases hact
  case h_7 hcontrol =>
    split at hact
    case isTrue heq => exact h.yieldSleeping (heq ▸ hcontrol) hact
    case isFalse => cases hact
  case h_8 id hcontrol =>
    split at hact
    case isTrue heq =>
      refine h.finish_callback hcontrol (.inl rfl) hact (a := .returns id) ?_
      simp only [Thread.act, hcontrol, heq, if_true]
      exact (finish_cases hact).1
    case isFalse => cases hact
  case h_9 id hcontrol =>
    split at hact
    case isTrue heq =>
      refine h.finish_callback hcontrol (.inr rfl) hact (a := .throws id) ?_
      simp only [Thread.act, hcontrol, heq, if_true]
      exact (finish_cases hact).1
    case isFalse => cases hact
  case h_10 hcontrol =>
    split at hact
    · exact Option.some.inj hact ▸ h.drop hcontrol hallowed
    · cases hact
  case h_11 => cases hact

/-- **The assertions about fibers.** As long as the main fiber swaps in fibers that are not final,
and drops none that has not started, no assertion fails. -/
theorem safe_of_run {s : Owned L} (hs : Transition.Reachable (· = new) AllowedStep s) : s.Safe := by
  have hinv : s.Inv := hs.invariant_from inv_new fun _ _ _ h hstep => h.step hstep
  exact hinv.safe

def guarded (s : Owned L) (event : Event L) : Option (Owned L) :=
  if s.Allowed event then s.act event else none

theorem run_of_guarded {s t : Owned L} {events : List (Event L)}
    (h : events.foldlM guarded s = some t) : Transition.Run AllowedStep s events t := by
  refine (Transition.Run.of_foldlM h).imp fun s event t hstep => ?_
  rw [guarded] at hstep
  split at hstep
  case isTrue hallowed => exact ⟨hstep, hallowed⟩
  case isFalse => cases hstep

/-- A finished fiber and a suspended one are dropped. -/
theorem safe_of_run_drop :
    ∃ s : Owned Nat, s.dead 1 = true ∧ s.dead 2 = false ∧ s.Safe := by
  let events : List (Event Nat) := [.action (.create true), .action (.create true),
    .action (.swapIn 1 10), .action (.enter 1), .action (.returns 1), .drop 1,
    .action (.swapIn 2 11), .action (.enter 2), .action (.swapOut 2 20), .drop 2]
  have hrun : (events.foldlM guarded new).map (fun s => (s.dead 1, s.dead 2)) =
      some (true, false) := by decide
  obtain ⟨s, hs, hdead⟩ := Option.map_eq_some_iff.mp hrun
  obtain ⟨hfirst, hsecond⟩ := Prod.mk.inj hdead
  exact ⟨s, hfirst, hsecond, safe_of_run ⟨_, events, rfl, run_of_guarded hs⟩⟩

/-- A fiber is swapped in once more after its callback has returned. -/
theorem not_safe :
    ¬ ∀ s : Owned Nat, Transition.Reachable (· = new) Step s → s.Safe := by
  intro hsafe
  have hrun : (run ([.action (.create true), .action (.swapIn 1 10), .action (.enter 1),
      .action (.returns 1), .action (.swapIn 1 11)] : List (Event Nat))).map
      (fun s => s.thread.control) = some (.neverBack 1) := rfl
  obtain ⟨s, hs, hcontrol⟩ := Option.map_eq_some_iff.mp hrun
  exact (hsafe s ⟨_, _, rfl, Transition.Run.of_foldlM hs⟩).neverBack 1 hcontrol

end Owned

end CppUtils.Fiber
