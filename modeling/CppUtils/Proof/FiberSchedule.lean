import CppUtils.Fiber
import Mathlib.Data.List.Basic
import Mathlib.Order.Nat

/-!
# The fibers of a thread take turns

The actions of a run say where each child left last and where the main fiber swapped in last. A
child that is not being executed is at its start, suspended where it left last, or finished; the
main fiber, while a child is executed, is suspended where it swapped in last. Every action keeps
this, because the four ways to leave a child differ only in the status and the continuation they
leave behind.
-/

namespace CppUtils

namespace Fiber

variable {L : Type}

/-! ### What the actions say -/

/-- The label of a call that leaves the child `id` for the time being. -/
def Action.outOf (id : Nat) : Action L → Option L
  | .swapOut id' l => if id' = id then some l else none
  | .yieldSleeping id' l => if id' = id then some l else none
  | _ => none

def Action.outOfMain : Action L → Option L
  | .swapIn _ l => some l
  | _ => none

def lastOut (id : Nat) (actions : List (Action L)) : Option L :=
  (actions.filterMap (Action.outOf id)).getLast?

def lastIn (actions : List (Action L)) : Option L := (actions.filterMap Action.outOfMain).getLast?

/-- The child that makes the call, or that the end of the callback belongs to. -/
def Action.child : Action L → Option Nat
  | .swapOut id _ | .yieldSleeping id _ | .returns id | .throws id => some id
  | _ => none

theorem getLast?_filterMap_append {α β : Type} (f : α → Option β) (l : List α) (a : α) :
    ((l ++ [a]).filterMap f).getLast? = (f a).or (l.filterMap f).getLast? := by
  rw [List.filterMap_append, List.getLast?_append]
  cases h : f a <;> simp [h]

theorem lastOut_append (id : Nat) (actions : List (Action L)) (a : Action L) :
    lastOut id (actions ++ [a]) = (a.outOf id).or (lastOut id actions) :=
  getLast?_filterMap_append _ _ _

theorem lastIn_append (actions : List (Action L)) (a : Action L) :
    lastIn (actions ++ [a]) = a.outOfMain.or (lastIn actions) :=
  getLast?_filterMap_append _ _ _

theorem lastOut_append_of_ne {id : Nat} {a : Action L} (h : a.child ≠ some id)
    (actions : List (Action L)) : lastOut id (actions ++ [a]) = lastOut id actions := by
  rw [lastOut_append]
  cases a <;> simp_all [Action.outOf, Action.child]

structure Unfinished (actions : List (Action L)) (id : Nat) : Prop where
  returns : Action.returns id ∉ actions
  throws : Action.throws id ∉ actions

theorem not_mem_append_singleton {α : Type} {l : List α} {a b : α} (h : b ∉ l) (hne : a ≠ b) :
    b ∉ l ++ [a] := by
  rw [List.mem_append, List.mem_singleton]
  exact fun hmem => hmem.elim h fun heq => hne heq.symm

theorem Action.ne_of_child_ne {a : Action L} {id : Nat} (hne : a.child ≠ some id) :
    a ≠ .returns id ∧ a ≠ .throws id := by
  constructor
  · rintro rfl
    exact hne rfl
  · rintro rfl
    exact hne rfl

theorem Unfinished.append {actions : List (Action L)} {id : Nat} (h : Unfinished actions id)
    {a : Action L} (hreturns : a ≠ .returns id) (hthrows : a ≠ .throws id) :
    Unfinished (actions ++ [a]) id where
  returns := not_mem_append_singleton h.returns hreturns
  throws := not_mem_append_singleton h.throws hthrows

theorem Unfinished.append_of_ne {actions : List (Action L)} {id : Nat} (h : Unfinished actions id)
    {a : Action L} (hne : a.child ≠ some id) : Unfinished (actions ++ [a]) id :=
  h.append (Action.ne_of_child_ne hne).1 (Action.ne_of_child_ne hne).2

/-! ### The fibers that are not executed -/

inductive Idle (actions : List (Action L)) (id : Nat) : Fiber L → Prop
  | start {cb : Bool} (hout : lastOut id actions = none) (h : Unfinished actions id) :
      Idle actions id ⟨.INIT, .mainFunc id, cb⟩
  | suspended {status : Status} {l : L} (hstatus : status = .RUNNABLE ∨ status = .SLEEPING)
      (hout : lastOut id actions = some l) (h : Unfinished actions id) :
      Idle actions id ⟨status, .callback id id (some l), true⟩
  | returned (hreturns : .returns id ∈ actions) (hthrows : .throws id ∉ actions) :
      Idle actions id ⟨.FREE, .neverBack id, true⟩
  | thrown (hthrows : .throws id ∈ actions) (hreturns : .returns id ∉ actions) :
      Idle actions id ⟨.EXCEPT, .neverBack id, true⟩
  | empty : Idle actions id ⟨.FREE, .neverBack id, false⟩

theorem Idle.append {actions : List (Action L)} {id : Nat} {f : Fiber L} (h : Idle actions id f)
    {a : Action L} (hne : a.child ≠ some id) : Idle (actions ++ [a]) id f := by
  obtain ⟨hneReturns, hneThrows⟩ := Action.ne_of_child_ne hne
  cases h with
  | start hout h => exact .start (lastOut_append_of_ne hne actions ▸ hout) (h.append_of_ne hne)
  | suspended hstatus hout h =>
      exact .suspended hstatus (lastOut_append_of_ne hne actions ▸ hout) (h.append_of_ne hne)
  | returned hreturns hthrows =>
      exact .returned (List.mem_append_left _ hreturns)
        (not_mem_append_singleton hthrows hneThrows)
  | thrown hthrows hreturns =>
      exact .thrown (List.mem_append_left _ hthrows)
        (not_mem_append_singleton hreturns hneReturns)
  | empty => exact .empty

theorem Idle.status_ne {actions : List (Action L)} {id : Nat} {f : Fiber L}
    (h : Idle actions id f) : f._status ≠ .RUNNING := by
  cases h with
  | suspended hstatus =>
      rcases hstatus with rfl | rfl
      · exact nofun
      · exact nofun
  | start | returned | thrown | empty => exact nofun

theorem Idle.returned_iff {actions : List (Action L)} {id : Nat} {f : Fiber L}
    (h : Idle actions id f) (hcb : f._cb = true) :
    .returns id ∈ actions ↔ f._status = .FREE := by
  cases h with
  | start _ h => exact iff_of_false h.returns nofun
  | suspended hstatus _ h =>
      refine iff_of_false h.returns ?_
      rcases hstatus with rfl | rfl
      · exact nofun
      · exact nofun
  | returned hreturns => exact iff_of_true hreturns rfl
  | thrown _ hreturns => exact iff_of_false hreturns nofun
  | empty => cases hcb

theorem Idle.thrown_iff {actions : List (Action L)} {id : Nat} {f : Fiber L}
    (h : Idle actions id f) (hcb : f._cb = true) :
    .throws id ∈ actions ↔ f._status = .EXCEPT := by
  cases h with
  | start _ h => exact iff_of_false h.throws nofun
  | suspended hstatus _ h =>
      refine iff_of_false h.throws ?_
      rcases hstatus with rfl | rfl
      · exact nofun
      · exact nofun
  | returned _ hthrows => exact iff_of_false hthrows nofun
  | thrown hthrows => exact iff_of_true hthrows rfl
  | empty => cases hcb

/-! ### The fiber that is executed -/

/-- The fiber whose continuation it is, unless it is the main one. -/
def Context.stack : Context L → Option Nat
  | .main _ => none
  | .mainFunc stack | .callback stack _ _ | .neverBack stack => some stack

structure Switched (actions : List (Action L)) (s : Thread L) (id : Nat) : Prop where
  pos : 0 < id
  lt : id < s.ids
  cur : s.t_curFiber = some id
  status : (s.fibers id)._status = .RUNNING
  main : (s.fibers 0)._ctx = .main (lastIn actions)
  unfinished : Unfinished actions id

inductive Executed (actions : List (Action L)) (s : Thread L) : Prop
  | main (hcontrol : s.control = .main (lastIn actions)) (hcur : s.t_curFiber = some 0)
  | mainFunc {id : Nat} (hcontrol : s.control = .mainFunc id) (h : Switched actions s id)
      (hout : lastOut id actions = none)
  | callback {id : Nat} (hcontrol : s.control = .callback id id (lastOut id actions))
      (h : Switched actions s id) (hcb : (s.fibers id)._cb = true)

structure Inv (actions : List (Action L)) (s : Thread L) : Prop where
  thread : s.t_threadFiber = some 0
  ids_pos : 0 < s.ids
  main_status : (s.fibers 0)._status = .FREE
  idle : ∀ id, 0 < id → id < s.ids → s.control.stack ≠ some id → Idle actions id (s.fibers id)
  unborn : ∀ id, s.ids ≤ id →
    lastOut id actions = none ∧ Unfinished actions id ∧ (s.fibers id)._status = .FREE
  executed : Executed actions s

theorem inv_new : Inv [] (Thread.new.getThis : Thread L) where
  thread := rfl
  ids_pos := Nat.zero_lt_one
  main_status := rfl
  idle := fun id hpos hlt _ => absurd (Nat.lt_one_iff.mp hlt) hpos.ne'
  unborn := by
    intro id hid
    have hne : id ≠ 0 := fun heq => absurd hid (heq ▸ Nat.not_succ_le_zero 0)
    refine ⟨rfl, ⟨List.not_mem_nil, List.not_mem_nil⟩, ?_⟩
    have hfiber : (Thread.new.getThis : Thread L).fibers id = Thread.new.fibers id :=
      Function.update_of_ne hne _ _
    rw [hfiber]
    rfl
  executed := .main rfl rfl

/-! ### Leaving a child -/

/-- The state after the child `id` has handed over to the main fiber. -/
def Thread.leave (s : Thread L) (id : Nat) (status : Status) (saved : Context L) : Thread L :=
  { s with
    t_curFiber := some 0
    fibers := Function.update s.fibers id ⟨status, saved, (s.fibers id)._cb⟩
    control := (s.fibers 0)._ctx }

theorem Thread.leave_fibers_self (s : Thread L) (id : Nat) (status : Status) (saved : Context L) :
    (s.leave id status saved).fibers id = ⟨status, saved, (s.fibers id)._cb⟩ :=
  Function.update_self _ _ _

theorem Thread.leave_fibers_of_ne (s : Thread L) {id id' : Nat} (hne : id' ≠ id) (status : Status)
    (saved : Context L) : (s.leave id status saved).fibers id' = s.fibers id' :=
  Function.update_of_ne hne _ _

theorem Thread.swapcontext_setStatus {s : Thread L} {id : Nat} (hid : id ≠ 0) (status : Status)
    (saved : Context L) :
    ((s.setThis (some 0)).setStatus id status).swapcontext saved id 0 =
      s.leave id status saved := by
  simp [swapcontext, setStatus, setThis, leave, Function.update_of_ne hid.symm]

section Leave

variable {before : List (Action L)} {s : Thread L} {id : Nat}

theorem Inv.swapOut_eq (h : Inv before s) (hid : id ≠ 0) (l : L) :
    s.swapOut id l = some (s.leave id .RUNNABLE (s.control.after l)) := by
  rw [← Thread.swapcontext_setStatus hid, Thread.swapOut, h.thread]
  simp only [Thread.setThis, Thread.setStatus, h.thread]
  rfl

theorem Inv.yieldSleeping_eq (h : Inv before s) (hid : id ≠ 0) (l : L) :
    s.yieldSleeping id l = some (s.leave id .SLEEPING (s.control.after l)) := by
  rw [← Thread.swapcontext_setStatus hid, Thread.yieldSleeping, h.thread]
  simp only [Thread.setThis, Thread.setStatus, h.thread]
  rfl

theorem Inv.fiberExit_eq (h : Inv before s) (hid : id ≠ 0) (status : Status) (stack : Nat) :
    (s.setStatus id status).fiberExit stack id = some (s.leave id status (.neverBack stack)) := by
  rw [← Thread.swapcontext_setStatus hid, Thread.fiberExit]
  simp only [Thread.setThis, Thread.setStatus, h.thread]
  rfl

/-- However the child leaves, the others are as before and the main fiber goes on where it swapped
in. -/
theorem Inv.leave (h : Inv before s) (hsw : Switched before s id) {a : Action L}
    (hother : ∀ id', id' ≠ id → a.child ≠ some id') (hmain : a.outOfMain = none)
    (hstack : s.control.stack = some id) {status : Status} {saved : Context L}
    (hidle : Idle (before ++ [a]) id ⟨status, saved, (s.fibers id)._cb⟩) :
    Inv (before ++ [a]) (s.leave id status saved) := by
  have hin : lastIn (before ++ [a]) = lastIn before := by
    rw [lastIn_append, hmain, Option.none_or]
  constructor
  · exact h.thread
  · exact h.ids_pos
  · rw [Thread.leave_fibers_of_ne s hsw.pos.ne]
    exact h.main_status
  · intro id' hpos hlt _
    by_cases heq : id' = id
    · subst heq
      rw [Thread.leave_fibers_self]
      exact hidle
    · rw [Thread.leave_fibers_of_ne s heq]
      apply (h.idle id' hpos hlt ?_).append (hother id' heq)
      rw [hstack]
      exact fun hsome => heq (Option.some_inj.mp hsome).symm
  · intro id' hid'
    have hne : id' ≠ id := (Nat.lt_of_lt_of_le hsw.lt hid').ne'
    obtain ⟨hout, hunfinished, hstatus⟩ := h.unborn id' hid'
    rw [Thread.leave_fibers_of_ne s hne, lastOut_append_of_ne (hother id' hne)]
    exact ⟨hout, hunfinished.append_of_ne (hother id' hne), hstatus⟩
  · refine .main ?_ rfl
    rw [hin]
    exact hsw.main

end Leave

/-! ### Entering a child -/

def Thread.into (s : Thread L) (id : Nat) (l : L) : Thread L :=
  { s with
    t_curFiber := some id
    fibers := Function.update (Function.update s.fibers id
      { s.fibers id with _status := .RUNNING }) 0 { s.fibers 0 with _ctx := .main (some l) }
    control := (s.fibers id)._ctx }

section Into

variable {before : List (Action L)} {s : Thread L} {id : Nat}

theorem Inv.swapIn_eq (h : Inv before s) (hid : id ≠ 0) {p : Option L}
    (hcontrol : s.control = .main p) (l : L) : s.swapIn id l = some (s.into id l) := by
  rw [Thread.swapIn]
  simp only [Thread.setThis, Thread.setStatus, h.thread, hcontrol]
  simp [Thread.swapcontext, Thread.into, Context.after, h.thread, Function.update_of_ne hid,
    Function.update_of_ne hid.symm]

theorem Thread.into_fibers_self (hid : id ≠ 0) (l : L) :
    (s.into id l).fibers id = { s.fibers id with _status := .RUNNING } :=
  (Function.update_of_ne hid _ _).trans (Function.update_self _ _ _)

theorem Thread.into_fibers_of_ne {id' : Nat} (hne : id' ≠ id) (hid : id' ≠ 0) (l : L) :
    (s.into id l).fibers id' = s.fibers id' :=
  (Function.update_of_ne hid _ _).trans (Function.update_of_ne hne _ _)

theorem Thread.into_fibers_main (l : L) :
    (s.into id l).fibers 0 = { s.fibers 0 with _ctx := .main (some l) } := by
  unfold into
  simp only [Function.update_self]

theorem Action.child_swapIn_ne (id : Nat) (l : L) (id' : Nat) :
    (Action.swapIn id l).child ≠ some id' := nofun

theorem switched_into (hpos : 0 < id) (hlt : id < s.ids) (l : L)
    (hunfinished : Unfinished before id) :
    Switched (before ++ [.swapIn id l]) (s.into id l) id where
  pos := hpos
  lt := hlt
  cur := rfl
  status := by rw [Thread.into_fibers_self hpos.ne']
  main := by
    rw [lastIn_append, Thread.into_fibers_main]
    rfl
  unfinished := hunfinished.append_of_ne (Action.child_swapIn_ne id l id)

/-- The main fiber goes on in a child that is not finished where that child left last. -/
theorem Inv.into (h : Inv before s) (hpos : 0 < id) (hlt : id < s.ids) {p : Option L}
    (hcontrol : s.control = .main p) (hfinished : s.finished id = false) (l : L) :
    Inv (before ++ [.swapIn id l]) (s.into id l) ∧
      (s.into id l).control = match lastOut id before with
        | none => .mainFunc id
        | some l' => .callback id id (some l') := by
  have hidle := h.idle id hpos hlt (by rw [hcontrol]; exact nofun)
  have hself := Thread.into_fibers_self (s := s) hpos.ne' l
  have hout : lastOut id (before ++ [.swapIn id l]) = lastOut id before :=
    lastOut_append_of_ne (Action.child_swapIn_ne id l id) before
  have hrest : Executed (before ++ [.swapIn id l]) (s.into id l) →
      (s.into id l).control.stack = some id → Inv (before ++ [.swapIn id l]) (s.into id l) := by
    intro hexecuted hstack
    constructor
    · exact h.thread
    · exact h.ids_pos
    · rw [Thread.into_fibers_main]
      exact h.main_status
    · intro id' hpos' hlt' hne
      have hne' : id' ≠ id := fun heq => hne (heq ▸ hstack)
      rw [Thread.into_fibers_of_ne hne' hpos'.ne']
      apply (h.idle id' hpos' hlt' ?_).append (Action.child_swapIn_ne id l id')
      rw [hcontrol]
      exact nofun
    · intro id' hid'
      have hne : id' ≠ id := (Nat.lt_of_lt_of_le hlt hid').ne'
      obtain ⟨hout', hunfinished, hstatus⟩ := h.unborn id' hid'
      rw [Thread.into_fibers_of_ne hne (Nat.lt_of_lt_of_le h.ids_pos hid').ne',
        lastOut_append_of_ne (Action.child_swapIn_ne id l id')]
      exact ⟨hout', hunfinished.append_of_ne (Action.child_swapIn_ne id l id'), hstatus⟩
    · exact hexecuted
  have hctx : (s.into id l).control = (s.fibers id)._ctx := rfl
  generalize hf : s.fibers id = f at hidle hctx
  cases hidle with
  | start hnone hunfinished =>
      refine ⟨hrest ?_ ?_, ?_⟩
      · exact .mainFunc hctx (switched_into hpos hlt l hunfinished) (hout.trans hnone)
      · rw [hctx]
        rfl
      · rw [hctx, hnone]
  | suspended hstatus hsome hunfinished =>
      refine ⟨hrest ?_ ?_, ?_⟩
      · refine .callback ?_ (switched_into hpos hlt l hunfinished) ?_
        · rw [hctx, hout, hsome]
        · rw [hself, hf]
      · rw [hctx]
        rfl
      · rw [hctx, hsome]
  | returned | thrown | empty =>
      rw [Thread.finished, hf] at hfinished
      cases hfinished

end Into

/-! ### One action -/

/-- Where the last action of a run resumes. -/
def Resumes (before : List (Action L)) (t : Thread L) : Action L → Prop
  | .create _ => t.control = .main (lastIn before)
  | .swapIn id _ =>
      t.control = match lastOut id before with
        | none => .mainFunc id
        | some l => .callback id id (some l)
  | .enter id =>
      t.control = if (t.fibers id)._cb then .callback id id none else .main (lastIn before)
  | .swapOut _ _ | .yieldSleeping _ _ | .returns _ | .throws _ =>
      t.control = .main (lastIn before)

section Act

variable {before : List (Action L)} {s t : Thread L} {a : Action L}

theorem Thread.create_fibers_of_lt {id : Nat} (hlt : id < s.ids) (cb : Bool) :
    (s.create cb).fibers id = s.fibers id :=
  Function.update_of_ne hlt.ne _ _

theorem Action.child_create_ne (cb : Bool) (id : Nat) :
    (Action.create cb : Action L).child ≠ some id := nofun

theorem Switched.create (h : Inv before s) {id : Nat} (hsw : Switched before s id) (cb : Bool) :
    Switched (before ++ [.create cb]) (s.create cb) id where
  pos := hsw.pos
  lt := Nat.lt_succ_of_lt hsw.lt
  cur := hsw.cur
  status := by
    rw [Thread.create_fibers_of_lt hsw.lt]
    exact hsw.status
  main := by
    rw [Thread.create_fibers_of_lt h.ids_pos, lastIn_append]
    exact hsw.main
  unfinished := hsw.unfinished.append_of_ne (Action.child_create_ne cb id)

/-- Whoever creates a fiber goes on. -/
theorem Executed.create (h : Inv before s) (cb : Bool) :
    Executed (before ++ [.create cb]) (s.create cb) := by
  have hout (id : Nat) : lastOut id (before ++ [.create cb]) = lastOut id before :=
    lastOut_append_of_ne (Action.child_create_ne cb id) before
  cases h.executed with
  | main hcontrol hcur =>
      refine .main ?_ hcur
      rw [lastIn_append]
      exact hcontrol
  | @mainFunc id hcontrol hsw hnone =>
      exact .mainFunc hcontrol (hsw.create h cb) ((hout id).trans hnone)
  | @callback id hcontrol hsw hcb =>
      refine .callback ?_ (hsw.create h cb) ?_
      · rw [hout id]
        exact hcontrol
      · rw [Thread.create_fibers_of_lt hsw.lt]
        exact hcb

theorem Inv.create (h : Inv before s) (cb : Bool) : Inv (before ++ [.create cb]) (s.create cb) := by
  constructor
  · exact h.thread
  · exact Nat.succ_pos _
  · rw [Thread.create_fibers_of_lt h.ids_pos]
    exact h.main_status
  · intro id hpos hlt hstack
    rcases (Nat.lt_succ_iff.mp hlt).lt_or_eq with hold | rfl
    · rw [Thread.create_fibers_of_lt hold]
      exact (h.idle id hpos hold hstack).append (Action.child_create_ne cb id)
    · obtain ⟨hout, hunfinished, -⟩ := h.unborn s.ids le_rfl
      have hne := Action.child_create_ne (L := L) cb s.ids
      rw [show (s.create cb).fibers s.ids = _ from Function.update_self _ _ _]
      exact .start ((lastOut_append_of_ne hne before).trans hout) (hunfinished.append_of_ne hne)
  · intro id hid
    obtain ⟨hout, hunfinished, hstatus⟩ := h.unborn id (Nat.le_of_succ_le hid)
    have hne := Action.child_create_ne (L := L) cb id
    have hfiber : (s.create cb).fibers id = s.fibers id :=
      Function.update_of_ne (Nat.lt_of_succ_le hid).ne' _ _
    rw [hfiber, lastOut_append_of_ne hne]
    exact ⟨hout, hunfinished.append_of_ne hne, hstatus⟩
  · exact Executed.create h cb

theorem Inv.act_main (h : Inv before s) (hcontrol : s.control = .main (lastIn before))
    (hact : s.act a = some t) : Inv (before ++ [a]) t ∧ Resumes before t a := by
  cases a with
  | create cb =>
      simp only [Thread.act, hcontrol] at hact
      cases hact
      exact ⟨h.create cb, hcontrol⟩
  | swapIn id l =>
      simp only [Thread.act, hcontrol, h.thread] at hact
      split at hact
      case isTrue hguard =>
        have hid : id ≠ 0 := fun heq => hguard.1 (congrArg some heq)
        rw [h.swapIn_eq hid hcontrol] at hact
        cases hact
        exact h.into (Nat.pos_of_ne_zero hid) hguard.2.1 hcontrol hguard.2.2 l
      case isFalse => cases hact
  | enter | swapOut | yieldSleeping | returns | throws =>
      simp [Thread.act, hcontrol] at hact

theorem Inv.act_mainFunc (h : Inv before s) {stack : Nat} (hcontrol : s.control = .mainFunc stack)
    (hsw : Switched before s stack) (hout : lastOut stack before = none)
    (hact : s.act a = some t) : Inv (before ++ [a]) t ∧ Resumes before t a := by
  cases a with
  | enter id =>
      simp only [Thread.act, hcontrol] at hact
      split at hact
      case isFalse => cases hact
      case isTrue heq =>
      subst heq
      have hother : ∀ id', (Action.enter id : Action L).child ≠ some id' := fun _ => nofun
      have hunfinished := hsw.unfinished.append_of_ne (hother id)
      have hgetThis : s.getThis = s := by rw [Thread.getThis, h.thread]
      simp only [Thread.mainFunc, hgetThis, hsw.cur, Option.bind_eq_bind, Option.bind_some] at hact
      split at hact
      case isTrue hcb =>
        rw [h.fiberExit_eq hsw.pos.ne'] at hact
        cases hact
        refine ⟨h.leave hsw (fun id' _ => hother id') rfl (hcontrol ▸ rfl) ?_, ?_⟩
        · rw [hcb]
          exact .empty
        · rw [Resumes, Thread.leave_fibers_self, hcb]
          exact hsw.main
      case isFalse hcb =>
        have hcb' : (s.fibers id)._cb = true := by simpa using hcb
        cases hact
        refine ⟨⟨h.thread, h.ids_pos, h.main_status, ?_, ?_, ?_⟩, ?_⟩
        · intro id' hpos hlt hstack
          apply (h.idle id' hpos hlt ?_).append (hother id')
          rw [hcontrol]
          exact hstack
        · intro id' hid'
          obtain ⟨hout', hunfinished', hstatus⟩ := h.unborn id' hid'
          rw [lastOut_append_of_ne (hother id')]
          exact ⟨hout', hunfinished'.append_of_ne (hother id'), hstatus⟩
        · have hmain : (s.fibers 0)._ctx = .main (lastIn (before ++ [.enter id])) := by
            rw [lastIn_append]
            exact hsw.main
          have hsw' : Switched (before ++ [.enter id]) { s with
              t_curFiber := some id, control := .callback id id none } id :=
            ⟨hsw.pos, hsw.lt, rfl, hsw.status, hmain, hunfinished⟩
          refine .callback ?_ hsw' hcb'
          rw [lastOut_append_of_ne (hother id), hout]
        · rw [Resumes, if_pos hcb']
  | create | swapIn | swapOut | yieldSleeping | returns | throws =>
      simp [Thread.act, hcontrol] at hact

theorem Action.child_ne {id id' : Nat} (h : a.child = some id) (hne : id' ≠ id) :
    a.child ≠ some id' := by
  rw [h]
  exact fun heq => hne (Option.some_inj.mp heq).symm

theorem Thread.child_of_act {stack cur : Nat} {point : Option L}
    (hcontrol : s.control = .callback stack cur point) (hact : s.act a = some t) :
    a.child = some stack := by
  cases a with
  | swapOut | yieldSleeping | returns | throws =>
      simp only [act, hcontrol] at hact
      split at hact
      case isTrue heq => rw [Action.child, heq]
      case isFalse => cases hact
  | create | swapIn | enter => simp [act, hcontrol] at hact

theorem Inv.act_callback (h : Inv before s) {stack : Nat}
    (hcontrol : s.control = .callback stack stack (lastOut stack before))
    (hsw : Switched before s stack) (hcb : (s.fibers stack)._cb = true)
    (hact : s.act a = some t) : Inv (before ++ [a]) t ∧ Resumes before t a := by
  have hid : stack ≠ 0 := hsw.pos.ne'
  have hstack : s.control.stack = some stack := by
    rw [hcontrol]
    rfl
  have hchild := Thread.child_of_act hcontrol hact
  have hleave : ∀ {status saved}, Idle (before ++ [a]) stack ⟨status, saved, true⟩ →
      a.outOfMain = none → Inv (before ++ [a]) (s.leave stack status saved) := by
    intro status saved hidle hmain
    rw [← hcb] at hidle
    exact h.leave hsw (fun id' => Action.child_ne hchild) hmain hstack hidle
  cases a with
  | swapOut id l =>
      obtain rfl := Option.some_inj.mp hchild
      simp only [Thread.act, hcontrol, if_true] at hact
      rw [h.swapOut_eq hid, hcontrol] at hact
      cases hact
      refine ⟨hleave (.suspended (.inl rfl) ?_ (hsw.unfinished.append nofun nofun)) rfl, hsw.main⟩
      rw [lastOut_append, Action.outOf, if_pos rfl]
      rfl
  | yieldSleeping id l =>
      obtain rfl := Option.some_inj.mp hchild
      simp only [Thread.act, hcontrol, if_true] at hact
      rw [h.yieldSleeping_eq hid, hcontrol] at hact
      cases hact
      refine ⟨hleave (.suspended (.inr rfl) ?_ (hsw.unfinished.append nofun nofun)) rfl, hsw.main⟩
      rw [lastOut_append, Action.outOf, if_pos rfl]
      rfl
  | returns id =>
      obtain rfl := Option.some_inj.mp hchild
      simp only [Thread.act, hcontrol, if_true] at hact
      rw [Thread.mainFuncReturned, h.fiberExit_eq hid] at hact
      cases hact
      have hthrows := not_mem_append_singleton hsw.unfinished.throws (a := .returns id) nofun
      exact ⟨hleave (.returned (List.mem_append_right _ List.mem_cons_self) hthrows) rfl, hsw.main⟩
  | throws id =>
      obtain rfl := Option.some_inj.mp hchild
      simp only [Thread.act, hcontrol, if_true] at hact
      rw [Thread.mainFuncCaught, h.fiberExit_eq hid] at hact
      cases hact
      have hreturns := not_mem_append_singleton hsw.unfinished.returns (a := .throws id) nofun
      exact ⟨hleave (.thrown (List.mem_append_right _ List.mem_cons_self) hreturns) rfl, hsw.main⟩
  | create | swapIn | enter => cases hchild

theorem Inv.act (h : Inv before s) (hact : s.act a = some t) :
    Inv (before ++ [a]) t ∧ Resumes before t a := by
  cases h.executed with
  | main hcontrol => exact h.act_main hcontrol hact
  | mainFunc hcontrol hsw hout => exact h.act_mainFunc hcontrol hsw hout hact
  | callback hcontrol hsw hcb => exact h.act_callback hcontrol hsw hcb hact

/-- The actions of the code that is executed: the main fiber creates fibers and swaps in those that
are not finished, and a child is at the entry of `MainFunc` or in its callback. -/
def Permits (s : Thread L) : Action L → Prop
  | .create _ => s.control.stack = none
  | .swapIn id _ =>
      s.control.stack = none ∧ some id ≠ s.t_threadFiber ∧ id < s.ids ∧ s.finished id = false
  | .enter id => s.control = .mainFunc id
  | .swapOut id _ | .yieldSleeping id _ | .returns id | .throws id =>
      ∃ cur point, s.control = .callback id cur point

theorem Inv.control_main (h : Inv before s) (hstack : s.control.stack = none) :
    s.control = .main (lastIn before) := by
  cases h.executed with
  | main hcontrol => exact hcontrol
  | mainFunc hcontrol | callback hcontrol =>
      rw [hcontrol] at hstack
      cases hstack

theorem Inv.control_callback (h : Inv before s) {id cur : Nat} {point : Option L}
    (hcontrol : s.control = .callback id cur point) :
    s.control = .callback id id point ∧ id ≠ 0 := by
  cases h.executed with
  | main hother | mainFunc hother => cases hother.symm.trans hcontrol
  | callback hother hsw =>
      cases hother.symm.trans hcontrol
      exact ⟨hcontrol, hsw.pos.ne'⟩

/-- No action fails where it is permitted. -/
theorem Inv.exists_act (h : Inv before s) (ha : Permits s a) : ∃ t, s.act a = some t := by
  cases a with
  | create cb =>
      simp only [Thread.act, h.control_main ha]
      exact ⟨_, rfl⟩
  | swapIn id l =>
      obtain ⟨hstack, hmain, hlt, hfinished⟩ := ha
      have hcontrol := h.control_main hstack
      have hid : id ≠ 0 := fun heq => hmain (by rw [heq, h.thread])
      simp only [Thread.act, hcontrol]
      rw [if_pos ⟨hmain, hlt, hfinished⟩, h.swapIn_eq hid hcontrol]
      exact ⟨_, rfl⟩
  | enter id =>
      have hcontrol : s.control = .mainFunc id := ha
      have hsw : Switched before s id := by
        cases h.executed with
        | main hother | callback hother => cases hother.symm.trans hcontrol
        | mainFunc hother hsw =>
            cases hother.symm.trans hcontrol
            exact hsw
      have hgetThis : s.getThis = s := by rw [Thread.getThis, h.thread]
      simp only [Thread.act, hcontrol, if_true, Thread.mainFunc, hgetThis, hsw.cur,
        Option.bind_eq_bind, Option.bind_some]
      split
      · exact ⟨_, h.fiberExit_eq hsw.pos.ne' _ _⟩
      · exact ⟨_, rfl⟩
  | swapOut id l =>
      obtain ⟨cur, point, hcontrol⟩ := ha
      obtain ⟨hcontrol, hid⟩ := h.control_callback hcontrol
      simp only [Thread.act, hcontrol, if_true]
      exact ⟨_, h.swapOut_eq hid l⟩
  | yieldSleeping id l =>
      obtain ⟨cur, point, hcontrol⟩ := ha
      obtain ⟨hcontrol, hid⟩ := h.control_callback hcontrol
      simp only [Thread.act, hcontrol, if_true]
      exact ⟨_, h.yieldSleeping_eq hid l⟩
  | returns id =>
      obtain ⟨cur, point, hcontrol⟩ := ha
      obtain ⟨hcontrol, hid⟩ := h.control_callback hcontrol
      simp only [Thread.act, hcontrol, if_true, Thread.mainFuncReturned]
      exact ⟨_, h.fiberExit_eq hid _ _⟩
  | throws id =>
      obtain ⟨cur, point, hcontrol⟩ := ha
      obtain ⟨hcontrol, hid⟩ := h.control_callback hcontrol
      simp only [Thread.act, hcontrol, if_true, Thread.mainFuncCaught]
      exact ⟨_, h.fiberExit_eq hid _ _⟩

end Act

/-! ### Runs -/

theorem inv_of_run {actions : List (Action L)} {t : Thread L} (h : Thread.run actions = some t) :
    Inv actions t :=
  Transition.foldlM_history inv_new (fun _ _ _ _ hm hact => (hm.act hact).1) h

theorem resumes_of_run {before : List (Action L)} {a : Action L} {t : Thread L}
    (h : Thread.run (before ++ [a]) = some t) : Resumes before t a := by
  obtain ⟨m, hbefore, hact⟩ := Transition.foldlM_append_singleton_eq_some_iff.mp h
  exact ((inv_of_run hbefore).act hact).2

structure Scheduled (actions : List (Action L)) (t : Thread L) : Prop where
  main : ∀ point, t.control = .main point →
    t.t_curFiber = t.t_threadFiber ∧ ∀ id, (t.fibers id)._status ≠ .RUNNING
  child : ∀ stack cur point, t.control = .callback stack cur point →
    t.t_curFiber = some stack ∧ (t.fibers stack)._status = .RUNNING ∧
      ∀ id, id ≠ stack → (t.fibers id)._status ≠ .RUNNING
  resumes : ∀ before a, actions = before ++ [a] → Resumes before t a
  returned : ∀ id, some id ≠ t.t_threadFiber → id < t.ids → (t.fibers id)._cb = true →
    (.returns id ∈ actions ↔ (t.fibers id)._status = .FREE)
  thrown : ∀ id, some id ≠ t.t_threadFiber → id < t.ids → (t.fibers id)._cb = true →
    (.throws id ∈ actions ↔ (t.fibers id)._status = .EXCEPT)
  proceeds : ∀ a, Permits t a → ∃ t', t.act a = some t'

theorem Inv.status_ne {actions : List (Action L)} {t : Thread L} (h : Inv actions t) {id : Nat}
    (hstack : t.control.stack ≠ some id) : (t.fibers id)._status ≠ .RUNNING := by
  rcases Nat.eq_zero_or_pos id with rfl | hpos
  · rw [h.main_status]
    exact nofun
  · rcases Nat.lt_or_ge id t.ids with hlt | hge
    · exact (h.idle id hpos hlt hstack).status_ne
    · rw [(h.unborn id hge).2.2]
      exact nofun

theorem Inv.idle_or_switched {actions : List (Action L)} {t : Thread L} (h : Inv actions t)
    {id : Nat} (hmain : some id ≠ t.t_threadFiber) (hlt : id < t.ids) :
    Idle actions id (t.fibers id) ∨ Switched actions t id := by
  have hpos : 0 < id := Nat.pos_of_ne_zero fun heq => hmain (heq ▸ h.thread.symm)
  by_cases hstack : t.control.stack = some id
  · right
    cases h.executed with
    | main hcontrol => rw [hcontrol] at hstack; cases hstack
    | mainFunc hcontrol hsw => rw [hcontrol] at hstack; cases hstack; exact hsw
    | callback hcontrol hsw => rw [hcontrol] at hstack; cases hstack; exact hsw
  · exact .inl (h.idle id hpos hlt hstack)

/-- **Fibers are scheduled as they should be.** -/
theorem scheduled_of_run {actions : List (Action L)} {t : Thread L}
    (h : Thread.run actions = some t) : Scheduled actions t := by
  have hinv := inv_of_run h
  constructor
  · intro point hpoint
    cases hinv.executed with
    | main hcontrol hcur =>
        refine ⟨hcur.trans hinv.thread.symm, fun id => hinv.status_ne ?_⟩
        rw [hcontrol]
        exact nofun
    | mainFunc hcontrol | callback hcontrol =>
        rw [hcontrol] at hpoint
        cases hpoint
  · intro stack cur point hpoint
    cases hinv.executed with
    | main hcontrol | mainFunc hcontrol =>
        rw [hcontrol] at hpoint
        cases hpoint
    | callback hcontrol hsw hcb =>
        rw [hcontrol] at hpoint
        cases hpoint
        refine ⟨hsw.cur, hsw.status, fun id hne => hinv.status_ne ?_⟩
        rw [hcontrol]
        exact fun heq => hne (Option.some_inj.mp heq).symm
  · rintro before a rfl
    exact resumes_of_run h
  · intro id hmain hlt hcb
    rcases hinv.idle_or_switched hmain hlt with hidle | hsw
    · exact hidle.returned_iff hcb
    · refine iff_of_false hsw.unfinished.returns ?_
      rw [hsw.status]
      exact nofun
  · intro id hmain hlt hcb
    rcases hinv.idle_or_switched hmain hlt with hidle | hsw
    · exact hidle.thrown_iff hcb
    · refine iff_of_false hsw.unfinished.throws ?_
      rw [hsw.status]
      exact nofun
  · exact fun _ => hinv.exists_act

/-- A fiber that swaps out once, next to one that sleeps and then throws. -/
theorem scheduled_of_run_swapOut :
    let actions : List (Action Nat) := [.create true, .create true, .swapIn 1 10, .enter 1,
      .swapOut 1 20, .swapIn 2 11, .enter 2, .yieldSleeping 2 30, .swapIn 2 12, .throws 2,
      .swapIn 1 13, .returns 1]
    ∃ t, Thread.run actions = some t ∧ Scheduled actions t ∧
      (t.fibers 1)._status = .FREE ∧ (t.fibers 2)._status = .EXCEPT := by
  intro actions
  have hrun : (Thread.run actions).map (fun t => ((t.fibers 1)._status, (t.fibers 2)._status)) =
      some (.FREE, .EXCEPT) := by decide
  obtain ⟨t, ht, hstatus⟩ := Option.map_eq_some_iff.mp hrun
  exact ⟨t, ht, scheduled_of_run ht, (Prod.ext_iff.mp hstatus).1, (Prod.ext_iff.mp hstatus).2⟩

end Fiber

end CppUtils
