import CppUtils.Lib.Transition
import Mathlib.Logic.Function.Basic

/-!
# The fibers of `cct/fiber.cpp`

One thread, with its main fiber and the fibers created on it, which are numbered in the order of
their construction. What user code does between two calls into the fiber library does not matter
here, so a point of the user code is only a label of the call it has made last, `none` before the
first one.
-/

namespace CppUtils

namespace Fiber

inductive Status where
  | FREE
  | INIT
  | RUNNABLE
  | RUNNING
  | SLEEPING
  | EXCEPT
deriving DecidableEq

/-- What a `ucontext_t` resumes. -/
inductive Context (L : Type) where
  /-- User code on the thread's own stack. -/
  | main (point : Option L)
  /-- The entry of `MainFunc`, as `makecontext` leaves it, on the stack of a fiber. -/
  | mainFunc (stack : Nat)
  /-- The callback on the stack of a fiber, called by a `MainFunc` with this `cur`. -/
  | callback (stack cur : Nat) (point : Option L)
  /-- The `assert(false)` of `FiberExit`. -/
  | neverBack (stack : Nat)

/-- The continuation of user code right after the call labelled `l`. -/
def Context.after {L : Type} (l : L) : Context L → Context L
  | .main _ => .main (some l)
  | .callback stack cur _ => .callback stack cur (some l)
  | ctx => ctx

end Fiber

structure Fiber (L : Type) where
  _status : Fiber.Status
  _ctx : Fiber.Context L
  /-- Whether `_cb` holds a function. -/
  _cb : Bool

namespace Fiber

/-- The thread-local variables, the fibers, and the continuation being executed. -/
structure Thread (L : Type) where
  t_curFiber : Option Nat
  t_threadFiber : Option Nat
  ids : Nat
  fibers : Nat → Fiber L
  control : Context L

variable {L : Type}

def Thread.new : Thread L where
  t_curFiber := none
  t_threadFiber := none
  ids := 0
  fibers := fun id => ⟨.FREE, .mainFunc id, false⟩
  control := .main none

namespace Thread

def setStatus (s : Thread L) (id : Nat) (status : Status) : Thread L :=
  { s with fibers := Function.update s.fibers id { s.fibers id with _status := status } }

def setThis (s : Thread L) (f : Option Nat) : Thread L := { s with t_curFiber := f }

/-- `swapcontext`, which saves `saved` for its caller. -/
def swapcontext (s : Thread L) (saved : Context L) (out into : Nat) : Thread L :=
  let fibers := Function.update s.fibers out { s.fibers out with _ctx := saved }
  { s with fibers, control := (fibers into)._ctx }

def newMain (s : Thread L) : Thread L :=
  { s with
    ids := s.ids + 1
    fibers := Function.update s.fibers s.ids ⟨.FREE, .mainFunc s.ids, false⟩ }

/-- The constructor of the other fibers. -/
def create (s : Thread L) (cb : Bool) : Thread L :=
  { s with
    ids := s.ids + 1
    fibers := Function.update s.fibers s.ids ⟨.INIT, .mainFunc s.ids, cb⟩ }

def getThis (s : Thread L) : Thread L :=
  match s.t_threadFiber with
  | none => { newMain s with t_threadFiber := some s.ids, t_curFiber := some s.ids }
  | some _ => s

/-- `swapIn` of the fiber `id`, called at `l`. It fails on a null `t_threadFiber`. -/
def swapIn (s : Thread L) (id : Nat) (l : L) : Option (Thread L) := do
  let s := s.setThis (some id)
  let s := s.setStatus id .RUNNING
  some (s.swapcontext (s.control.after l) (← s.t_threadFiber) id)

def swapOut (s : Thread L) (id : Nat) (l : L) : Option (Thread L) := do
  let s := s.setThis s.t_threadFiber
  let s := s.setStatus id .RUNNABLE
  some (s.swapcontext (s.control.after l) id (← s.t_threadFiber))

def yieldSleeping (s : Thread L) (id : Nat) (l : L) : Option (Thread L) := do
  let s := s.setThis s.t_threadFiber
  let s := s.setStatus id .SLEEPING
  some (s.swapcontext (s.control.after l) id (← s.t_threadFiber))

def fiberExit (s : Thread L) (stack cur : Nat) : Option (Thread L) := do
  let s := s.setThis s.t_threadFiber
  some (s.swapcontext (.neverBack stack) cur (← s.t_threadFiber))

/-- `MainFunc` up to the call of the callback, or to its end when there is none. -/
def mainFunc (s : Thread L) (stack : Nat) : Option (Thread L) := do
  let s := s.getThis
  let cur ← s.t_curFiber
  if (s.fibers cur)._cb = false then (s.setStatus cur .FREE).fiberExit stack cur
  else some { s with control := .callback stack cur none }

/-- `MainFunc` from where the callback has returned. -/
def mainFuncReturned (s : Thread L) (stack cur : Nat) : Option (Thread L) :=
  (s.setStatus cur .FREE).fiberExit stack cur

/-- `MainFunc` from where it has caught an exception of the callback. -/
def mainFuncCaught (s : Thread L) (stack cur : Nat) : Option (Thread L) :=
  (s.setStatus cur .EXCEPT).fiberExit stack cur

def finished (s : Thread L) (id : Nat) : Bool :=
  match (s.fibers id)._ctx with
  | .neverBack _ => true
  | _ => false

end Thread

inductive Action (L : Type) where
  /-- The main fiber creates a fiber, with or without a callback. -/
  | create (cb : Bool)
  | swapIn (id : Nat) (l : L)
  /-- The fiber that was swapped in for the first time runs `MainFunc`. -/
  | enter (id : Nat)
  | swapOut (id : Nat) (l : L)
  | yieldSleeping (id : Nat) (l : L)
  | returns (id : Nat)
  | throws (id : Nat)

namespace Thread

/-- One action. The main fiber swaps in created fibers that are not finished, and a child calls
`swapOut` and `yieldSleeping` on itself. -/
def act (s : Thread L) (action : Action L) : Option (Thread L) :=
  match s.control, action with
  | .main _, .create cb => some (s.create cb)
  | .main _, .swapIn id l =>
      if some id ≠ s.t_threadFiber ∧ id < s.ids ∧ s.finished id = false then s.swapIn id l else none
  | .mainFunc stack, .enter id => if id = stack then s.mainFunc stack else none
  | .callback stack _ _, .swapOut id l => if id = stack then s.swapOut id l else none
  | .callback stack _ _, .yieldSleeping id l => if id = stack then s.yieldSleeping id l else none
  | .callback stack cur _, .returns id =>
      if id = stack then s.mainFuncReturned stack cur else none
  | .callback stack cur _, .throws id => if id = stack then s.mainFuncCaught stack cur else none
  | _, _ => none

/-- The actions, taken from the thread's first `GetThis` on. -/
def run (actions : List (Action L)) : Option (Thread L) := actions.foldlM act Thread.new.getThis

end Thread

end Fiber

end CppUtils
