import CppUtils.Fiber

/-!
# The references to fibers

A fiber lives as long as a `Fiber::ptr` to it: one of the user, the two thread-local ones, or the
local `cur` of a `MainFunc` that has not come to `FiberExit`. The functions of `cct/fiber.cpp` stand
here once more, with what they do to these references. Of the references of the user to one fiber
only the last one matters.
-/

namespace CppUtils.Fiber

structure Owned (L : Type) where
  thread : Thread L
  /-- The user has a reference to it. -/
  held : Nat → Bool
  /-- `cur` in the `MainFunc` on this stack. -/
  cur : Nat → Option Nat
  dead : Nat → Bool
  /-- The assertion of `~Fiber` has failed. -/
  aborted : Bool
  /-- An atomic `int`, which wraps around. -/
  totalFiberCounts : BitVec 32

namespace Owned

variable {L : Type}

/-- `GetThis`, which constructs the main fiber where there is none. -/
def getThis (s : Owned L) : Owned L :=
  match s.thread.t_threadFiber with
  | none => { s with thread := s.thread.getThis, totalFiberCounts := s.totalFiberCounts + 1 }
  | some _ => s

/-- A thread that has called `GetThis`. -/
def new : Owned L :=
  getThis
    { thread := Thread.new
      held := fun _ => false
      cur := fun _ => none
      dead := fun _ => false
      aborted := false
      totalFiberCounts := 0 }

def refers (s : Owned L) (id : Nat) : Bool :=
  s.held id || s.thread.t_curFiber = some id || s.thread.t_threadFiber = some id ||
    (List.range s.thread.ids).any fun stack => s.cur stack = some id

/-- `~Fiber` -/
def destroy (s : Owned L) (id : Nat) : Owned L :=
  let status := (s.thread.fibers id)._status
  { s with
    dead := Function.update s.dead id true
    aborted := s.aborted || !(status = .FREE || status = .EXCEPT)
    totalFiberCounts := s.totalFiberCounts - 1 }

/-- A reference to the fiber is gone. -/
def release (s : Owned L) (f : Option Nat) : Owned L :=
  match f with
  | none => s
  | some id => if s.refers id || s.dead id then s else s.destroy id

def setThis (s : Owned L) (f : Option Nat) : Owned L :=
  { s with thread := s.thread.setThis f }.release s.thread.t_curFiber

def create (s : Owned L) (cb : Bool) : Owned L :=
  { s with
    thread := s.thread.create cb
    held := Function.update s.held s.thread.ids true
    totalFiberCounts := s.totalFiberCounts + 1 }

def drop (s : Owned L) (id : Nat) : Owned L :=
  { s with held := Function.update s.held id false }.release (some id)

/-- What `swapIn`, `swapOut` and `yieldSleeping` of the fiber `id` do after `SetThis`. -/
def swap (s : Owned L) (id : Nat) (status : Status) (l : L) (out into : Nat) : Owned L :=
  let thread := s.thread.setStatus id status
  { s with thread := thread.swapcontext (thread.control.after l) out into }

def swapIn (s : Owned L) (id : Nat) (l : L) : Option (Owned L) := do
  let s := s.setThis (some id)
  some (s.swap id .RUNNING l (← s.thread.t_threadFiber) id)

def swapOut (s : Owned L) (id : Nat) (l : L) : Option (Owned L) := do
  let s := s.setThis s.thread.t_threadFiber
  some (s.swap id .RUNNABLE l id (← s.thread.t_threadFiber))

def yieldSleeping (s : Owned L) (id : Nat) (l : L) : Option (Owned L) := do
  let s := s.setThis s.thread.t_threadFiber
  some (s.swap id .SLEEPING l id (← s.thread.t_threadFiber))

/-- `sp.reset()`, where `sp` is the `cur` on the stack. -/
def resetCur (s : Owned L) (stack cur : Nat) : Owned L :=
  { s with cur := Function.update s.cur stack none }.release (some cur)

def fiberExit (s : Owned L) (stack cur : Nat) : Option (Owned L) := do
  let s := s.resetCur stack cur
  let s := s.setThis s.thread.t_threadFiber
  some { s with thread := s.thread.swapcontext (.neverBack stack) cur (← s.thread.t_threadFiber) }

def setStatus (s : Owned L) (id : Nat) (status : Status) : Owned L :=
  { s with thread := s.thread.setStatus id status }

/-- The end of `MainFunc`. -/
def finish (s : Owned L) (stack cur : Nat) (status : Status) : Option (Owned L) :=
  (s.setStatus cur status).fiberExit stack cur

def mainFunc (s : Owned L) (stack : Nat) : Option (Owned L) := do
  let s := s.getThis
  let cur ← s.thread.t_curFiber
  let s := { s with cur := Function.update s.cur stack (some cur) }
  if (s.thread.fibers cur)._cb = false then s.finish stack cur .FREE
  else some { s with thread := { s.thread with control := .callback stack cur none } }

/-- The user can call a function of the fiber. -/
def usable (s : Owned L) (id : Nat) : Bool := s.held id || s.thread.t_threadFiber = some id

end Owned

inductive Event (L : Type) where
  | action (a : Action L)
  /-- The main fiber drops the last reference of the user. -/
  | drop (id : Nat)

/-- One action of the user code that is executed, which may be on any stack. A failed assertion ends
the program. -/
def Owned.act {L : Type} (s : Owned L) (event : Event L) : Option (Owned L) :=
  if s.aborted then none
  else
    match s.thread.control, event with
    | .main _, .action (.create cb) | .callback _ _ _, .action (.create cb) => some (s.create cb)
    | .main _, .action (.swapIn id l) | .callback _ _ _, .action (.swapIn id l) =>
        if s.usable id then s.swapIn id l else none
    | .mainFunc stack, .action (.enter id) => if id = stack then s.mainFunc stack else none
    | .callback stack _ _, .action (.swapOut id l) => if id = stack then s.swapOut id l else none
    | .callback stack _ _, .action (.yieldSleeping id l) =>
        if id = stack then s.yieldSleeping id l else none
    | .callback stack cur _, .action (.returns id) =>
        if id = stack then s.finish stack cur .FREE else none
    | .callback stack cur _, .action (.throws id) =>
        if id = stack then s.finish stack cur .EXCEPT else none
    | .main _, .drop id => if s.held id then some (s.drop id) else none
    | _, _ => none

def Owned.run {L : Type} (events : List (Event L)) : Option (Owned L) :=
  events.foldlM Owned.act Owned.new

end CppUtils.Fiber
