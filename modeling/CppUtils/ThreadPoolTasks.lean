import CppUtils.MessageQueue
import CppUtils.ThreadPool

/-!
# The tasks of `cct/threadPool.cpp`

A pool that `start` runs through, its threads in `thread_routine`, and any number of clients that
add tasks. A task is `std::function<void()>`: what it does to the pool is that it may add further
tasks before it returns, if it returns at all. A task that throws ends the process and is left out,
and so is a `pthread_create` that fails.
-/

namespace CppUtils

/-- Where a thread of the pool is: not created, in `_taskQueue.pull()`, or in `t()`. -/
inductive Routine (α : Type) where
  | created
  | pulling
  | running (item : Nat × α)

/-- Thread `i` of the pool is `.inl i` to the queue, and a client is `.inr c`. -/
structure PoolRun (κ α : Type) where
  _threads : List Thread
  _taskQueue : MQ (Nat ⊕ κ) α
  /-- Where the loop of `start` is. -/
  next : Nat
  routine : Nat → Routine α
  /-- The tasks that returned, with the thread that ran them, in order. -/
  finished : List (Nat × Nat × α)

namespace PoolRun

variable {κ α : Type}

def ofPool (pool : ThreadPool) : PoolRun κ α where
  _threads := pool._threads
  _taskQueue := MQ.new
  next := 0
  routine := fun _ => .created
  finished := []

def addTask (s : PoolRun κ α) (t : α) : PoolRun κ α :=
  { s with _taskQueue := s._taskQueue.push t }

/-- One turn of the loop of `start`. -/
def startNext (s : PoolRun κ α) : Option (PoolRun κ α) := do
  let thread ← s._threads[s.next]?
  let thread ← thread.start
  some { s with
    _threads := s._threads.set s.next thread
    next := s.next + 1
    routine := Function.update s.routine s.next .pulling }

section Workers

variable [DecidableEq κ]

/-- `Task t = _taskQueue.pull();` from where it has the mutex to where it releases it. -/
def pull (s : PoolRun κ α) (i : Nat) : PoolRun κ α :=
  { s with
    _taskQueue := s._taskQueue.pull (.inl i)
    routine := match s._taskQueue.q with
      | [] => s.routine
      | item :: _ => Function.update s.routine i (.running item) }

/-- `t();` returns. -/
def finish (s : PoolRun κ α) (i : Nat) (item : Nat × α) : PoolRun κ α :=
  { s with
    routine := Function.update s.routine i .pulling
    finished := s.finished ++ [(i, item)] }

inductive Label (κ α : Type) where
  | start
  | addTask (c : κ) (t : α)
  | spawn (i : Nat) (t : α)
  | pull (i : Nat)
  | finish (i : Nat)
  | spurious (i : Nat)

inductive Step : PoolRun κ α → Label κ α → PoolRun κ α → Prop
  | start {s s' : PoolRun κ α} (hs : s.startNext = some s') : Step s .start s'
  | addTask {s : PoolRun κ α} {c : κ} (t : α) (hc : s._taskQueue.status (.inr c) = .outside) :
      Step s (.addTask c t) (s.addTask t)
  | spawn {s : PoolRun κ α} {i : Nat} {item : Nat × α} (t : α) (hi : s.routine i = .running item) :
      Step s (.spawn i t) (s.addTask t)
  | pull {s : PoolRun κ α} {i : Nat} (hi : s.routine i = .pulling)
      (hawake : s._taskQueue.status (.inl i) ≠ .asleep) : Step s (.pull i) (s.pull i)
  | finish {s : PoolRun κ α} {i : Nat} {item : Nat × α} (hi : s.routine i = .running item) :
      Step s (.finish i) (s.finish i item)
  | spurious {s : PoolRun κ α} {i : Nat} (hi : s.routine i = .pulling)
      (hasleep : s._taskQueue.status (.inl i) = .asleep) :
      Step s (.spurious i) { s with _taskQueue := { s._taskQueue with
        status := Function.update s._taskQueue.status (.inl i) .awake } }

end Workers

end PoolRun

end CppUtils
