import CppUtils.Lib.Transition
import Mathlib.Logic.Function.Basic

/-!
# The message queue of `itc/mq.h`

Any number of threads share one `MQ`. A critical section runs alone, from taking the mutex to
releasing it, and is one step; `_cond.wait()` ends a section with its thread asleep, and the section
that follows it starts when the thread has been woken and has the mutex again.

Every pushed value carries the number of its push, and the queue remembers what was pushed, taken
and cleared. Nothing the code does depends on these.
-/

namespace CppUtils

/-- Where a thread is with respect to `_cond`. -/
inductive Status where
  | outside
  | asleep
  | awake
deriving DecidableEq

/-- `pthread_cond_broadcast`. -/
def Status.wakeupAll {τ : Type} (status : τ → Status) (t : τ) : Status :=
  if status t = asleep then awake else status t

structure MQ (τ α : Type) where
  q : List (Nat × α)
  status : τ → Status
  /-- Everything that was ever pushed, in order. -/
  pushed : List (Nat × α)
  /-- What the pulls took, with the thread that took it, in order. -/
  taken : List (τ × Nat × α)
  /-- The numbers of what `clear` dropped. -/
  cleared : List Nat
  /-- `q.front()` or `q.pop()` was called on an empty queue. -/
  underflow : Bool

namespace MQ

variable {τ α : Type}

def new : MQ τ α where
  q := []
  status := fun _ => .outside
  pushed := []
  taken := []
  cleared := []
  underflow := false

def push (s : MQ τ α) (data : α) : MQ τ α :=
  { s with
    q := s.q ++ [(s.pushed.length, data)]
    pushed := s.pushed ++ [(s.pushed.length, data)]
    status := Status.wakeupAll s.status }

/-- `T result = q.front(); q.pop(); return result;` -/
def pop [DecidableEq τ] (s : MQ τ α) (t : τ) : MQ τ α :=
  match s.q with
  | [] => { s with underflow := true }
  | item :: rest =>
      { s with
        q := rest
        taken := s.taken ++ [(t, item)]
        status := Function.update s.status t .outside }

/-- `pull` from where it has the mutex, at the start or out of `wait`, to where it releases it. -/
def pull [DecidableEq τ] (s : MQ τ α) (t : τ) : MQ τ α :=
  if s.q.isEmpty then { s with status := Function.update s.status t .asleep }
  else s.pop t

def clear (s : MQ τ α) : MQ τ α :=
  { s with
    q := []
    cleared := s.cleared ++ s.q.map Prod.fst }

inductive Label (τ α : Type) where
  | push (t : τ) (data : α)
  | pull (t : τ)
  | resume (t : τ)
  | spurious (t : τ)
  | clear (t : τ)

inductive Step [DecidableEq τ] : MQ τ α → Label τ α → MQ τ α → Prop
  | push {s : MQ τ α} {t : τ} (data : α) (ht : s.status t = .outside) :
      Step s (.push t data) (s.push data)
  | pull {s : MQ τ α} {t : τ} (ht : s.status t = .outside) : Step s (.pull t) (s.pull t)
  | resume {s : MQ τ α} {t : τ} (ht : s.status t = .awake) : Step s (.resume t) (s.pull t)
  | spurious {s : MQ τ α} {t : τ} (ht : s.status t = .asleep) :
      Step s (.spurious t) { s with status := Function.update s.status t .awake }
  | clear {s : MQ τ α} {t : τ} (ht : s.status t = .outside) : Step s (.clear t) s.clear

end MQ

end CppUtils
