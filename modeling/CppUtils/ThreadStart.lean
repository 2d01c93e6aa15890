import CppUtils.ThreadPool

/-!
# Starting and joining the threads of `cct/thread.h`

Any number of `Thread` objects, each with an owner who makes one call after another, and for each
the system's thread that runs `startThread`. A signal may interrupt `Semaphore::wait`, which then
returns all the same, and nobody looks at what `pthread_create` returns. The program ends where an
assertion fails or an empty `std::function` is called, and is lost where a thread uses an object
that its owner has destroyed or joins one that was not made.
-/

namespace CppUtils.ThreadStart

structure Semaphore where
  _sem : Nat
deriving DecidableEq

namespace Semaphore

def new (val : Nat) : Semaphore := ⟨val⟩

def SEM_VALUE_MAX : Nat := 2147483647

/-- `sem_wait`, which blocks at zero. -/
def wait (s : Semaphore) : Option Semaphore := if s._sem = 0 then none else some ⟨s._sem - 1⟩

/-- `sem_post`, which changes nothing on `EOVERFLOW`. -/
def wakeup (s : Semaphore) : Semaphore := if s._sem = SEM_VALUE_MAX then s else ⟨s._sem + 1⟩

end Semaphore

structure Thread (ρ : Type*) where
  _started : Bool
  _joined : Bool
  _tid : Int
  _name : List Byte
  /-- Nothing for an empty `std::function`. -/
  _start_routine : Option ρ
  _sem : Semaphore

/-- `std::to_string`. -/
def toString (tn : Int) : List Byte := Numeral.writeSigned (bytes "0123456789") 0 45 tn

/-- The name that `setDefaultName` leaves, where `tn` is the number it draws. -/
def setDefaultName (tn : Int) (_name : List Byte) : List Byte :=
  if _name = [] then bytes "thread#" ++ toString tn else _name

variable {ρ : Type*}

def Thread.new (tn : Int) (start_routine : Option ρ) (s : List Byte) : Thread ρ where
  _started := false
  _joined := false
  _tid := 0
  _name := setDefaultName tn s
  _start_routine := start_routine
  _sem := .new 0

/-- The object as `ThreadPool` sees it. -/
def Thread.pooled (t : Thread ρ) : CppUtils.Thread := ⟨t._name, t._started⟩

/-- The statement of `startThread` that comes next. -/
inductive Place where
  | wakeup
  | beforeRoutine
  | startRoutine
  /-- Inside the routine. -/
  | running
  | afterRoutine
  | exited
deriving DecidableEq

/-- The thread that `pthread_create` made, with its copy of the routine in `ThreadData`. -/
structure Child (ρ : Type*) where
  place : Place
  _start_routine : Option ρ
  tid : Int

inductive Owner where
  | ready
  /-- In `_sem.wait()`. -/
  | waiting
  /-- In `pthread_join`. -/
  | joining
deriving DecidableEq

inductive Fault where
  | assertion
  | badFunctionCall
  /-- A destroyed object is used. -/
  | dangling
  /-- `pthread_join` of no thread. -/
  | noThread
deriving DecidableEq

/-- An object, its owner and its thread. -/
structure Party (ρ : Type*) where
  /-- Nothing once it is destroyed. -/
  thread : Option (Thread ρ)
  owner : Owner
  child : Option (Child ρ)
  /-- The routine of the object when `start` was called. -/
  begun : Option (Option ρ)
  /-- `_sem.wait()` came back with the semaphore. -/
  woken : Bool
  /-- `pthread_join` came back. -/
  joined : Bool
  /-- The routines that were called. -/
  runs : List ρ

def Party.new (thread : Thread ρ) : Party ρ where
  thread := some thread
  owner := .ready
  child := none
  begun := none
  woken := false
  joined := false
  runs := []

inductive Action (ρ : Type*) where
  | addThreadFunc (start_routine : Option ρ)
  /-- `start`, up to `_sem.wait()`: the thread that is made, if any. -/
  | start (tid : Option Int)
  | wait
  /-- `_sem.wait()` returns with `EINTR`. -/
  | interrupt
  /-- `join`, up to `pthread_join`. -/
  | join
  | joined
  | destroy
  /-- The next statement of `startThread`. -/
  | startThread

namespace Party

def startThread (p : Party ρ) : Option (Except Fault (Party ρ)) :=
  p.child.bind fun c =>
    match c.place with
    | .wakeup =>
        match p.thread with
        | none => some (.error .dangling)
        | some t => some (.ok { p with
            thread := some { t with _sem := t._sem.wakeup }
            child := some { c with place := .beforeRoutine } })
    | .beforeRoutine =>
        match p.thread with
        | none => some (.error .dangling)
        | some t => some (.ok { p with
            thread := some { t with _tid := c.tid }
            child := some { c with place := .startRoutine } })
    | .startRoutine =>
        match c._start_routine with
        | none => some (.error .badFunctionCall)
        | some routine => some (.ok { p with
            child := some { c with place := .running }
            runs := p.runs ++ [routine] })
    | .running => some (.ok { p with child := some { c with place := .afterRoutine } })
    | .afterRoutine => some (.ok { p with child := some { c with place := .exited } })
    | .exited => none

/-- A call on the object, by an owner who is in none. -/
def call (p : Party ρ) (body : Thread ρ → Except Fault (Party ρ)) :
    Option (Except Fault (Party ρ)) :=
  if p.owner = .ready then p.thread.map body else none

def addThreadFunc (p : Party ρ) (start_routine : Option ρ) : Option (Except Fault (Party ρ)) :=
  p.call fun t => .ok { p with thread := some { t with _start_routine := start_routine } }

def start (p : Party ρ) (tid : Option Int) : Option (Except Fault (Party ρ)) :=
  p.call fun t =>
    if t._started then .error .assertion
    else .ok { p with
      thread := some { t with _started := true }
      child := tid.map fun tid => ⟨.wakeup, t._start_routine, tid⟩
      owner := .waiting
      begun := some t._start_routine }

def wait (p : Party ρ) : Option (Except Fault (Party ρ)) :=
  if p.owner = .waiting then
    p.thread.bind fun t => t._sem.wait.map fun sem =>
      .ok { p with thread := some { t with _sem := sem }, owner := .ready, woken := true }
  else none

def interrupt (p : Party ρ) : Option (Except Fault (Party ρ)) :=
  if p.owner = .waiting then some (.ok { p with owner := .ready }) else none

def join (p : Party ρ) : Option (Except Fault (Party ρ)) :=
  p.call fun t =>
    if t._started = false ∨ t._joined then .error .assertion
    else if p.child.isNone then .error .noThread
    else .ok { p with thread := some { t with _joined := true }, owner := .joining }

def pthreadJoin (p : Party ρ) : Option (Except Fault (Party ρ)) :=
  if p.owner = .joining ∧ p.child.any fun c => c.place = .exited then
    some (.ok { p with owner := .ready, joined := true })
  else none

/-- `~Thread`. -/
def destroy (p : Party ρ) : Option (Except Fault (Party ρ)) :=
  p.call fun _ => .ok { p with thread := none }

def step (p : Party ρ) : Action ρ → Option (Except Fault (Party ρ))
  | .addThreadFunc start_routine => p.addThreadFunc start_routine
  | .start tid => p.start tid
  | .wait => p.wait
  | .interrupt => p.interrupt
  | .join => p.join
  | .joined => p.pthreadJoin
  | .destroy => p.destroy
  | .startThread => p.startThread

end Party

structure Threads (ρ : Type*) where
  /-- `Thread::threadNum`. -/
  threadNum : Int
  parties : List (Party ρ)
  /-- What went wrong, and with which object. -/
  fault : Option (Nat × Fault)

namespace Threads

def new : Threads ρ := ⟨0, [], none⟩

inductive Label (ρ : Type*) where
  /-- `Thread(start_routine, s)`. -/
  | construct (start_routine : Option ρ) (s : List Byte)
  | act (i : Nat) (action : Action ρ)

def step (s : Threads ρ) : Label ρ → Option (Threads ρ)
  | .construct start_routine name =>
      if s.fault.isNone then
        some { s with
          threadNum := toInt (s.threadNum + 1)
          parties := s.parties ++ [.new (.new s.threadNum start_routine name)] }
      else none
  | .act i action =>
      if s.fault.isNone then
        s.parties[i]?.bind fun p => (p.step action).map fun
          | .error fault => { s with fault := some (i, fault) }
          | .ok p => { s with parties := s.parties.set i p }
      else none

/-- The step as a relation. -/
def Step (s : Threads ρ) (label : Label ρ) (s' : Threads ρ) : Prop := s.step label = some s'

/-- What the program does by itself. -/
def Label.Work : Label ρ → Prop
  | .act _ .wait => True
  | .act _ .joined => True
  | .act _ .startThread => True
  | _ => False

end Threads

end CppUtils.ThreadStart
