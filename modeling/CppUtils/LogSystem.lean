import CppUtils.AsyncLogging
import Mathlib.Logic.Function.Basic

/-!
# The life of an `AsyncLogInit`

Any number of threads log in full-buffer mode, each through the `LogStream` that its first statement
makes, and `g_output` is `AsyncLogging::append`. What a thread does to its own stream is visible to
nobody else, so an action of a statement is one step and each of its calls of `g_output` another,
before the next action. Then the `AsyncLogInit` is destroyed: `Logger::release` destroys the
streams, in any order, and `AsyncLogging::stop` runs.
-/

namespace CppUtils

structure Worker where
  stream : LogStream
  /-- The rest of the statement that is being executed. -/
  todo : List Action
  /-- How many calls of `g_output` have returned. -/
  delivered : Nat
  /-- The statements so far. -/
  history : List Statement

def Worker.new (clock : Clock) : Worker := ⟨.new clock, [], 0, []⟩

/-- Between two statements. -/
def Worker.Idle (w : Worker) : Prop := w.todo = [] ∧ w.delivered = w.stream.sent.length

instance (w : Worker) : Decidable w.Idle := inferInstanceAs (Decidable (_ ∧ _))

/-- Where the destruction of the `AsyncLogInit` has come to. -/
inductive Phase where
  | alive
  | releasing
  /-- The loop of `stop`. -/
  | polling
  | drained
  | joining
  | joined
deriving DecidableEq

structure LogSystem (τ : Type) where
  workers : τ → Worker
  /-- The threads whose streams are in `Logger::streams`. -/
  streams : List τ
  backend : AsyncLogging
  phase : Phase
  /-- What was appended to the back end, with the thread that logged it. -/
  order : List (τ × List Byte)

namespace LogSystem

variable {τ : Type}

def new (clocks : τ → Clock) (rollSize : Int) : LogSystem τ where
  workers := fun t => .new (clocks t)
  streams := []
  backend := .new rollSize
  phase := .alive
  order := []

inductive Label (τ : Type) where
  | start (t : τ) (statement : Statement)
  | act (t : τ)
  | deliver (t : τ)
  | mainRoutine
  | release
  | destroy (t : τ)
  | released
  | poll
  | clearRunning
  | join

variable [DecidableEq τ]

/-- `AsyncLogOutput` for the next call of `g_output` on the stream of `t`. -/
def deliver (s : LogSystem τ) (t : τ) : Option (LogSystem τ) := do
  let w := s.workers t
  let out ← w.stream.sent[w.delivered]?
  let backend ← s.backend.append out.msg out.len
  some { s with
    workers := Function.update s.workers t { w with delivered := w.delivered + 1 }
    backend := backend
    order := s.order ++ [(t, out.msg.take out.len.toNat)] }

/-- `LOG_X`, up to the body of `makeLog`. -/
def start (s : LogSystem τ) (t : τ) (statement : Statement) : Option (LogSystem τ) :=
  let w := s.workers t
  if s.phase = .alive ∧ w.Idle then
    some { s with
      workers := Function.update s.workers t
        { w with todo := statement.actions, history := w.history ++ [statement] }
      streams := if t ∈ s.streams then s.streams else s.streams ++ [t] }
  else none

/-- The next action of `t`, once the calls of `g_output` of the last have returned. -/
def act (s : LogSystem τ) (t : τ) : Option (LogSystem τ) :=
  let w := s.workers t
  match w.todo with
  | [] => none
  | action :: rest =>
      if w.delivered = w.stream.sent.length then
        (action.exec kFullBuffer w.stream).map fun stream =>
          { s with
            workers := Function.update s.workers t { w with stream := stream, todo := rest } }
      else none

/-- The destructor of one element of `streams`. -/
def destroy (s : LogSystem τ) (t : τ) : Option (LogSystem τ) :=
  if s.phase = .releasing ∧ t ∈ s.streams then
    let w := s.workers t
    deliver { s with
      workers := Function.update s.workers t { w with stream := w.stream.destroy }
      streams := s.streams.erase t } t
  else none

/-- `size = _currentBuffer->size()` and the test of the loop. -/
def poll (s : LogSystem τ) : Option (LogSystem τ) :=
  if s.phase = .polling then
    s.backend.currentBuffer.map fun buffer =>
      if buffer.length = 0 then { s with phase := .drained } else s
  else none

def step (s : LogSystem τ) : Label τ → Option (LogSystem τ)
  | .start t statement => s.start t statement
  | .act t => s.act t
  | .deliver t => if s.phase = .alive then s.deliver t else none
  | .mainRoutine => s.backend.mainStep.map fun backend => { s with backend := backend }
  | .release =>
      if s.phase = .alive ∧ ∀ t ∈ s.streams, (s.workers t).Idle then
        some { s with phase := .releasing }
      else none
  | .destroy t => s.destroy t
  | .released =>
      if s.phase = .releasing ∧ s.streams = [] then some { s with phase := .polling } else none
  | .poll => s.poll
  | .clearRunning =>
      if s.phase = .drained then
        some { s with phase := .joining, backend := s.backend.clearRunning }
      else none
  | .join =>
      if s.phase = .joining ∧ s.backend.pc = .done then some { s with phase := .joined } else none

/-- The statement of `t` that starts here. -/
def Label.statements (t : τ) : Label τ → List Statement
  | .start u statement => if u = t then [statement] else []
  | _ => []

/-- The step as a relation. -/
def Step (s : LogSystem τ) (label : Label τ) (s' : LogSystem τ) : Prop := s.step label = some s'

end LogSystem

end CppUtils
