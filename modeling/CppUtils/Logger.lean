import Mathlib.Logic.Function.Basic

/-!
# The streams of the logger

`Logger::stream`, `Logger::getInstance` and `Logger::release` of `log/logger.cpp`, for any number of
threads. The streams own what each thread points to. An object is numbered when it is made, so that
two objects at one address are different ones. A `LOG_X` of a thread is one or two calls of
`getInstance` and, unless its level is filtered out, a call of `stream`, and other threads may call
something in between.
-/

namespace CppUtils

structure Logger (τ : Type) where
  /-- `instance` is not null. -/
  isInstance : Bool
  streams : List Nat
  tms : List Nat
  t_pLogStream : τ → Option Nat
  t_tm : τ → Option Nat
  /-- How many objects have been made. -/
  made : Nat

namespace Logger

inductive Event (τ : Type) where
  | getInstance
  | stream (t : τ)
  | release
deriving DecidableEq

variable {τ : Type}

/-- The static members before any initializer runs. -/
def new : Logger τ where
  isInstance := false
  streams := []
  tms := []
  t_pLogStream := fun _ => none
  t_tm := fun _ => none
  made := 0

def getInstance (s : Logger τ) : Logger τ := { s with isInstance := true }

def release (s : Logger τ) : Logger τ :=
  if s.isInstance then { s with streams := [], tms := [], isInstance := false } else s

variable [DecidableEq τ]

/-- The first `stream` of a thread. -/
def openStream (s : Logger τ) (t : τ) : Logger τ :=
  { s with
    t_pLogStream := Function.update s.t_pLogStream t (some s.made)
    streams := s.streams ++ [s.made]
    t_tm := Function.update s.t_tm t (some (s.made + 1))
    tms := s.tms ++ [s.made + 1]
    made := s.made + 2 }

/-- What is left in the thread-local pointers is what `makeLog` uses and `stream` returns. -/
def stream (s : Logger τ) (t : τ) : Logger τ :=
  match s.t_pLogStream t with
  | none => s.openStream t
  | some _ => s

def step (s : Logger τ) : Event τ → Logger τ
  | .getInstance => s.getInstance
  | .stream t => s.stream t
  | .release => s.release

def run (events : List (Event τ)) : Logger τ := events.foldl step new

end Logger

end CppUtils
