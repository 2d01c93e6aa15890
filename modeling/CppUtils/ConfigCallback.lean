import CppUtils.Config
import CppUtils.Lib.Transition

/-!
# The callbacks of a configuration variable

`setValue` of `config/config.h` stores under the lock and calls the callback once the lock is free. A
callback may therefore throw, and may use the variable as any other code does, `setValue` included,
which calls it again. Below are one call of `fromString` with such a callback, and any number of
threads that call `setValue`.
-/

namespace CppUtils.Callback

/-- What a call of a callback has done when it is over. -/
structure Reaction (T W : Type) where
  /-- It has thrown a `std::exception`. -/
  thrown : Bool
  /-- The value of the variable. -/
  val : T
  world : W
  /-- The arguments of the calls of `_cb` that its own changes of the variable have led to. -/
  invoked : List (T × T)

/-- From `oldVal`, `newVal`, the value of the variable and the rest of the program. -/
abbrev OnChangeCallBack (T W : Type) := T → T → T → W → Reaction T W

structure ConfigVar (T W : Type) where
  /-- `operator==` -/
  eq : T → T → Bool
  FromStr : Str → Option T
  _val : T
  _cb : Option (OnChangeCallBack T W)

structure Outcome (T W R : Type) where
  result : R
  var : ConfigVar T W
  world : W
  /-- The arguments with which `_cb` was called in this call, by callbacks as well, in order. -/
  invoked : List (T × T)

namespace ConfigVar

variable {T W : Type}

/-- The section of `setValue` under the lock. It gives `oldVal` where the call goes on. -/
def store (p : ConfigVar T W) (v : T) : Option T × ConfigVar T W :=
  if p.eq v p._val then (none, p) else (some p._val, { p with _val := v })

/-- The result is whether an exception is thrown. -/
def setValue (p : ConfigVar T W) (v : T) (world : W) : Outcome T W Bool :=
  match p.store v with
  | (none, p) => ⟨false, p, world, []⟩
  | (some oldVal, p) =>
      match p._cb with
      | none => ⟨false, p, world, []⟩
      | some cb =>
          let after := cb oldVal v p._val world
          ⟨after.thrown, { p with _val := after.val }, after.world, (oldVal, v) :: after.invoked⟩

def fromString (p : ConfigVar T W) (val : Str) (world : W) : Outcome T W Bool :=
  match p.FromStr val with
  | none => ⟨false, p, world, []⟩
  | some v =>
      let call := p.setValue v world
      { call with result := !call.result }

end ConfigVar

/-! ### Threads -/

/-- A variable with its threads. -/
structure Shared (τ T W : Type) where
  var : ConfigVar T W
  /-- The threads between the store and the callback, with `oldVal` and `v`. They stand in the order
  of the stores, which nothing in the code keeps. -/
  due : List (τ × T × T)
  /-- The stores so far, each with the old value and the new one. -/
  stored : List (T × T)
  /-- The calls of the callback so far. -/
  invoked : List (T × T)

inductive Label (τ T : Type) where
  | store (t : τ) (v : T)
  | callback (t : τ)

namespace Shared

variable {τ T W : Type}

def new (var : ConfigVar T W) : Shared τ T W := ⟨var, [], [], []⟩

/-- The first step of a call of `setValue`. -/
def store (s : Shared τ T W) (t : τ) (v : T) : Shared τ T W :=
  match s.var.store v with
  | (none, _) => s
  | (some oldVal, var) =>
      { s with
        var
        due := if var._cb.isSome then s.due ++ [(t, oldVal, v)] else s.due
        stored := s.stored ++ [(oldVal, v)] }

inductive Step : Shared τ T W → Label τ T → Shared τ T W → Prop
  | store {s : Shared τ T W} {t : τ} (v : T) (ht : ∀ item ∈ s.due, item.1 ≠ t) :
      Step s (.store t v) (s.store t v)
  | callback {s : Shared τ T W} {t : τ} {call : T × T} {older newer : List (τ × T × T)}
      (hdue : s.due = older ++ (t, call) :: newer) :
      Step s (.callback t) { s with due := older ++ newer, invoked := s.invoked ++ [call] }

end Shared

end CppUtils.Callback
