import CppUtils.Config
import CppUtils.Lib.SortedKeys
import Mathlib.Data.List.Lex

/-!
# The registry of `config/config.h`

`Config::getConfigVars()` maps names to shared objects, and what `lookup`, `find` and `traverse`
give out are pointers to these. `ConfigVar<T>` is made for one of the types `T` that the program
uses, which `dynamic_pointer_cast` tells apart. A callback runs after the store, with the lock free,
and what it does to variables are further calls. The variables have locks, but the map has none: a
lookup that adds to it does not run at the same time as another call.
-/

namespace CppUtils

/-- A type `T` with what `ConfigVar<T>` uses of it. -/
structure VarType where
  T : Type
  /-- `operator==` -/
  eq : T → T → Bool
  ToStr : T → Option Str
  FromStr : Str → Option T

variable {ι : Type} [DecidableEq ι]

/-- `ConfigVar<T>`, with the name and the description of `ConfigVarBase`. -/
structure Registry.Var (types : ι → VarType) (κ : Type) where
  _name : Str
  _description : Str
  type : ι
  _val : (types type).T
  _cb : Option κ

/-- A callback with the values it is called with. -/
abbrev Registry.Call (types : ι → VarType) (κ : Type) := κ × Σ i, (types i).T × (types i).T

structure Registry (types : ι → VarType) (κ : Type) where
  /-- The objects, each at the position that is its address. -/
  objects : List (Registry.Var types κ)
  /-- The entries of the `std::map`, in its order. -/
  _configVars : List (Str × Nat)
  invoked : List (Registry.Call types κ)

namespace Registry

variable {types : ι → VarType} {κ : Type}

namespace Var

def setValue (x : Var types κ) (v : (types x.type).T) : Var types κ × List (Call types κ) :=
  if (types x.type).eq v x._val then (x, [])
  else ({ x with _val := v }, x._cb.toList.map fun cb => (cb, ⟨x.type, x._val, v⟩))

def fromString (x : Var types κ) (val : Str) : Var types κ × List (Call types κ) :=
  match (types x.type).FromStr val with
  | some v => x.setValue v
  | none => (x, [])

end Var

def empty : Registry types κ where
  objects := []
  _configVars := []
  invoked := []

/-- `std::string` compares as `unsigned char`. -/
def key (entry : Str × Nat) : List Nat := entry.1.map BitVec.toNat

def find (s : Registry types κ) (name : Str) : Option Nat :=
  (s._configVars.find? fun entry => entry.1 = name).map Prod.snd

/-- `lookup<T>(name)`. -/
def lookup (s : Registry types κ) (i : ι) (name : Str) : Option Nat := do
  let p ← s.find name
  let x ← s.objects[p]?
  if x.type = i then some p else none

/-- `_configVars[name] = new ConfigVar<T>(val, name, description)`. -/
def add (s : Registry types κ) (x : Var types κ) : Registry types κ :=
  let entry := (x._name, s.objects.length)
  { s with
    objects := s.objects ++ [x]
    _configVars := SortedKeys.below key (key entry) s._configVars ++
      entry :: SortedKeys.atLeast key (key entry) s._configVars }

/-- `lookup<T>(name, val, description)`. -/
def lookupOrAdd (s : Registry types κ) (i : ι) (name : Str) (val : (types i).T)
    (description : Str) : Option Nat × Registry types κ :=
  match s.lookup i name with
  | some p => (some p, s)
  | none =>
      match s.find name with
      | some _ => (none, s)
      | none => (some s.objects.length, s.add ⟨name, description, i, val, none⟩)

/-- The pointers that `traverse` hands over, in order. They stand in a copy of the map. -/
def traverse (s : Registry types κ) : List Nat := s._configVars.map Prod.snd

/-- What a member of the object at `p` makes of it. -/
def put (s : Registry types κ) (p : Nat) (made : Var types κ × List (Call types κ)) :
    Registry types κ :=
  { s with objects := s.objects.set p made.1, invoked := s.invoked ++ made.2 }

/-- One turn of the loop of `loadFromYaml`, of any thread. -/
def loadNode (s : Registry types κ) (name text : Str) : Registry types κ :=
  if name.isEmpty then s
  else
    match s.find name with
    | none => s
    | some p =>
        match s.objects[p]? with
        | none => s
        | some x => s.put p (x.fromString text)

inductive Label (types : ι → VarType) (κ : Type) where
  | lookup (i : ι) (name : Str) (val : (types i).T) (description : Str)
  | setValue (p : Nat) (i : ι) (v : (types i).T)
  | fromString (p : Nat) (val : Str)
  | setOnChangeCallBack (p : Nat) (cb : Option κ)
  | loadNode (name text : Str)

/-- The turns of `loadFromYaml`. The callbacks that they call run between them, and so may calls of
other threads. -/
def loadFromYaml (yaml : Yaml) (node : Node) : List (Label types κ) :=
  (listAllNodes [] node []).map fun i => .loadNode i.1 (yaml.emit i.2)

/-- A member is called through a pointer of the right type that was given out. -/
def step (s : Registry types κ) : Label types κ → Option (Registry types κ)
  | .lookup i name val description => some (s.lookupOrAdd i name val description).2
  | .setValue p i v => do
      let x ← s.objects[p]?
      if h : i = x.type then some (s.put p (x.setValue (h ▸ v))) else none
  | .fromString p val => do
      let x ← s.objects[p]?
      some (s.put p (x.fromString val))
  | .setOnChangeCallBack p cb => do
      let x ← s.objects[p]?
      some (s.put p ({ x with _cb := cb }, []))
  | .loadNode name text => some (s.loadNode name text)

end Registry

end CppUtils
