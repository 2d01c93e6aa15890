import CppUtils.Yaml
import Mathlib.Logic.Function.Basic

/-!
# The configuration variables of `config/config.h`

A variable has a type of its own, which is a field here. A callback neither throws nor touches other
variables. It runs with the lock free and may set its own one, and what else it does is a change of
the rest of the program, `W`. A conversion yields nothing where it throws a `std::exception`.
-/

namespace CppUtils

structure ConfigVar (W : Type) where
  T : Type
  /-- `operator==` -/
  eq : T → T → Bool
  ToStr : T → Option Str
  FromStr : Str → Option T
  _val : T
  /-- From `oldVal`, `newVal`, the value of the variable and the rest of the program: what the last
  two have become. -/
  _cb : Option (T → T → T → W → T × W)

namespace ConfigVar

variable {W : Type}

def setValue (p : ConfigVar W) (v : p.T) (world : W) : ConfigVar W × W :=
  if p.eq v p._val then (p, world)
  else
    match p._cb with
    | none => ({ p with _val := v }, world)
    | some cb =>
        let after := cb p._val v v world
        ({ p with _val := after.1 }, after.2)

def toString (p : ConfigVar W) : Str :=
  match p.ToStr p._val with
  | some str => str
  | none => []

def fromString (p : ConfigVar W) (val : Str) (world : W) : Bool × ConfigVar W × W :=
  match p.FromStr val with
  | some v => (true, p.setValue v world)
  | none => (false, p, world)

end ConfigVar

structure Config (W : Type) where
  _configVars : Str → Option (ConfigVar W)
  world : W

def dot : Byte := 46#8

/-- The name of the node under a key of the map `name`. -/
def childName (name key : Str) : Str := if name.isEmpty then key else name ++ [dot] ++ key

mutual

def listAllNodes (name : Str) (node : Node) (allNodes : List (Str × Node)) : List (Str × Node) :=
  let allNodes := allNodes ++ [(name, node)]
  match node with
  | .null => allNodes
  | .scalar _ => allNodes
  | .sequence _ => allNodes
  | .map entries => listEntries name entries allNodes

def listEntries (name : Str) (entries : List (Str × Node)) (allNodes : List (Str × Node)) :
    List (Str × Node) :=
  match entries with
  | [] => allNodes
  | (key, value) :: entries =>
      listEntries name entries (listAllNodes (childName name key) value allNodes)

end

namespace Config

variable {W : Type}

def find (config : Config W) (name : Str) : Option (ConfigVar W) := config._configVars name

/-- The body of the loop of `loadFromYaml`. -/
def loadNode (yaml : Yaml) (config : Config W) (i : Str × Node) : Config W :=
  let name := i.1
  if name.isEmpty then config
  else
    match config.find name with
    | none => config
    | some p =>
        let (_, p, world) := p.fromString (yaml.emit i.2) config.world
        { _configVars := Function.update config._configVars name (some p), world }

def loadFromYaml (yaml : Yaml) (config : Config W) (node : Node) : Config W :=
  (listAllNodes [] node []).foldl (loadNode yaml) config

end Config

end CppUtils
