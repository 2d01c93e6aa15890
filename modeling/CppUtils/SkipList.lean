import CppUtils.Machine
import CppUtils.Lib.LinkedMemory
import CppUtils.Lib.Memory
import Mathlib.Order.Lattice

/-!
# The skip list of `ds/kv_skiplist.h`

`SkipList<K, V>` on a heap of nodes. A node's `next` array has a fixed length; an access outside it,
through the null pointer or to a deleted node fails, and so does a second `delete`. Each function
below runs under `_lock`, except that `find` is split at the two places where it does not hold it.
The level `getRandomLevel` returns is an argument of `insert`. Log lines are left out.
-/

namespace CppUtils

/-- `Node<K, V>`. -/
structure SkipList.Node (K V : Type) where
  k : K
  v : V
  next : List (Option Nat)
  level : Nat
deriving DecidableEq

structure SkipList (K V : Type) where
  maxLevel : Nat
  curLevel : Nat
  head : Nat
  /-- `_counts` while there are fewer than 2^31 nodes, since it is an `int`. -/
  counts : Int
  heap : Memory (SkipList.Node K V)
deriving DecidableEq

namespace SkipList

variable {K V : Type}

def createNode (key : K) (val : V) (level : Nat) : Node K V where
  k := key
  v := val
  next := List.replicate (level + 1) none
  level := level

def new [Inhabited K] [Inhabited V] (maxLevel : Nat) : SkipList K V where
  maxLevel := maxLevel
  curLevel := 0
  head := 0
  counts := 0
  heap := Memory.empty.alloc (createNode default default maxLevel)

/-- `p->next[i]`. -/
def nextAt (s : SkipList K V) (i p : Nat) : Option (Option Nat) :=
  (s.heap.read p).bind fun n => n.next[i]?

/-- `p->next[i] = q`. -/
def setNext (s : SkipList K V) (i p : Nat) (q : Option Nat) : Option (SkipList K V) :=
  match s.heap.read p with
  | none => none
  | some n =>
      if i < n.next.length then
        some { s with heap := s.heap.write p { n with next := n.next.set i q } }
      else
        none

/-- `update[i] = p`. -/
def setUpdate (update : List (Option Nat)) (i p : Nat) : Option (List (Option Nat)) :=
  if i < update.length then some (update.set i (some p)) else none

section Search

variable [LinearOrder K]

/-- `p->GetKey() < key`. -/
def keyLt (s : SkipList K V) (key : K) (p : Nat) : Option Bool :=
  (s.heap.read p).map fun n => decide (n.k < key)

/-- `p && p->GetKey() == key`. -/
def keyEq (s : SkipList K V) (key : K) (p : Option Nat) : Option Bool :=
  match p with
  | none => some false
  | some p => (s.heap.read p).map fun n => decide (n.k = key)

/-- The loop over the levels below the given one, which `findPre`, `insert` and `erase` share. A
walk along a level visits no node twice, so more steps than there are nodes are a loop without end.
-/
def search (s : SkipList K V) (key : K) : Nat → Nat → List (Option Nat) →
    Option (Nat × List (Option Nat))
  | 0, current, update => some (current, update)
  | i + 1, current, update => do
      let current ← LinkedMemory.walkWhile (s.nextAt i) (s.keyLt key) (s.heap.fresh + 1) current
      search s key i current (← setUpdate update i current)

/-- The search from the head, with a fresh `update` array. -/
def locate (s : SkipList K V) (key : K) : Option (Nat × List (Option Nat)) :=
  s.search key (s.curLevel + 1) s.head (List.replicate (s.maxLevel + 1) none)

def findPre (s : SkipList K V) (key : K) : Option Nat := (s.locate key).map Prod.fst

/-- The second half of `find`, on the pointer read in between. -/
def findCheck (s : SkipList K V) (key : K) (pre : Option Nat) : Option (Option Nat) :=
  (s.keyEq key pre).map fun found => if found then pre else none

/-- `find` when nothing happens between its parts. -/
def find (s : SkipList K V) (key : K) : Option (Option Nat) := do
  s.findCheck key (← s.nextAt 0 (← s.findPre key))

/-- One round of the linking loop of `insert`. -/
def link (update : List (Option Nat)) (node : Nat) (s : SkipList K V) (i : Nat) :
    Option (SkipList K V) := do
  let pre ← update[i]?.join
  let s ← s.setNext i node (← s.nextAt i pre)
  s.setNext i pre (some node)

def insert (s : SkipList K V) (key : K) (val : V) (randomLevel : Nat) :
    Option (Int × SkipList K V) := do
  let (current, update) ← s.locate key
  let current ← s.nextAt 0 current
  if ← s.keyEq key current then
    some (1, s)
  else
    let update ← (List.range' (s.curLevel + 1) (randomLevel - (s.curLevel + 1))).foldlM
      (fun update i => setUpdate update i s.head) update
    let node := s.heap.fresh
    let s := { s with
      curLevel := if randomLevel > s.curLevel then randomLevel else s.curLevel
      heap := s.heap.alloc (createNode key val randomLevel) }
    let s ← (List.range randomLevel).foldlM (link update node) s
    some (0, { s with counts := s.counts + 1 })

/-- The unlinking loop of `erase`, with this many rounds left at level `i`. -/
def unlink (update : List (Option Nat)) (current : Nat) : Nat → Nat → SkipList K V →
    Option (SkipList K V)
  | 0, _, s => some s
  | rounds + 1, i, s => do
      let pre ← update[i]?.join
      if (← s.nextAt i pre) ≠ some current then
        some s
      else
        let s ← s.setNext i pre (← s.nextAt i current)
        unlink update current rounds (i + 1) s

/-- `while (_curLevel > 0 && _head->next[_curLevel] == NULL) _curLevel--;` -/
def lower (s : SkipList K V) : Nat → Option Nat
  | 0 => some 0
  | i + 1 => do
      if (← s.nextAt (i + 1) s.head) = none then lower s i else some (i + 1)

/-- `delete p`. -/
def delete (s : SkipList K V) (p : Option Nat) : Option (SkipList K V) :=
  match p with
  | none => some s
  | some p => (s.heap.read p).map fun _ => { s with heap := s.heap.free p }

def erase (s : SkipList K V) (key : K) : Option (SkipList K V) := do
  let (current, update) ← s.locate key
  let current ← s.nextAt 0 current
  let s ←
    match current, ← s.keyEq key current with
    | some p, true => unlink update p s.curLevel 0 s
    | _, _ => some s
  let curLevel ← s.lower s.curLevel
  { s with curLevel := curLevel, counts := s.counts - 1 }.delete current

end Search

/-- The inner loop of `display`, from the pointer `current` on; `j` nodes are on the line already.
`outK` and `outV` are what `<<` prints of a key and a value. -/
def displayRow (outK : K → List Byte) (outV : V → List Byte) (s : SkipList K V) (i : Nat) :
    Nat → Nat → Option Nat → Option (List Byte)
  | 0, _, _ => none
  | _ + 1, _, none => some []
  | fuel + 1, j, some current => do
      let n ← s.heap.read current
      let rest ← displayRow outK outV s i fuel (j + 1) (← s.nextAt i current)
      some ((if j ≠ 0 then bytes "\t" else []) ++
        (bytes "(key: " ++ outK n.k ++ bytes ", val: " ++ outV n.v ++ bytes ")") ++ rest)

/-- The outer loop of `display`, over the levels below the given one. -/
def displayLevels (outK : K → List Byte) (outV : V → List Byte) (s : SkipList K V) :
    Nat → Option (List Byte)
  | 0 => some []
  | i + 1 => do
      let row ← s.displayRow outK outV i (s.heap.fresh + 1) 0 (← s.nextAt i s.head)
      some (row ++ bytes "\n" ++ (← displayLevels outK outV s i))

def display (outK : K → List Byte) (outV : V → List Byte) (s : SkipList K V) :
    Option (List Byte) :=
  (s.displayLevels outK outV (s.curLevel + 1)).map (bytes "\n****** Skip List *******\n" ++ ·)

/-- `~SkipList`, which deletes the head alone: what is left of the heap. -/
def destroy (s : SkipList K V) : Option (Memory (Node K V)) :=
  (s.heap.read s.head).map fun _ => s.heap.free s.head

end SkipList

end CppUtils
