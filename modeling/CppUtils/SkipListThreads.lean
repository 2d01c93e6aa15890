import CppUtils.Lib.Transition
import CppUtils.SkipList
import Mathlib.Logic.Function.Basic

/-!
# Threads on one skip list

Any number of threads call `insert` and `find`, and in the second relation `erase` as well. An
`insert` runs under `_lock` from its search to its end and is one step. A `find` is three: `findPre`
under the lock, the read of `pre->next[0]` after it has been released, and the comparison under the
lock again.
-/

namespace CppUtils

namespace SkipList

/-- How far a thread is in `find`. -/
inductive Finder (K : Type) where
  | outside
  | located (key : K) (pre : Nat)
  | loaded (key : K) (node : Option Nat)
  | returned (key : K) (result : Option Nat)

/-- A skip list with its threads. -/
structure Shared (τ K V : Type) where
  list : SkipList K V
  finder : τ → Finder K

inductive ThreadLabel (τ K V : Type) where
  | insert (t : τ) (key : K) (val : V) (randomLevel : Nat)
  | findPre (t : τ) (key : K)
  | load (t : τ)
  | check (t : τ)

variable {τ K V : Type}

def ThreadLabel.thread : ThreadLabel τ K V → τ
  | insert t _ _ _ => t
  | findPre t _ => t
  | load t => t
  | check t => t

/-- The key a step inserts. -/
def ThreadLabel.key? : ThreadLabel τ K V → Option K
  | insert _ key _ _ => some key
  | _ => none

/-- The thread is not inside `find`. -/
def Finder.Free (f : Finder K) : Prop :=
  match f with
  | outside => True
  | returned _ _ => True
  | _ => False

def Shared.new [Inhabited K] [Inhabited V] (maxLevel : Nat) : Shared τ K V where
  list := SkipList.new maxLevel
  finder := fun _ => .outside

inductive ThreadStep [DecidableEq τ] [LinearOrder K] :
    Shared τ K V → ThreadLabel τ K V → Shared τ K V → Prop
  | insert {s : Shared τ K V} {list : SkipList K V} {t : τ} {key : K} {val : V} {randomLevel : Nat}
      {ret : Int} (ht : (s.finder t).Free)
      (hlevel : 1 ≤ randomLevel ∧ randomLevel ≤ s.list.maxLevel)
      (hcall : s.list.insert key val randomLevel = some (ret, list)) :
      ThreadStep s (.insert t key val randomLevel) { s with list := list }
  | findPre {s : Shared τ K V} {t : τ} {key : K} {pre : Nat} (ht : (s.finder t).Free)
      (hpre : s.list.findPre key = some pre) :
      ThreadStep s (.findPre t key)
        { s with finder := Function.update s.finder t (.located key pre) }
  | load {s : Shared τ K V} {t : τ} {key : K} {pre : Nat} {node : Option Nat}
      (ht : s.finder t = .located key pre) (hnode : s.list.nextAt 0 pre = some node) :
      ThreadStep s (.load t)
        { s with finder := Function.update s.finder t (.loaded key node) }
  | check {s : Shared τ K V} {t : τ} {key : K} {node result : Option Nat}
      (ht : s.finder t = .loaded key node) (hresult : s.list.findCheck key node = some result) :
      ThreadStep s (.check t)
        { s with finder := Function.update s.finder t (.returned key result) }

/-! ### With `erase` -/

inductive SharedLabel (τ K V : Type) where
  | step (label : ThreadLabel τ K V)
  | erase (t : τ) (key : K)

def SharedLabel.thread : SharedLabel τ K V → τ
  | .step label => label.thread
  | .erase t _ => t

/-- An `erase` runs under `_lock` to its end and is one step. -/
inductive SharedStep [DecidableEq τ] [LinearOrder K] :
    Shared τ K V → SharedLabel τ K V → Shared τ K V → Prop
  | step {s s' : Shared τ K V} {label : ThreadLabel τ K V} (hstep : ThreadStep s label s') :
      SharedStep s (.step label) s'
  | erase {s : Shared τ K V} {list : SkipList K V} {t : τ} {key : K} (ht : (s.finder t).Free)
      (hcall : s.list.erase key = some list) :
      SharedStep s (.erase t key) { s with list := list }

end SkipList

end CppUtils
