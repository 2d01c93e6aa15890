import CppUtils.Lib.Numeral
import CppUtils.Machine

/-!
# The thread pool of `cct/threadPool.h`

How a pool is configured and started. The queue of tasks, which only running threads take from, is
left out, and so is `join`, which the endless loop of `thread_routine` never lets return. An
assertion that fails yields nothing.
-/

namespace CppUtils

/-- The `Thread` of `cct/thread.h`. -/
structure Thread where
  _name : List Byte
  _started : Bool

def Thread.new (name : List Byte) : Thread := ⟨name, false⟩

def Thread.start (t : Thread) : Option Thread :=
  if t._started then none else some { t with _started := true }

structure ThreadPool where
  _numThreads : Int
  _threads : List Thread

namespace ThreadPool

def kMaxNumThreads : Int := 6

/-- `snprintf` of `%d` into `char buf[4]`. -/
def buf (i : Nat) : List Byte :=
  (Numeral.spell (bytes "0123456789") 0 (Numeral.lowFirst 10 i)).take 3

/-- The body of the loop of `init`. -/
def pushThread (pool : ThreadPool) (i : Nat) : ThreadPool :=
  { pool with _threads := pool._threads ++ [Thread.new (bytes "ThreadPool" ++ buf i)] }

def init (pool : ThreadPool) : ThreadPool :=
  (List.range pool._numThreads.toNat).foldl pushThread pool

def setNumThreads (pool : ThreadPool) (num : Int) : ThreadPool :=
  let pool :=
    if num > kMaxNumThreads then { pool with _numThreads := kMaxNumThreads }
    else if num < 0 then { pool with _numThreads := 0 }
    else { pool with _numThreads := num }
  pool.init

/-- `ThreadPool()`. -/
def new : ThreadPool := ⟨0, []⟩

/-- `ThreadPool(numThreads)`. -/
def ofNumThreads (numThreads : Int) : ThreadPool :=
  let pool : ThreadPool := ⟨0, []⟩
  (pool.setNumThreads numThreads).init

def getNumThreads (pool : ThreadPool) : Int := pool._numThreads

def start (pool : ThreadPool) : Option ThreadPool := do
  let threads ← pool._threads.mapM Thread.start
  some { pool with _threads := threads }

end ThreadPool

end CppUtils
