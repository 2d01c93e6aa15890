import CppUtils.LogStream
import CppUtils.Lib.Transition

/-!
# The back end of the log

`append` is one critical section. `mainRoutine` is cut at the points where another thread can come
in between: the test of `_running`, its critical section, the rolling of the file, and the writing
of each buffer. A section that finds nothing to do waits, and starts again.

A buffer is the text from `_buf` to `_cur`. Sums of `int` wrap around, and a null pointer that is
followed, or a copy past the end of an array, fails.
-/

namespace CppUtils

def BUFSIZE : Nat := 100 * 20000 * 2

abbrev Buffer := List Byte

abbrev BufferPointer := Option Buffer

namespace LogBuffer

def avail (buffer : Buffer) : Nat := BUFSIZE - buffer.length

def append (buffer : Buffer) (logline : List Byte) (len : Int) : Option Buffer :=
  if 0 ≤ len ∧ len ≤ logline.length ∧ buffer.length + len ≤ BUFSIZE then
    some (buffer ++ logline.take len.toNat)
  else none

end LogBuffer

/-- `append` of an `AppenderFile`. -/
def AppenderFile.append (file logline : List Byte) (len : Int) : Option (List Byte) :=
  if 0 ≤ len ∧ len ≤ logline.length then some (file ++ logline.take len.toNat) else none

/-- Where `mainRoutine` stands. -/
inductive Pc where
  | starting
  | test
  | lock
  | unlocked
  | writing (needWrite : Int)
  | done
deriving DecidableEq

structure AsyncLogging where
  running : Bool
  rollSize : Int
  currentBuffer : BufferPointer
  nextBuffer : BufferPointer
  buffers : List BufferPointer
  pc : Pc
  buffer1 : BufferPointer
  buffer2 : BufferPointer
  /-- The local `buffers`, from the one to write next. -/
  taken : List BufferPointer
  written : Int
  /-- The files that were closed, in order. -/
  closed : List (List Byte)
  /-- The file that is open. -/
  appender : Option (List Byte)
  /-- What was given to `append`, in order. -/
  appended : List (List Byte)
deriving DecidableEq

namespace AsyncLogging

/-- Constructed and started. -/
def new (rollSize : Int) : AsyncLogging where
  running := true
  rollSize := rollSize
  currentBuffer := some []
  nextBuffer := some []
  buffers := []
  pc := .starting
  buffer1 := none
  buffer2 := none
  taken := []
  written := 0
  closed := []
  appender := none
  appended := []

/-- The log files, in order. -/
def files (s : AsyncLogging) : List (List Byte) := s.closed ++ s.appender.toList

def append (s : AsyncLogging) (logline : List Byte) (len : Int) : Option AsyncLogging := do
  let currentBuffer ← s.currentBuffer
  let appended := s.appended ++ [logline.take len.toNat]
  if LogBuffer.avail currentBuffer > toSizeT len then
    let currentBuffer ← LogBuffer.append currentBuffer logline len
    some { s with currentBuffer := some currentBuffer, appended := appended }
  else
    -- `_nextBuffer` if there is one, and a new buffer otherwise
    let nextBuffer := s.nextBuffer.getD []
    let nextBuffer ← LogBuffer.append nextBuffer logline len
    some { s with
      buffers := s.buffers ++ [some currentBuffer]
      currentBuffer := some nextBuffer
      nextBuffer := none
      appended := appended }

/-! ### `mainRoutine` -/

/-- What precedes the loop. -/
def enter (s : AsyncLogging) : AsyncLogging :=
  { s with
    buffer1 := some []
    buffer2 := some []
    appender := some []
    written := 0
    pc := .test }

/-- `while(_running)`, and `buffers.clear()` or the end of the routine. -/
def test (s : AsyncLogging) : AsyncLogging :=
  if s.running then { s with taken := [], pc := .lock }
  else { s with closed := s.files, appender := none, pc := .done }

/-- The condition of the loop around the wait. -/
def nothingToDo (s : AsyncLogging) : Option Bool :=
  if s.running && s.buffers.isEmpty then s.currentBuffer.map List.isEmpty else some false

/-- The critical section. -/
def swap (s : AsyncLogging) : Option AsyncLogging := do
  let wait ← s.nothingToDo
  if wait then some s
  else
    some { s with
      currentBuffer := s.buffer1
      buffer1 := none
      nextBuffer := if s.nextBuffer.isNone then s.buffer2 else s.nextBuffer
      buffer2 := if s.nextBuffer.isNone then none else s.buffer2
      taken := s.buffers ++ [s.currentBuffer]
      buffers := s.taken
      pc := .unlocked }

/-- The sum of the sizes. -/
def needWrite (buffers : List BufferPointer) : Option Int :=
  buffers.foldlM (fun needWrite pBuf => pBuf.map fun buf => toInt (needWrite + buf.length)) 0

/-- New buffers for the old, and `rollFile` if the file is full. -/
def roll (s : AsyncLogging) : Option AsyncLogging := do
  let s := { s with buffer1 := some [], buffer2 := some (s.buffer2.getD []) }
  let needWrite ← needWrite s.taken
  let s :=
    if toInt (s.written + needWrite) > s.rollSize then
      { s with closed := s.files, appender := some [], written := 0 }
    else s
  some { s with pc := .writing needWrite }

/-- One turn of the loop that writes, or `written += needWrite` after the last. -/
def write (s : AsyncLogging) (needWrite : Int) : Option AsyncLogging :=
  match s.taken with
  | [] => some { s with written := toInt (s.written + needWrite), pc := .test }
  | pBuf :: rest => do
      let buf ← pBuf
      let file ← s.appender
      let file ← AppenderFile.append file buf (toInt buf.length)
      some { s with appender := some file, taken := rest }

def mainStep (s : AsyncLogging) : Option AsyncLogging :=
  match s.pc with
  | .starting => some s.enter
  | .test => some s.test
  | .lock => s.swap
  | .unlocked => s.roll
  | .writing needWrite => s.write needWrite
  | .done => none

/-- The end of `stop`, before the join. -/
def clearRunning (s : AsyncLogging) : AsyncLogging := { s with running := false }

inductive Label where
  | append (logline : List Byte)
  | mainRoutine
  | stop

/-- Front ends of any number append messages no longer than their buffer. -/
inductive Step : AsyncLogging → Label → AsyncLogging → Prop
  | append {s s' : AsyncLogging} {logline : List Byte} (hlen : logline.length ≤ kBufferSize)
      (happend : s.append logline logline.length = some s') : Step s (.append logline) s'
  | mainRoutine {s s' : AsyncLogging} (hmain : s.mainStep = some s') : Step s .mainRoutine s'
  | stop {s : AsyncLogging} : Step s .stop s.clearRunning

end AsyncLogging

end CppUtils
