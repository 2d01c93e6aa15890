import CppUtils.Machine
import Mathlib.Data.List.Basic

/-!
# The front end of the log

A thread writes its log records into the `_buf` of its own `LogStream`. The model keeps the text
`_buf .. _cur` as a list and `_end` as an offset from `_buf`, which may be negative or past the
text. The thread-locals of `logStream.cpp` are kept beside the stream, and `sent` remembers the
calls of `g_output`.
-/

namespace CppUtils

/-! ### What `operator<<` appends -/

def digits : List Byte := bytes "0123456789"

/-- The loop of `formatInteger`, lowest digit first. `i % 10` takes the sign of `i`, and an index
outside the table fails. -/
def integerDigits : Nat → Int → Option (List Byte)
  | 0, _ => none
  | fuel + 1, i => do
      let digit ← if 0 ≤ i.tmod 10 then digits[(i.tmod 10).toNat]? else none
      let rest ← if i.tdiv 10 = 0 then some [] else integerDigits fuel (i.tdiv 10)
      some (digit :: rest)

def formatInteger (v : Int) : Option (List Byte) :=
  (integerDigits (v.natAbs + 1) v).map fun s => (if v < 0 then s ++ bytes "-" else s).reverse

def hex : List Byte := bytes "0123456789abcdef"

/-- The loop of `formatHex`, lowest digit first. -/
def hexDigits : Nat → Nat → List Byte
  | 0, _ => []
  | fuel + 1, tmp => if tmp = 0 then [] else hex.getD (tmp % 16) 0 :: hexDigits fuel (tmp / 16)

def formatHex (v : BitVec 64) : List Byte := (hexDigits 16 v.toNat ++ bytes "x0").reverse

/-- The argument of an `operator<<`. The integer types share one body. -/
inductive Arg where
  | bool (v : Bool)
  | char (v : Byte)
  | cstr (str : Option (List Byte))
  | integer (v : Int)
  | pointer (pv : BitVec 64)
deriving DecidableEq

/-- What is handed to `append`; a string ends before its first NUL. -/
def Arg.text : Arg → Option (List Byte)
  | bool v => some (bytes (if v then "T" else "F"))
  | char v => some [v]
  | cstr (some str) => some (str.takeWhile (· ≠ 0))
  | cstr none => some (bytes "(null)")
  | integer v => formatInteger v
  | pointer pv => some (formatHex pv)

/-! ### The stream -/

def kBufferSize : Nat := 1000 * 100

def kFullBuffer : Int := 0

def kLineBuffer : Int := 1

/-- The arguments of a call of `g_output`. -/
structure Output where
  len : Int
  msg : List Byte
deriving DecidableEq

/-- `t_needFlush` and `t_lastSecs`, which outlive the streams of their thread. -/
structure Clock where
  needFlush : Bool
  lastSecs : Int
deriving DecidableEq

structure LogStream where
  /-- The text from `_buf` to `_cur`. -/
  buf : List Byte
  /-- `_end - _buf`. -/
  endPos : Int
  clock : Clock
  /-- The calls of `g_output`, in order. -/
  sent : List Output
deriving DecidableEq

namespace LogStream

def new (clock : Clock) : LogStream where
  buf := []
  endPos := 0
  clock := clock
  sent := []

def avail (ls : LogStream) : Int := kBufferSize - ls.buf.length

/-- `g_output(_buf, completeLogLen())`. The bytes sent are those of the text. -/
def flush (ls : LogStream) : LogStream :=
  { ls with sent := ls.sent ++ [⟨toInt ls.endPos, ls.buf.take ls.endPos.toNat⟩] }

def destroy (ls : LogStream) : LogStream := { ls with endPos := ls.buf.length }.flush

/-- Where the scan of `append` over the last so many bytes stops: at a newline, or one before
`_buf`. -/
def lastNewline (text : List Byte) : Nat → Int
  | 0 => -1
  | tmp + 1 => if text[tmp]? = some (0x0a : Byte) then tmp else lastNewline text tmp

def flushLine (ls : LogStream) (ppos : Int) : LogStream :=
  if ppos ≠ 0 then
    let ppos := ppos + 1
    { ls with
      sent := ls.sent ++ [⟨toInt ppos, ls.buf.take ppos.toNat⟩]
      buf := ls.buf.drop ppos.toNat
      endPos := ls.endPos - ppos }
  else ls

/-- The first branch of `append`. -/
def store (level : Int) (ls : LogStream) (p : List Byte) : LogStream :=
  let ls := { ls with buf := ls.buf ++ p }
  if level = kLineBuffer then ls.flushLine (lastNewline ls.buf ls.buf.length) else ls

/-- The second branch of `append`, up to the recursive call. With `_end` outside the text the
`memmove` leaves the buffer. -/
def slide (ls : LogStream) : Option LogStream :=
  if 0 ≤ ls.endPos ∧ ls.endPos ≤ ls.buf.length then
    some { ls.flush with buf := ls.buf.drop ls.endPos.toNat, endPos := 0 }
  else none

/-- `append(p, len)` with so many calls left. `len` is an `int`, and a `memcpy` of a negative length
fails. -/
def appendFrom (level : Int) (p : List Byte) : Nat → LogStream → Option LogStream
  | 0, _ => none
  | calls + 1, ls =>
      let len := toInt p.length
      if ls.avail > len then
        if 0 ≤ len then some (ls.store level (p.take len.toNat)) else none
      else ls.slide.bind (appendFrom level p calls)

/-- After one slide the next changes nothing more, so two calls are as good as any number
(`appendFrom_eq_none`). -/
def append (level : Int) (ls : LogStream) (p : List Byte) : Option LogStream :=
  ls.appendFrom level p 2

/-- `operator<<` -/
def put (level : Int) (ls : LogStream) (arg : Arg) : Option LogStream :=
  arg.text.bind (ls.append level)

/-- What `formatTime` does besides writing the time. -/
def formatTime (level : Int) (ls : LogStream) (secs : Int) : LogStream :=
  if secs ≠ ls.clock.lastSecs then
    { ls with
      clock.needFlush :=
        ls.clock.needFlush || (ls.clock.lastSecs != 0 && level == kFullBuffer)
      clock.lastSecs := secs }
  else ls

/-- The lines of `makeLog` before the header. -/
def begin (ls : LogStream) : LogStream :=
  let ls := { ls with endPos := ls.buf.length }
  if ls.clock.needFlush then
    { ls.flush with buf := [], endPos := 0, clock.needFlush := false }
  else ls

/-- `_cur -= 3` -/
def backup (ls : LogStream) : Option LogStream :=
  if 3 ≤ ls.buf.length then some { ls with buf := ls.buf.take (ls.buf.length - 3) } else none

end LogStream

/-! ### Log statements -/

namespace Logger

inductive LEVEL where
  | NONE
  | TRACE
  | INFO
  | DEBUG
  | WARN
  | ERROR
  | FATAL
deriving DecidableEq

def levels : LEVEL → List Byte
  | .NONE => bytes "NONE"
  | .TRACE => bytes "TRACE"
  | .INFO => bytes "INFO"
  | .DEBUG => bytes "DEBUG"
  | .WARN => bytes "WARN"
  | .ERROR => bytes "ERROR"
  | .FATAL => bytes "FATAL"

end Logger

/-- The arguments of a `makeLog`, and what the clock and the kernel answer there. -/
structure Site where
  filename : List Byte
  line : Nat
  level : Logger.LEVEL
  func : Option (List Byte)
  secs : Int
  time : List Byte
  tid : Nat

/-- The arguments of the `<<` chain of `makeLog`. -/
def Site.header (site : Site) : List Arg :=
  [.cstr site.time, .char 0x20, .integer site.tid, .char 0x20,
    .cstr (Logger.levels site.level), .char 0x20, .cstr site.filename,
    .char 0x3a, .integer site.line, .cstr (bytes " - ")]

/-- The arguments of the chain with the function name. -/
def Site.funcHeader (func : List Byte) : List Arg :=
  [.char 0x20, .cstr func, .cstr (bytes " - ")]

namespace LogStream

def makeLog (level : Int) (ls : LogStream) (site : Site) : Option LogStream :=
  site.header.foldlM (put level) (ls.begin.formatTime level site.secs)

def makeLogFunc (level : Int) (ls : LogStream) (site : Site) (func : List Byte) :
    Option LogStream := do
  let ls ← ls.makeLog level site
  let ls ← ls.backup
  (Site.funcHeader func).foldlM (put level) ls

/-- `Logger::stream` of a thread that has its `LogStream`. -/
def stream (level : Int) (ls : LogStream) (site : Site) : Option LogStream :=
  match site.func with
  | none => ls.makeLog level site
  | some func => ls.makeLogFunc level site func

end LogStream

/-- A `LOG_` statement that is not filtered out, with the texts its `<<` hand to `append`. -/
structure Statement where
  site : Site
  body : List (List Byte)

def LogStream.log (level : Int) (ls : LogStream) (statement : Statement) : Option LogStream := do
  let ls ← ls.stream level statement.site
  statement.body.foldlM (append level) ls

/-! ### The same in small steps -/

/-- A part of a statement that calls `g_output` at most once, unless the record is too long. -/
inductive Action where
  | begin
  | formatTime (secs : Int)
  | put (arg : Arg)
  | append (p : List Byte)
  | backup
  | flush
deriving DecidableEq

def Action.exec (level : Int) (ls : LogStream) : Action → Option LogStream
  | begin => some ls.begin
  | formatTime secs => some (ls.formatTime level secs)
  | put arg => ls.put level arg
  | append p => ls.append level p
  | backup => ls.backup
  | flush => some ls.flush

def Site.actions (site : Site) : List Action :=
  [.begin, .formatTime site.secs] ++ site.header.map .put ++
    match site.func with
    | none => []
    | some func => .backup :: (Site.funcHeader func).map .put

def Statement.actions (statement : Statement) : List Action :=
  statement.site.actions ++ statement.body.map .append

/-! ### Runs over both buffer levels -/

/-- What a thread may do with its stream, and `Logger::SetBufferLevel`. -/
inductive Call where
  | makeLog (site : Site)
  | put (arg : Arg)
  | append (p : List Byte)
  | flush
  | setBufferLevel (level : Int)

inductive Event where
  | act (action : Action)
  | setBufferLevel (level : Int)
deriving DecidableEq

def Call.events : Call → List Event
  | makeLog site => site.actions.map .act
  | put arg => [.act (.put arg)]
  | append p => [.act (.append p)]
  | flush => [.act .flush]
  | setBufferLevel level => [.setBufferLevel level]

structure Front where
  level : Int
  stream : LogStream
deriving DecidableEq

def Front.new (clock : Clock) : Front := ⟨kFullBuffer, .new clock⟩

def Event.exec (front : Front) : Event → Option Front
  | act action => (action.exec front.level front.stream).map ({ front with stream := · })
  | setBufferLevel level => some { front with level := level }

/-! ### The small steps are the statement -/

theorem LogStream.stream_eq_foldlM (level : Int) (ls : LogStream) (site : Site) :
    ls.stream level site = site.actions.foldlM (Action.exec level) ls := by
  have hput (args : List Arg) (ls : LogStream) :
      (args.map Action.put).foldlM (Action.exec level) ls = args.foldlM (put level) ls := by
    rw [List.foldlM_map]
    rfl
  unfold stream Site.actions
  cases site.func with
  | none =>
      simp only [List.append_nil, List.foldlM_append, List.foldlM_cons, List.foldlM_nil,
        Action.exec, Option.bind_eq_bind, Option.bind_some, Option.pure_def, hput]
      rfl
  | some func =>
      simp only [List.foldlM_append, List.foldlM_cons, List.foldlM_nil, Action.exec,
        Option.bind_eq_bind, Option.bind_some, Option.pure_def, hput]
      rfl

theorem LogStream.log_eq_foldlM (level : Int) (ls : LogStream) (statement : Statement) :
    ls.log level statement = statement.actions.foldlM (Action.exec level) ls := by
  unfold log Statement.actions
  rw [List.foldlM_append, stream_eq_foldlM]
  simp only [List.foldlM_map]
  rfl

end CppUtils
