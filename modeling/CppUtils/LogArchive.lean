import CppUtils.AsyncLogging
import CppUtils.LogRotation

/-!
# The log files on the disk

`rollFile` with the script it runs, and the files that `mainRoutine` appends to. A file is opened
under a name that holds the date, so the days of a process have archives of their own. What was
given to `fwrite` counts as being in the file, and each file goes by one spelling of its path.

`tar` is not part of the program. It is a parameter, with what the script relies on as assumptions
(`Tar.Lawful`), and these are about names that `tar` stores and unpacks as they are (`Portable`).
-/

namespace CppUtils.LogRotation

/-- What a name stands for: bytes, or an archive. -/
inductive File (Archive : Type) where
  | text (content : List Byte)
  | archive (a : Archive)

namespace Directory

def create {α : Type} (dir : Directory α) (name : Name) (file : α) : Directory α :=
  { names := insert name dir.names
    content := Function.update dir.content name file }

/-- Each of the files is created, in place of what is there. -/
def createAll {α : Type} (dir : Directory α) (files : List (Name × α)) : Directory α :=
  files.foldl (fun dir file => dir.create file.1 file.2) dir

/-- `rm name`. -/
def rm {α : Type} (dir : Directory α) (name : Name) : Directory α :=
  { dir with names := dir.names.erase name }

/-- `rm frontname.log*`. -/
def rmLogs {α : Type} (dir : Directory α) (front : Frontname) : Directory α :=
  { dir with names := dir.names.filter fun name => ¬ front.log <+: name }

/-- The files that `frontname.log*` stands for, in the order of the shell. -/
def logs {α : Type} (dir : Directory α) (front : Frontname) : List Name :=
  (dir.names.filter fun name => front.log <+: name).sort NameLe

end Directory

/-- `frontname + ".tar"`. -/
def Frontname.tarname (front : Frontname) : Name := front.name ++ bytes ".tar"

/-- `'.'.join(filename.split('.')[:-1])`, where it is a word for the shell. -/
def frontname (filename : Name) : Option Frontname :=
  let name := [(0x2e : Byte)].intercalate (filename.splitOn 0x2e).dropLast
  if h : name.all isPlain = true then some ⟨name, List.all_eq_true.mp h⟩ else none

/-! ### `tar` -/

/-- A relative path that stays inside the working directory. A colon would make the name of an
archive that of a host, and a leading '-' that of a file an option. -/
structure Portable (name : Name) : Prop where
  ne_nil : name ≠ []
  plain : ∀ b ∈ name, isPlain b = true
  colon : (0x3a : Byte) ∉ name
  option : name.head? ≠ some 0x2d
  relative : name.head? ≠ some 0x2f
  inside : bytes ".." ∉ name.splitOn 0x2f

/-- Of what an archive holds beside its members, their times for example, nothing is read. -/
structure Tar (Archive : Type) where
  members : Archive → List (Name × File Archive)
  /-- `tar -zcf tarname names`, the names being those that a pattern stands for. -/
  pack : Name → List Name → Directory (File Archive) → Directory (File Archive)
  /-- `tar -zxf tarname`. -/
  unpack : Name → Directory (File Archive) → Directory (File Archive)

variable {Archive : Type}

structure Tar.Lawful (tar : Tar Archive) : Prop where
  /-- The files are put into a new archive. If a pattern stands for no file, the archive is empty,
  and `tar` fails, which nobody looks at. -/
  pack : ∀ tarname names dir, Portable tarname → tarname ∉ names →
    (∀ name ∈ names, Portable name ∧ name ∈ dir.names) →
    ∃ archive, tar.members archive = names.map (fun name => (name, dir.content name)) ∧
      tar.pack tarname names dir = dir.create tarname (.archive archive)
  /-- The members are put into the directory. -/
  unpack : ∀ tarname dir archive, Portable tarname → tarname ∈ dir.names →
    dir.content tarname = .archive archive → (∀ member ∈ tar.members archive, Portable member.1) →
    tar.unpack tarname dir = dir.createAll (tar.members archive)

/-! ### The script and its caller -/

def TarLogFile (tar : Tar Archive) (filename : Name) (dir : Directory (File Archive)) :
    Option (Directory (File Archive)) := do
  let front ← frontname filename
  if front.tarname ∈ dir.names then
    let dir := tar.unpack front.tarname dir
    let dir := dir.rm front.tarname
    let (dir, _) ← renameLogs front dir
    let dir := tar.pack front.tarname (dir.logs front) dir
    some (dir.rmLogs front)
  else some (tar.pack front.tarname (dir.logs front) dir)

/-- `fopen(name, "a")`. -/
def fopen (dir : Directory (File Archive)) (name : Name) : Directory (File Archive) :=
  if name ∈ dir.names then dir else dir.create name (.text [])

/-- `fwrite` to a file opened so. -/
def fwrite (dir : Directory (File Archive)) (name : Name) (logline : List Byte) :
    Directory (File Archive) :=
  match dir.content name with
  | .text content =>
      { dir with content := Function.update dir.content name (.text (content ++ logline)) }
  | .archive _ => dir

/-- What `strftime` writes for `"%Y-%m-%d"`. -/
structure Date where
  text : Name
  digits : ∀ b ∈ text, b ∈ bytes "0123456789-"
  length : text.length = 10
deriving DecidableEq

/-- What the names of the log files of a process have in common. -/
structure Process where
  _basename : Name
  portable : Portable _basename
  /-- `formatInteger(getpid())`. -/
  pid : Name
  digits : ∀ b ∈ pid, b ∈ bytes "0123456789"
  /-- A file name and the byte behind it fit into `newfile`. -/
  short : _basename.length + pid.length < 83

/-- The name of a log file without `".log0"`. -/
def Process.front (p : Process) (date : Date) : Frontname where
  name := p._basename ++ bytes "." ++ date.text ++ bytes "." ++ p.pid
  plain := by
    have hdot : ∀ b ∈ bytes ".", isPlain b = true := by decide +kernel
    have hdate : ∀ b ∈ bytes "0123456789-", isPlain b = true := by decide +kernel
    have hpid : ∀ b ∈ bytes "0123456789", isPlain b = true := by decide +kernel
    intro b hb
    simp only [List.mem_append] at hb
    rcases hb with (((hb | hb) | hb) | hb) | hb
    · exact p.portable.plain b hb
    · exact hdot b hb
    · exact hdate b (date.digits b hb)
    · exact hdot b hb
    · exact hpid b (p.digits b hb)

def rollFile (tar : Tar Archive) (p : Process) (date : Date) (dir : Directory (File Archive)) :
    Option (Name × Directory (File Archive)) := do
  let ret := (p.front date).name ++ bytes ".log0"
  -- `memcpy(newfile, ret.c_str(), ret.size())` into `char newfile[100]`, zero before
  if ret.length < 100 then
    let dir ← TarLogFile tar ret dir
    some (ret, dir)
  else none

end CppUtils.LogRotation

namespace CppUtils

open LogRotation

/-- The back end with its files on the disk. -/
structure LogDisk (Archive : Type) where
  log : AsyncLogging
  dir : Directory (File Archive)
  /-- The dates under which the files were opened, in order. -/
  dates : List Date

namespace LogDisk

variable {Archive : Type}

def new (rollSize : Int) (dir : Directory (File Archive)) : LogDisk Archive :=
  ⟨.new rollSize, dir, []⟩

/-- `mainRoutine` calls `rollFile` before it does anything else, and where the sums say so. -/
def rolls (log : AsyncLogging) : Bool :=
  match log.pc with
  | .starting => true
  | .unlocked =>
      (AsyncLogging.needWrite log.taken).any fun n => toInt (log.written + n) > log.rollSize
  | _ => false

/-- The bytes that a turn of the loop that writes gives to `append`. -/
def output (log : AsyncLogging) : List Byte :=
  match log.pc, log.taken with
  | .writing _, some buf :: _ => buf
  | _, _ => []

/-- A part of `mainRoutine`, on this date. -/
def mainRoutine (tar : Tar Archive) (p : Process) (date : Date) (s : LogDisk Archive) :
    Option (LogDisk Archive) := do
  let log ← s.log.mainStep
  if rolls s.log then
    let (fname, dir) ← rollFile tar p date s.dir
    some { log, dir := fopen dir fname, dates := s.dates ++ [date] }
  else
    match s.dates.getLast? with
    | none => some { s with log }
    | some opened => some { s with
        log
        dir := fwrite s.dir ((p.front opened).name ++ bytes ".log0") (output s.log) }

inductive Label where
  | append (logline : List Byte)
  | mainRoutine (date : Date)
  | stop

inductive Step (tar : Tar Archive) (p : Process) : LogDisk Archive → Label → LogDisk Archive → Prop
  | append {s : LogDisk Archive} {logline : List Byte} {log : AsyncLogging}
      (hlen : logline.length ≤ kBufferSize)
      (happend : s.log.append logline logline.length = some log) :
      Step tar p s (.append logline) { s with log }
  | mainRoutine {s s' : LogDisk Archive} {date : Date}
      (hmain : s.mainRoutine tar p date = some s') : Step tar p s (.mainRoutine date) s'
  | stop {s : LogDisk Archive} : Step tar p s .stop { s with log := s.log.clearRunning }

end LogDisk

end CppUtils
