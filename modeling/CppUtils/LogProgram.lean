import CppUtils.LogArchive
import CppUtils.LogSystem

/-!
# A process that logs, with its files

The threads of a `LogSystem` and the back end, which writes to the disk. Every step has a date, and
`mainRoutine` asks for it when it opens a file.
-/

namespace CppUtils

open LogRotation

structure LogProgram (τ Archive : Type) where
  system : LogSystem τ
  dir : Directory (File Archive)
  /-- The dates under which the files were opened, in order. -/
  dates : List Date

namespace LogProgram

variable {τ Archive : Type}

def new (clocks : τ → Clock) (rollSize : Int) (dir : Directory (File Archive)) :
    LogProgram τ Archive :=
  ⟨.new clocks rollSize, dir, []⟩

/-- What `mainRoutine` sees. -/
def disk (s : LogProgram τ Archive) : LogDisk Archive := ⟨s.system.backend, s.dir, s.dates⟩

variable [DecidableEq τ]

def step (tar : Tar Archive) (p : Process) (s : LogProgram τ Archive)
    (label : LogSystem.Label τ × Date) : Option (LogProgram τ Archive) :=
  match label.1 with
  | .mainRoutine =>
      (s.disk.mainRoutine tar p label.2).map fun disk =>
        ⟨{ s.system with backend := disk.log }, disk.dir, disk.dates⟩
  | _ => (s.system.step label.1).map fun system => { s with system }

/-- The step as a relation. -/
def Step (tar : Tar Archive) (p : Process) (s : LogProgram τ Archive)
    (label : LogSystem.Label τ × Date) (s' : LogProgram τ Archive) : Prop :=
  s.step tar p label = some s'

end LogProgram

end CppUtils
