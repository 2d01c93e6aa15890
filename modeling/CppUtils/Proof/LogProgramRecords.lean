import CppUtils.LogProgram
import CppUtils.Proof.LogArchiveRuns
import CppUtils.Proof.LogSystemLiveness

/-!
# From the statements to the archives

A `LogProgram` is a `LogSystem` (`system_step`), and its back end with the disk is a `LogDisk`
(`disk_step`), so what is known of the two holds together: after the shutdown the archives and the
open files are made of whole records. The disk stops nobody (`exists_step`).
-/

namespace CppUtils

open Interleaving LogRotation

namespace LogSystem

variable {τ : Type} [DecidableEq τ] {s t : LogSystem τ}

theorem append_of_deliver {u : τ} (hwhole : ∀ out ∈ (s.workers u).stream.sent, out.Whole)
    (hstep : s.deliver u = some t) {backend : AsyncLogging} (hbackend : s.backend = backend) :
    ∃ logline, logline.length ≤ kBufferSize ∧
      backend.append logline logline.length = some t.backend := by
  obtain ⟨out, hout, hstep⟩ := Option.bind_eq_some_iff.mp hstep
  obtain ⟨backend, happend, hstep⟩ := Option.bind_eq_some_iff.mp hstep
  obtain rfl := Option.some.inj hstep
  obtain ⟨hlen, hle⟩ := hwhole out (List.mem_of_getElem? hout)
  exact ⟨out.msg, hle, hbackend ▸ hlen ▸ happend⟩

/-- What a step of the threads or of the shutdown is for the back end. -/
theorem backend_step (h : s.Inv) {label : Label τ} (hmain : label ≠ .mainRoutine)
    (hstep : s.step label = some t) :
    t.backend = s.backend ∨ t.backend = s.backend.clearRunning ∨
      ∃ logline, logline.length ≤ kBufferSize ∧
        s.backend.append logline logline.length = some t.backend := by
  cases label with
  | start u statement =>
      obtain ⟨-, heq⟩ := Option.ite_none_right_eq_some.mp hstep
      cases heq
      exact Or.inl rfl
  | act u =>
      simp only [LogSystem.step, act] at hstep
      split at hstep
      · cases hstep
      · obtain ⟨-, hmap⟩ := Option.ite_none_right_eq_some.mp hstep
        obtain ⟨stream, -, rfl⟩ := Option.map_eq_some_iff.mp hmap
        exact Or.inl rfl
  | deliver u =>
      obtain ⟨halive, hdeliver⟩ := Option.ite_none_right_eq_some.mp hstep
      exact Or.inr (Or.inr (append_of_deliver (h.ready halive u).whole hdeliver rfl))
  | mainRoutine => exact absurd rfl hmain
  | release =>
      obtain ⟨-, heq⟩ := Option.ite_none_right_eq_some.mp hstep
      cases heq
      exact Or.inl rfl
  | destroy u =>
      obtain ⟨⟨hreleasing, hu⟩, hdeliver⟩ := Option.ite_none_right_eq_some.mp hstep
      have hwhole := ((h.pending u hu).destroy (h.idle (by simp [hreleasing]) u)).1
      refine Or.inr (Or.inr (append_of_deliver ?_ hdeliver rfl))
      simpa using hwhole
  | released =>
      obtain ⟨-, heq⟩ := Option.ite_none_right_eq_some.mp hstep
      cases heq
      exact Or.inl rfl
  | poll =>
      obtain ⟨-, hmap⟩ := Option.ite_none_right_eq_some.mp hstep
      obtain ⟨buffer, -, rfl⟩ := Option.map_eq_some_iff.mp hmap
      left
      split <;> rfl
  | clearRunning =>
      obtain ⟨-, heq⟩ := Option.ite_none_right_eq_some.mp hstep
      cases heq
      exact Or.inr (Or.inl rfl)
  | join =>
      obtain ⟨-, heq⟩ := Option.ite_none_right_eq_some.mp hstep
      cases heq
      exact Or.inl rfl

end LogSystem

namespace LogDisk

variable {Archive : Type} {tar : Tar Archive} {p : Process} {date : Date} {s s' : LogDisk Archive}

theorem log_mainRoutine (hmain : s.mainRoutine tar p date = some s') :
    s.log.mainStep = some s'.log := by
  obtain ⟨log, hlog, hmain⟩ := Option.bind_eq_some_iff.mp hmain
  rw [hlog]
  split at hmain
  · obtain ⟨⟨fname, dir⟩, -, hmain⟩ := Option.bind_eq_some_iff.mp hmain
    obtain rfl := Option.some.inj hmain
    rfl
  · split at hmain <;>
    · obtain rfl := Option.some.inj hmain
      rfl

end LogDisk

namespace LogProgram

variable {τ Archive : Type} [DecidableEq τ] {tar : Tar Archive} {p : Process}
  {s t : LogProgram τ Archive} {label : LogSystem.Label τ} {date : Date}

theorem step_of_ne (hmain : label ≠ .mainRoutine) :
    Step tar p s (label, date) t ↔ ∃ system, s.system.step label = some system ∧
      t = { s with system } := by
  have hstep : s.step tar p (label, date) =
      (s.system.step label).map fun system => { s with system } := by
    cases label with
    | mainRoutine => exact absurd rfl hmain
    | _ => rfl
  rw [Step, hstep, Option.map_eq_some_iff]
  simp only [eq_comm]

theorem step_mainRoutine_iff :
    Step tar p s (.mainRoutine, date) t ↔ ∃ disk, s.disk.mainRoutine tar p date = some disk ∧
      t = ⟨{ s.system with backend := disk.log }, disk.dir, disk.dates⟩ := by
  rw [Step, step, Option.map_eq_some_iff]
  simp only [eq_comm]

/-- Without the disk a program is a `LogSystem`. -/
theorem system_step (hstep : Step tar p s (label, date) t) :
    s.system.step label = some t.system := by
  by_cases hmain : label = .mainRoutine
  · subst hmain
    obtain ⟨disk, hdisk, rfl⟩ := step_mainRoutine_iff.mp hstep
    exact Option.map_eq_some_iff.mpr ⟨disk.log, LogDisk.log_mainRoutine hdisk, rfl⟩
  · obtain ⟨system, hsystem, rfl⟩ := (step_of_ne hmain).mp hstep
    exact hsystem

/-- Without the threads it is a `LogDisk`. -/
theorem disk_step (h : s.system.Inv) (hstep : Step tar p s (label, date) t) :
    t.disk = s.disk ∨ ∃ diskLabel, LogDisk.Step tar p s.disk diskLabel t.disk := by
  by_cases hmain : label = .mainRoutine
  · subst hmain
    obtain ⟨disk, hdisk, rfl⟩ := step_mainRoutine_iff.mp hstep
    exact Or.inr ⟨_, .mainRoutine hdisk⟩
  · obtain ⟨system, hsystem, rfl⟩ := (step_of_ne hmain).mp hstep
    rcases LogSystem.backend_step h hmain hsystem with hsame | hstop | ⟨logline, hlen, happend⟩
    · left
      rw [disk, hsame]
      rfl
    · right
      have hdisk : disk { s with system } = { s.disk with log := s.disk.log.clearRunning } := by
        rw [disk, hstop]
        rfl
      rw [hdisk]
      exact ⟨.stop, .stop⟩
    · exact Or.inr ⟨_, .append hlen happend⟩

structure Inv (tar : Tar Archive) (p : Process) (dir : Directory (File Archive))
    (s : LogProgram τ Archive) : Prop where
  system : s.system.Inv
  disk : LogDisk.Inv tar p dir s.disk

variable {dir : Directory (File Archive)}

theorem Inv.step (htar : tar.Lawful) (h : Inv tar p dir s)
    (hshort : ∀ u statement, label = .start u statement → statement.text.length < kBufferSize)
    (hstep : Step tar p s (label, date) t) : Inv tar p dir t := by
  refine ⟨h.system.step hshort (system_step hstep), ?_⟩
  rcases disk_step h.system hstep with hsame | ⟨diskLabel, hdisk⟩
  · rw [hsame]
    exact h.disk
  · exact h.disk.step htar hdisk

/-- The disk stops nobody: what the `LogSystem` can do the program can do, on any date. -/
theorem Inv.exists_step (htar : tar.Lawful) (h : Inv tar p dir s) {system : LogSystem τ}
    (hsystem : s.system.step label = some system) (date : Date) :
    ∃ t, Step tar p s (label, date) t ∧ t.system = system := by
  by_cases hmain : label = .mainRoutine
  · subst hmain
    obtain ⟨log, hlog, rfl⟩ := Option.map_eq_some_iff.mp hsystem
    have hpc : s.system.backend.pc ≠ .done := by
      intro hdone
      have hnone : s.system.backend.mainStep = none := by rw [AsyncLogging.mainStep, hdone]
      cases hnone.symm.trans hlog
    obtain ⟨disk, hdisk, -⟩ := h.disk.mainRoutine htar date hpc
    obtain rfl : disk.log = log := Option.some.inj ((LogDisk.log_mainRoutine hdisk).symm.trans hlog)
    exact ⟨_, step_mainRoutine_iff.mpr ⟨disk, hdisk, rfl⟩, rfl⟩
  · exact ⟨_, (step_of_ne hmain).mpr ⟨system, hsystem, rfl⟩, rfl⟩

theorem inv_new (hclean : LogDisk.Clean p dir) (clocks : τ → Clock) (rollSize : Int) :
    Inv tar p dir (new clocks rollSize dir) :=
  ⟨LogSystem.inv_new clocks rollSize, LogDisk.inv_new hclean⟩

section Runs

variable {clocks : τ → Clock} {rollSize : Int}

theorem inv_of_run (htar : tar.Lawful) (hclean : LogDisk.Clean p dir)
    {labels : List (LogSystem.Label τ × Date)}
    (hrun : Transition.Run (Step tar p) (new clocks rollSize dir) labels s)
    (hshort : ∀ u statement date, (LogSystem.Label.start u statement, date) ∈ labels →
      statement.text.length < kBufferSize) :
    Inv tar p dir s := by
  have hstep (s : LogProgram τ Archive) (label : LogSystem.Label τ × Date)
      (t : LogProgram τ Archive)
      (hshort : ∀ u statement, label.1 = .start u statement →
        statement.text.length < kBufferSize)
      (h : Inv tar p dir s) (hstep : Step tar p s label t) : Inv tar p dir t :=
    h.step htar hshort hstep
  refine hrun.invariant_of_labels hstep ?_ (inv_new hclean clocks rollSize)
  rintro ⟨label, date⟩ hmem u statement rfl
  exact hshort u statement date hmem

theorem system_run {labels : List (LogSystem.Label τ × Date)}
    (hrun : Transition.Run (Step tar p) s labels t) :
    Transition.Run LogSystem.Step s.system (labels.map Prod.fst) t.system := by
  induction hrun with
  | nil s => exact .nil _
  | cons first _ ih => exact .cons (system_step first) ih

/-- **From the statements to the archives.** When the `AsyncLogInit` is destroyed, for each file that
was opened there is a list of whole records; over all of them the records of each thread are those
of its statements, once each and in order; and of each date with no more than eleven files, the
archive and `log0` hold these files. -/
theorem records_on_disk (htar : tar.Lawful) (hclean : LogDisk.Clean p dir)
    {labels : List (LogSystem.Label τ × Date)}
    (hrun : Transition.Run (Step tar p) (new clocks rollSize dir) labels s)
    (hshort : ∀ u statement date, (LogSystem.Label.start u statement, date) ∈ labels →
      statement.text.length < kBufferSize)
    (hjoined : s.system.phase = .joined) :
    ∃ inFile : List (List (τ × List Byte)), inFile.length = s.dates.length ∧
      (∀ u, ofThread u inFile.flatten =
        (labels.flatMap fun label => label.1.statements u).map Statement.text) ∧
      ∀ date files,
        files = LogDisk.filesOn (inFile.map fun records => (records.map Prod.snd).flatten) s.dates date →
        files.length ≤ 11 → Holds tar (p.front date) s.dir files := by
  have h := inv_of_run htar hclean hrun hshort
  obtain ⟨inFile, hfiles, hrecords⟩ := h.system.exists_records hjoined
  refine ⟨inFile, ?_, fun u => ?_, ?_⟩
  · have hlength : s.system.backend.files.length = s.dates.length := h.disk.length
    rw [← hlength, hfiles, List.length_map]
  · rw [hrecords u, LogSystem.history_run (system_run hrun) u, List.flatMap_map]
    rfl
  · rintro date files rfl hlen
    rw [← hfiles] at hlen ⊢
    exact h.disk.holds date hlen

/-- The run of a `LogSystem` is one of the program, on any date. -/
theorem exists_run (htar : tar.Lawful) (date : Date) {labels : List (LogSystem.Label τ)}
    {system : LogSystem τ} (h : Inv tar p dir s)
    (hshort : ∀ u statement, .start u statement ∈ labels → statement.text.length < kBufferSize)
    (hrun : Transition.Run LogSystem.Step s.system labels system) :
    ∃ t, Transition.Run (Step tar p) s (labels.map fun label => (label, date)) t ∧
      t.system = system := by
  induction labels generalizing s with
  | nil =>
      cases hrun
      exact ⟨s, .nil s, rfl⟩
  | cons label labels ih =>
      cases hrun with
      | cons first rest =>
          obtain ⟨m, hm, rfl⟩ := h.exists_step htar first date
          have hlabel : ∀ u statement, label = .start u statement →
              statement.text.length < kBufferSize :=
            fun u statement heq => hshort u statement (heq ▸ List.mem_cons_self)
          obtain ⟨t, ht, hsystem⟩ := ih (h.step htar hlabel hm)
            (fun u statement hmem => hshort u statement (List.mem_cons_of_mem _ hmem)) rest
          exact ⟨t, .cons hm ht, hsystem⟩

end Runs

theorem records_on_disk_of_two :
    ∃ s : LogProgram Nat LogDisk.Members, s.system.phase = .joined ∧
    ∃ inFile : List (List (Nat × List Byte)), inFile.length = s.dates.length ∧
      (∀ u, ofThread u inFile.flatten =
        (LogSystem.shutdown.flatMap (LogSystem.Label.statements u)).map Statement.text) ∧
      ∀ date files, files =
          LogDisk.filesOn (inFile.map fun records => (records.map Prod.snd).flatten) s.dates date →
        files.length ≤ 11 → Holds LogDisk.Members.tar (LogDisk.app.front date) s.dir files := by
  have hshort : ∀ u statement, LogSystem.Label.start u statement ∈ LogSystem.shutdown →
      statement.text.length < kBufferSize := by
    intro u statement hmem
    simp only [LogSystem.shutdown, List.mem_append, List.mem_cons, List.mem_replicate,
      List.not_mem_nil, LogSystem.Label.start.injEq, reduceCtorEq, and_false, false_or,
      or_false] at hmem
    rcases hmem with ⟨-, rfl⟩ | ⟨-, rfl⟩ <;> decide
  have hphase : (LogSystem.shutdown.foldlM LogSystem.step
      (LogSystem.new (fun _ => ⟨false, 0⟩) 1000)).map (fun s => s.phase) = some .joined := by
    decide +kernel
  obtain ⟨system, hsystem, hjoined⟩ := Option.map_eq_some_iff.mp hphase
  obtain ⟨s, hrun, rfl⟩ := exists_run LogDisk.Members.lawful_tar LogDisk.newYear
    (inv_new LogDisk.clean_notes (fun _ => ⟨false, 0⟩) 1000) hshort (.of_foldlM hsystem)
  have hrecords := records_on_disk LogDisk.Members.lawful_tar LogDisk.clean_notes hrun
    (fun u statement date hmem => ?_) hjoined
  · simp only [List.flatMap_map] at hrecords
    exact ⟨s, hjoined, hrecords⟩
  · obtain ⟨label, hlabel, heq⟩ := List.mem_map.mp hmem
    exact hshort u statement ((Prod.mk.inj heq).1 ▸ hlabel)

end LogProgram

end CppUtils
