import CppUtils.Proof.AsyncLoggingRoll
import CppUtils.Proof.LogArchiveCalls

/-!
# What is on the disk

Whatever the back end does, each date `Holds` the files that were opened under it, and no call of
the script fails.
-/

namespace CppUtils.AsyncLogging

open LogDisk (rolls output)

/-! ### The files of the back end -/

theorem files_append {s s' : AsyncLogging} {logline : List Byte} {len : Int}
    (happend : s.append logline len = some s') : s'.files = s.files := by
  rw [Batched.append_frame happend]
  rfl

/-- A part of `mainRoutine` opens a file where it rolls, and otherwise writes to the last. -/
theorem Inv.files_mainStep {s s' : AsyncLogging} (h : s.Inv) (hmain : s.mainStep = some s') :
    (rolls s ∧ s'.files = s.files ++ [[]]) ∨
      ¬ rolls s ∧ ∃ older newest, s.files = older ++ [newest] ∧
        s'.files = older ++ [newest ++ output s] := by
  have hopened : s.pc ≠ .starting → ∃ older newest, s.files = older ++ [newest] := by
    intro hpc
    have hne : s.files ≠ [] := fun hnil => hpc (h.1.starting.mp hnil)
    exact (List.eq_nil_or_concat' s.files).resolve_left hne
  -- a part that neither opens nor writes
  have hkept : ∀ t : AsyncLogging, s.pc ≠ .starting → rolls s = false → output s = [] →
      t.files = s.files → (rolls s ∧ t.files = s.files ++ [[]]) ∨
        ¬ rolls s ∧ ∃ older newest, s.files = older ++ [newest] ∧
          t.files = older ++ [newest ++ output s] := by
    intro t hpc hrolls houtput hfiles
    obtain ⟨older, newest, hlast⟩ := hopened hpc
    refine Or.inr ⟨by rw [hrolls]; exact Bool.false_ne_true, older, newest, hlast, ?_⟩
    rw [houtput, List.append_nil, hfiles, hlast]
  cases hpc : s.pc with
  | starting =>
      rw [AsyncLogging.mainStep, hpc] at hmain
      cases hmain
      have hnil := h.1.starting.mpr hpc
      have hclosed : s.closed = [] := (List.append_eq_nil_iff.mp hnil).1
      refine Or.inl ⟨by rw [rolls, hpc], ?_⟩
      rw [hnil, files, AsyncLogging.enter, hclosed]
      rfl
  | test =>
      rw [AsyncLogging.mainStep, hpc] at hmain
      cases hmain
      refine hkept _ (by simp [hpc]) (by rw [rolls, hpc]) (by rw [output, hpc]) ?_
      unfold AsyncLogging.test
      split
      · rfl
      · exact List.append_nil _
  | lock =>
      rw [AsyncLogging.mainStep, hpc] at hmain
      refine hkept _ (by simp [hpc]) (by rw [rolls, hpc]) (by rw [output, hpc]) ?_
      rcases Batched.swap_frame hmain with rfl | ⟨-, heq⟩
      · rfl
      · rw [heq]
        rfl
  | unlocked =>
      rw [AsyncLogging.mainStep, hpc] at hmain
      obtain ⟨groups, htaken, -⟩ := Batched.exists_taken h
      have hneed : needWrite s.taken = some (toInt (contents s.taken).length) := by
        rw [htaken]
        exact Batched.needWrite_map_bufferOf groups
      have hrolls : rolls s =
          decide (toInt (s.written + toInt (contents s.taken).length) > s.rollSize) := by
        rw [rolls, hpc]
        simp only [hneed, Option.any_some]
      obtain ⟨-, -, -, ⟨hfull, hclosed, happender, -⟩ | ⟨hroom, hclosed, happender, -⟩⟩ :=
        Batched.roll_cases h hmain
      · refine Or.inl ⟨by rw [hrolls]; exact decide_eq_true hfull, ?_⟩
        rw [files, hclosed, happender]
        rfl
      · refine hkept _ (by simp [hpc]) ?_ (by rw [output, hpc]) ?_
        · rw [hrolls]
          exact decide_eq_false (Int.not_lt.mpr hroom)
        · rw [files, hclosed, happender, files]
  | writing n =>
      rw [AsyncLogging.mainStep, hpc] at hmain
      rcases Batched.write_cases h hpc hmain with ⟨htaken, rfl⟩ | ⟨buf, rest, file, htaken, hfile, rfl⟩
      · refine hkept _ (by simp [hpc]) (by rw [rolls, hpc]) ?_ rfl
        rw [output, hpc, htaken]
      · refine Or.inr ⟨by rw [rolls, hpc]; exact Bool.false_ne_true, s.closed, file, ?_, ?_⟩
        · rw [files, hfile]
          rfl
        · rw [output, hpc, htaken]
          rfl
  | done =>
      rw [AsyncLogging.mainStep, hpc] at hmain
      cases hmain

end CppUtils.AsyncLogging

namespace CppUtils.LogDisk

open AsyncLogging (contents)
open LogRotation

/-! ### Every run -/

/-- The files that were opened on a date, in order. -/
def filesOn (files : List (List Byte)) (dates : List Date) (date : Date) : List (List Byte) :=
  ((files.zip dates).filter fun opened => decide (opened.2 = date)).map Prod.fst

theorem filesOn_concat {files : List (List Byte)} {dates : List Date}
    (hlength : files.length = dates.length) (file : List Byte) (opened date : Date) :
    filesOn (files ++ [file]) (dates ++ [opened]) date =
      filesOn files dates date ++ if opened = date then [file] else [] := by
  rw [filesOn, List.zip_append hlength, List.filter_append, List.map_append]
  congr 1
  by_cases hdate : opened = date <;> simp [hdate]

variable {Archive : Type}

/-- A directory without log files of the process. -/
def Clean (p : Process) (dir : Directory (File Archive)) : Prop :=
  ∀ name ∈ dir.names, ∀ date, Foreign (p.front date) name

structure Inv (tar : Tar Archive) (p : Process) (dir : Directory (File Archive))
    (s : LogDisk Archive) : Prop where
  log : s.log.Inv
  length : s.log.files.length = s.dates.length
  tidy : ∀ date, Tidy tar (p.front date) s.dir
  holds : ∀ date, (filesOn s.log.files s.dates date).length ≤ 11 →
    Holds tar (p.front date) s.dir (filesOn s.log.files s.dates date)
  others : ∀ name, (∀ date, Foreign (p.front date) name) → Unchanged dir s.dir name

section Runs

variable {tar : Tar Archive} {p : Process} {dir : Directory (File Archive)} {rollSize : Int}
  {s s' : LogDisk Archive}

theorem inv_new (h : Clean p dir) : Inv tar p dir (new rollSize dir) where
  log := AsyncLogging.inv_new rollSize
  length := rfl
  tidy := fun date =>
    ⟨fun name hname hprefix => absurd hprefix (h name hname date).1,
      fun htarname => absurd rfl (h _ htarname date).2⟩
  holds := fun date _ => .absent (fun name hprefix hname => (h name hname date).1 hprefix)
    fun hname => (h _ hname date).2 rfl
  others := fun _ _ => ⟨Iff.rfl, rfl⟩

/-- A step that leaves the files alone. -/
theorem Inv.of_files (h : Inv tar p dir s) {log : AsyncLogging} (hlog : log.Inv)
    (hfiles : log.files = s.log.files) : Inv tar p dir { s with log } := by
  refine ⟨hlog, ?_, h.tidy, ?_, h.others⟩
  · rw [hfiles]
    exact h.length
  · intro date
    rw [hfiles]
    exact h.holds date

/-- A step that touches the files of one date. -/
theorem Inv.of_tame (h : Inv tar p dir s) {log : AsyncLogging} (hlog : log.Inv) {dates : List Date}
    (hlength : log.files.length = dates.length) {opened : Date}
    {dir' : Directory (File Archive)} (htame : Tame (p.front opened) s.dir dir')
    (htidy : Tidy tar (p.front opened) dir')
    (hothers : ∀ date, date ≠ opened →
      filesOn log.files dates date = filesOn s.log.files s.dates date)
    (hholds : (filesOn log.files dates opened).length ≤ 11 →
      Holds tar (p.front opened) dir' (filesOn log.files dates opened)) :
    Inv tar p dir ⟨log, dir', dates⟩ := by
  have hsame : ∀ date, date ≠ opened → ∀ name,
      (p.front date).log <+: name ∨ name = (p.front date).tarname → Unchanged s.dir dir' name :=
    fun date hdate name hname => htame.foreign name (foreign_of_date_ne p hdate.symm hname)
  refine ⟨hlog, hlength, fun date => ?_, fun date hlen => ?_, fun name hname => ?_⟩
  · by_cases hdate : date = opened
    · exact hdate ▸ htidy
    · exact (h.tidy date).of_unchanged (hsame date hdate)
  · by_cases hdate : date = opened
    · subst hdate
      exact hholds hlen
    · simp only [hothers date hdate] at hlen ⊢
      exact (h.holds date hlen).of_unchanged (hsame date hdate)
  · obtain ⟨hmem, hcontent⟩ := h.others name hname
    obtain ⟨hmem', hcontent'⟩ := htame.foreign name (hname opened)
    exact ⟨hmem'.trans hmem, hcontent'.trans hcontent⟩

theorem Inv.mainRoutine (htar : tar.Lawful) (h : Inv tar p dir s) (date : Date)
    (hpc : s.log.pc ≠ .done) :
    ∃ s', s.mainRoutine tar p date = some s' ∧ Inv tar p dir s' := by
  obtain ⟨log, hmain, hlog, -⟩ := h.log.mainStep hpc
  rcases h.log.files_mainStep hmain with ⟨hrolls, hfiles⟩ | ⟨hrolls, older, newest, hlast, hfiles⟩
  · obtain ⟨dir', hTar, htidy, htame⟩ := (h.tidy date).roll htar (portable_front p date)
    refine ⟨⟨log, fopen dir' ((p.front date).logName 0), s.dates ++ [date]⟩, ?_, ?_⟩
    · simp only [LogDisk.mainRoutine, hmain, Option.bind_eq_bind, Option.bind_some, if_pos hrolls,
        rollFile_eq, hTar, Option.map_some]
    · refine h.of_tame hlog ?_ htame htidy ?_ ?_
      · rw [hfiles, List.length_append, List.length_append, h.length]
        rfl
      · intro other hother
        rw [hfiles, filesOn_concat h.length, if_neg hother.symm, List.append_nil]
      · rw [hfiles, filesOn_concat h.length, if_pos rfl]
        intro hlen
        rw [List.length_append, List.length_singleton] at hlen
        obtain ⟨dir'', hTar', hholds⟩ :=
          (h.holds date (by omega)).roll htar (portable_front p date) (by omega)
        obtain rfl : dir' = dir'' := Option.some.inj (hTar.symm.trans hTar')
        exact hholds
  · have hlength := h.length
    rw [hlast, List.length_append, List.length_singleton] at hlength
    have hdates : s.dates ≠ [] := by
      rintro hnil
      simp [hnil] at hlength
    obtain ⟨dates, opened, hopened⟩ := (List.eq_nil_or_concat' s.dates).resolve_left hdates
    have hfront : older.length = dates.length := by
      rw [hopened, List.length_append, List.length_singleton] at hlength
      omega
    refine ⟨⟨log, fwrite s.dir ((p.front opened).logName 0) (output s.log), s.dates⟩, ?_, ?_⟩
    · simp only [LogDisk.mainRoutine, hmain, Option.bind_eq_bind, Option.bind_some, if_neg hrolls,
        hopened, List.getLast?_concat, logName_zero]
    · have hbefore : ∀ other, filesOn s.log.files s.dates other =
          filesOn older dates other ++ if opened = other then [newest] else [] := by
        intro other
        rw [hlast, hopened, filesOn_concat hfront]
      have hafter : ∀ other, filesOn log.files s.dates other =
          filesOn older dates other ++ if opened = other then [newest ++ output s.log] else [] := by
        intro other
        rw [hfiles, hopened, filesOn_concat hfront]
      refine h.of_tame hlog ?_ (tame_fwrite _) ((h.tidy opened).fwrite _) ?_ ?_
      · rw [hfiles, ← h.length, hlast, List.length_append, List.length_append]
        rfl
      · intro other hother
        rw [hafter, hbefore, if_neg hother.symm, if_neg hother.symm]
      · rw [hafter, if_pos rfl]
        intro hlen
        have hholds := h.holds opened
        rw [hbefore, if_pos rfl] at hholds
        exact (hholds (by simpa using hlen)).fwrite _

theorem Inv.step (htar : tar.Lawful) (h : Inv tar p dir s) {label : Label}
    (hstep : Step tar p s label s') : Inv tar p dir s' := by
  cases hstep with
  | append hlen happend =>
      exact h.of_files (h.log.step (.append hlen happend)) (AsyncLogging.files_append happend)
  | @mainRoutine _ date hmain =>
      have hpc : s.log.pc ≠ .done := by
        intro hdone
        have hnone : s.log.mainStep = none := by rw [AsyncLogging.mainStep, hdone]
        simp [LogDisk.mainRoutine, hnone] at hmain
      obtain ⟨t, ht, hinv⟩ := h.mainRoutine htar date hpc
      obtain rfl : s' = t := Option.some.inj (hmain.symm.trans ht)
      exact hinv
  | stop => exact h.of_files h.log.clearRunning rfl

theorem inv_of_reachable (htar : tar.Lawful) (hclean : Clean p dir)
    (hs : Transition.Reachable (· = new rollSize dir) (Step tar p) s) : Inv tar p dir s :=
  hs.invariant_from (inv_new hclean) fun _ _ _ h hstep => h.step htar hstep

/-- What a step does to the back end and to the dates. -/
def follow (s : AsyncLogging × List Date) : Label → Option (AsyncLogging × List Date)
  | .append logline =>
      if logline.length ≤ kBufferSize then
        (s.1.append logline logline.length).map fun log => (log, s.2)
      else none
  | .mainRoutine date =>
      s.1.mainStep.map fun log => (log, if rolls s.1 then s.2 ++ [date] else s.2)
  | .stop => some (s.1.clearRunning, s.2)

/-- The directory stops nobody. -/
theorem Inv.exists_step (htar : tar.Lawful) (h : Inv tar p dir s) {label : Label}
    {log : AsyncLogging} {dates : List Date}
    (hfollow : follow (s.log, s.dates) label = some (log, dates)) :
    ∃ s', Step tar p s label s' ∧ s'.log = log ∧ s'.dates = dates := by
  cases label with
  | append logline =>
      obtain ⟨hlen, hfollow⟩ := Option.ite_none_right_eq_some.mp hfollow
      obtain ⟨log', happend, heq⟩ := Option.map_eq_some_iff.mp hfollow
      cases heq
      exact ⟨_, .append hlen happend, rfl, rfl⟩
  | mainRoutine date =>
      obtain ⟨log', hlog, heq⟩ := Option.map_eq_some_iff.mp hfollow
      cases heq
      have hpc : s.log.pc ≠ .done := by
        intro hdone
        have hnone : s.log.mainStep = none := by rw [AsyncLogging.mainStep, hdone]
        cases hnone.symm.trans hlog
      obtain ⟨s', hmain, -⟩ := h.mainRoutine htar date hpc
      refine ⟨s', .mainRoutine hmain, ?_⟩
      rw [LogDisk.mainRoutine, hlog, Option.bind_eq_bind, Option.bind_some] at hmain
      split at hmain
      case isTrue hrolls =>
        obtain ⟨⟨fname, dir'⟩, -, hmain⟩ := Option.bind_eq_some_iff.mp hmain
        cases hmain
        exact ⟨rfl, (if_pos hrolls).symm⟩
      case isFalse hrolls =>
        split at hmain
        all_goals
          cases hmain
          exact ⟨rfl, (if_neg hrolls).symm⟩
  | stop =>
      cases hfollow
      exact ⟨_, .stop, rfl, rfl⟩

theorem Inv.exists_run (htar : tar.Lawful) (h : Inv tar p dir s) {labels : List Label}
    {log : AsyncLogging} {dates : List Date}
    (hfollow : labels.foldlM follow (s.log, s.dates) = some (log, dates)) :
    ∃ s', Transition.Run (Step tar p) s labels s' ∧ s'.log = log ∧ s'.dates = dates := by
  induction labels generalizing s with
  | nil =>
      cases hfollow
      exact ⟨s, .nil s, rfl, rfl⟩
  | cons label labels ih =>
      obtain ⟨⟨log', dates'⟩, hfirst, hrest⟩ := Transition.foldlM_cons_eq_some_iff.mp hfollow
      obtain ⟨m, hm, rfl, rfl⟩ := h.exists_step htar hfirst
      obtain ⟨t, ht, hlog⟩ := ih (h.step htar hm) hrest
      exact ⟨t, .cons hm ht, hlog⟩

/-- **What was logged is on the disk.** At any moment: of every date with no more than eleven files,
the archive holds all but the newest under their numbers and `log0` is the newest. The files of all
dates, in the order they were opened in, and the buffers hold what was appended. -/
theorem archive_of_reachable (htar : tar.Lawful) (hclean : Clean p dir)
    (hs : Transition.Reachable (· = new rollSize dir) (Step tar p) s) :
    (∀ date, (filesOn s.log.files s.dates date).length ≤ 11 →
        Holds tar (p.front date) s.dir (filesOn s.log.files s.dates date)) ∧
      s.log.files.length = s.dates.length ∧
      s.log.files.flatten ++ contents s.log.taken ++ contents s.log.buffers ++
        contents [s.log.currentBuffer] = s.log.appended.flatten := by
  have h := inv_of_reachable htar hclean hs
  obtain ⟨-, inFiles, inTaken, inBuffers, inCurrent, hpacked⟩ := h.log
  exact ⟨h.holds, h.length, hpacked.bytes_eq⟩

end Runs

/-! ### Two files of a day -/

/-- An archive that is no more than its members. -/
inductive Members where
  | of (files : List (Name × File Members))

def Members.files : Members → List (Name × File Members)
  | .of files => files

def Members.tar : Tar Members where
  members := Members.files
  pack := fun tarname names dir =>
    dir.create tarname (.archive (.of (names.map fun name => (name, dir.content name))))
  unpack := fun tarname dir =>
    match dir.content tarname with
    | .text _ => dir
    | .archive archive => dir.createAll archive.files

theorem Members.lawful_tar : Members.tar.Lawful where
  pack := fun _ _ _ _ _ _ => ⟨_, rfl, rfl⟩
  unpack := by
    intro tarname dir archive _ _ hcontent _
    simp only [Members.tar, hcontent]

/-- `./app`, started as the process 7. -/
def app : Process where
  _basename := bytes "./app"
  portable := ⟨by decide +kernel, by decide +kernel, by decide +kernel, by decide +kernel,
    by decide +kernel, by decide +kernel⟩
  pid := bytes "7"
  digits := by decide +kernel
  short := by decide +kernel

def newYear : Date := ⟨bytes "2021-01-01", by decide +kernel, by decide +kernel⟩

/-- A file that has nothing to do with the log. -/
def notes : Directory (File Members) := ⟨{bytes "notes"}, fun _ => .text (bytes "buy milk")⟩

theorem clean_notes : Clean app notes := by
  intro name hname date
  obtain rfl : name = bytes "notes" := Finset.mem_singleton.mp hname
  have hnotes : (bytes "notes").length = 5 := by decide +kernel
  have hfront := length_front app date
  refine ⟨fun hprefix => ?_, fun heq => ?_⟩
  · have hle := hprefix.length_le
    rw [hnotes, Frontname.log, List.length_append, hfront] at hle
    omega
  · have hlength := congrArg List.length heq
    rw [hnotes, Frontname.tarname, List.length_append, hfront] at hlength
    omega

/-- Two lines that do not fit into one file. -/
theorem exists_run_two : ∃ s : LogDisk Members,
    Transition.Reachable (· = new 3 notes) (Step Members.tar app) s ∧
      s.log.files = [bytes "ab", bytes "cd"] ∧ s.log.pc = .writing 2 ∧
      s.dates = [newYear, newYear] := by
  let turn : Label := .mainRoutine newYear
  let labels : List Label := [turn, turn, .append (bytes "ab"), turn, turn, turn, turn, turn,
    .append (bytes "cd"), turn, turn, turn]
  have hfollow : (labels.foldlM follow (.new 3, [])).map
      (fun s => (s.1.files, s.1.pc, s.2)) =
        some ([bytes "ab", bytes "cd"], .writing 2, [newYear, newYear]) := by decide +kernel
  obtain ⟨⟨log, dates⟩, hrun, heq⟩ := Option.map_eq_some_iff.mp hfollow
  obtain ⟨hfiles, hpc, hdates⟩ := by simpa only [Prod.mk.injEq] using heq
  obtain ⟨s, hs, rfl, rfl⟩ := (inv_new clean_notes).exists_run Members.lawful_tar
    (s := new 3 notes) hrun
  exact ⟨s, ⟨_, labels, rfl, hs⟩, hfiles, hpc, hdates⟩

theorem archive_of_two : ∃ s : LogDisk Members, s.dates = [newYear, newYear] ∧
    Holds Members.tar (app.front newYear) s.dir [bytes "ab", bytes "cd"] := by
  obtain ⟨s, hs, hfiles, -, hdates⟩ := exists_run_two
  have hon : filesOn s.log.files s.dates newYear = [bytes "ab", bytes "cd"] := by
    rw [hfiles, hdates]
    simp [filesOn]
  have hholds := (archive_of_reachable Members.lawful_tar clean_notes hs).1 newYear
    (by rw [hon]; decide)
  exact ⟨s, hdates, hon ▸ hholds⟩

end CppUtils.LogDisk
