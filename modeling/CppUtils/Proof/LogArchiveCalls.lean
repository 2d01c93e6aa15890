import CppUtils.Proof.LogArchiveRoll

/-!
# Any call of the script

However many files there are, a call does not fail. It touches the logs and the archive of its date
only (`Tame`), and leaves what belongs to other dates as it was (`Unchanged`).
-/

namespace CppUtils.LogRotation

variable {Archive : Type}

/-! ### Any call -/

/-- From one directory to the other only the logs and the archive of `front` were touched, and all
new logs have numbers. -/
structure Tame (front : Frontname) (dir dir' : Directory (File Archive)) : Prop where
  logs : ∀ name ∈ dir'.names, front.log <+: name → name ∈ dir.names ∨ LogLike front name
  foreign : ∀ name, Foreign front name → Unchanged dir dir' name

/-- All that is there, or packed, has a number. -/
structure Tidy (tar : Tar Archive) (front : Frontname) (dir : Directory (File Archive)) : Prop where
  logs : ∀ name ∈ dir.names, front.log <+: name → LogLike front name
  archive : front.tarname ∈ dir.names → ∃ archive, dir.content front.tarname = .archive archive ∧
    ∀ member ∈ tar.members archive, LogLike front member.1

section Calls

variable {tar : Tar Archive} {front : Frontname} {dir dir' dir'' : Directory (File Archive)}
  {name new : Name}

theorem LogLike.ne_of_foreign (h : LogLike front name) (hnew : Foreign front new) : new ≠ name := by
  rintro rfl
  exact hnew.1 h.log_prefix

theorem LogLike.strip_line (h : LogLike front name) : strip (name ++ bytes "\n") = name := by
  have hlog : ∀ b ∈ bytes ".log", isPlain b = true := by decide +kernel
  obtain ⟨number, hnumber, hdigits, rfl⟩ := h
  refine strip_name (fun b hb => ?_) fun hnil => hnumber (List.append_eq_nil_iff.mp hnil).2
  rcases List.mem_append.mp hb with hb | hb
  · rcases List.mem_append.mp hb with hb | hb
    · exact front.plain b hb
    · exact hlog b hb
  · exact isPlain_digit b (hdigits b hb)

theorem LogLike.newname (h : LogLike front name) :
    ∃ new, newname name = some new ∧ LogLike front new := by
  have hdigit : ∀ b ∈ bytes "0123456789", ∃ n, int b = some n ∧ str (n + 1) ≠ [] ∧
      ∀ b ∈ str (n + 1), b ∈ bytes "0123456789" := by
    have hall : ∀ b ∈ bytes "0123456789", ∃ n ∈ List.range 10, int b = some n ∧ str (n + 1) ≠ [] ∧
        ∀ b ∈ str (n + 1), b ∈ bytes "0123456789" := by decide +kernel
    intro b hb
    obtain ⟨n, -, hn⟩ := hall b hb
    exact ⟨n, hn⟩
  obtain ⟨number, hnumber, hdigits, rfl⟩ := h
  obtain ⟨rest, c, rfl⟩ := (List.eq_nil_or_concat' number).resolve_left hnumber
  obtain ⟨n, hn, hne, hstr⟩ := hdigit c (hdigits c (by simp))
  refine ⟨front.log ++ (rest ++ str (n + 1)), ?_, rest ++ str (n + 1), ?_, ?_, rfl⟩
  · rw [← List.append_assoc, LogRotation.newname, List.getLast?_concat, List.dropLast_concat]
    simp only [Option.bind_eq_bind, Option.bind_some, hn, List.append_assoc]
  · simp [hne]
  · intro b hb
    rcases List.mem_append.mp hb with hb | hb
    · exact hdigits b (List.mem_append_left _ hb)
    · exact hstr b hb

/-! ### Commands, one by one -/

theorem Tame.refl : Tame front dir dir := ⟨fun _ hname _ => Or.inl hname, fun _ _ => ⟨Iff.rfl, rfl⟩⟩

theorem Tame.trans (h : Tame front dir dir') (h' : Tame front dir' dir'') :
    Tame front dir dir'' where
  logs := by
    intro name hname hprefix
    rcases h'.logs name hname hprefix with hname | hname
    · exact h.logs name hname hprefix
    · exact Or.inr hname
  foreign := by
    intro name hname
    obtain ⟨hmem, hcontent⟩ := h.foreign name hname
    obtain ⟨hmem', hcontent'⟩ := h'.foreign name hname
    exact ⟨hmem'.trans hmem, hcontent'.trans hcontent⟩

theorem Tidy.logs_of_tame (h : Tidy tar front dir) (htame : Tame front dir dir') :
    ∀ name ∈ dir'.names, front.log <+: name → LogLike front name := by
  intro name hname hprefix
  rcases htame.logs name hname hprefix with hname | hname
  · exact h.logs name hname hprefix
  · exact hname

theorem tame_create {file : File Archive} (h : LogLike front new ∨ new = front.tarname) :
    Tame front dir (dir.create new file) where
  logs := by
    intro name hname hprefix
    rcases Directory.mem_create.mp hname with rfl | hname
    · rcases h with h | rfl
      · exact Or.inr h
      · exact absurd hprefix (not_log_prefix_tarname front)
    · exact Or.inl hname
  foreign := by
    intro name hname
    have hne : name ≠ new := by
      rcases h with h | rfl
      · exact h.ne_of_foreign hname
      · exact hname.2
    refine ⟨?_, Directory.content_create_of_ne hne⟩
    rw [Directory.mem_create]
    tauto

theorem tame_rm_tarname : Tame front dir (dir.rm front.tarname) where
  logs := fun _ hname _ => Or.inl (Directory.mem_rm.mp hname).2
  foreign := by
    intro name hname
    refine ⟨?_, rfl⟩
    rw [Directory.mem_rm]
    have hne := hname.2
    tauto

theorem tame_rmLogs : Tame front dir (dir.rmLogs front) where
  logs := fun _ hname hprefix => absurd hprefix (Directory.mem_rmLogs.mp hname).2
  foreign := by
    intro name hname
    refine ⟨?_, rfl⟩
    rw [Directory.mem_rmLogs]
    have hprefix := hname.1
    tauto

theorem tame_mv (hname : LogLike front name) (hnew : LogLike front new) :
    Tame front dir (dir.mv name new) := by
  by_cases hmoves : name ∈ dir.names ∧ name ≠ new
  · constructor
    · intro other hother _
      rcases (Directory.mem_mv hmoves.1 hmoves.2).mp hother with rfl | ⟨-, hother⟩
      · exact Or.inr hnew
      · exact Or.inl hother
    · intro other hother
      have hne := hname.ne_of_foreign hother
      have hne' := hnew.ne_of_foreign hother
      refine ⟨?_, ?_⟩
      · rw [Directory.mem_mv hmoves.1 hmoves.2]
        tauto
      · rw [Directory.content_mv hmoves.1 hmoves.2, Function.update_of_ne hne']
  · rw [Directory.mv, if_neg hmoves]
    exact .refl

theorem tame_createAll {files : List (Name × File Archive)}
    (hfiles : ∀ file ∈ files, LogLike front file.1) : Tame front dir (dir.createAll files) := by
  induction files generalizing dir with
  | nil => exact .refl
  | cons file files ih =>
      have hfirst : Tame front dir (dir.create file.1 file.2) :=
        tame_create (Or.inl (hfiles file List.mem_cons_self))
      exact hfirst.trans (ih fun f hf => hfiles f (List.mem_cons_of_mem _ hf))

theorem tame_rename {names : List Name} (hnames : ∀ name ∈ names, LogLike front name) :
    ∃ dir' replaced, rename (names.map (· ++ bytes "\n")) dir = some (dir', replaced) ∧
      Tame front dir dir' := by
  induction names generalizing dir with
  | nil => exact ⟨dir, [], rfl, .refl⟩
  | cons name names ih =>
      have hname := hnames name List.mem_cons_self
      obtain ⟨new, hnew, hlike⟩ := hname.newname
      obtain ⟨dir', replaced, hrest, htame⟩ := @ih (dir.mv name new)
        fun n hn => hnames n (List.mem_cons_of_mem _ hn)
      refine ⟨dir', if dir.Overwrites name new then new :: replaced else replaced, ?_,
        (tame_mv hname hlike).trans htame⟩
      rw [List.map_cons, rename]
      simp only [hname.strip_line, hnew, Option.bind_eq_bind, Option.bind_some, hrest]

/-- `tar -zcf`, where all logs have numbers. -/
theorem Tar.Lawful.pack_of_logLike (htar : tar.Lawful) (hfront : Portable front.name)
    (h : ∀ name ∈ dir.names, front.log <+: name → LogLike front name) :
    ∃ archive, (∀ member ∈ tar.members archive, LogLike front member.1) ∧
      tar.pack front.tarname (dir.logs front) dir = dir.create front.tarname (.archive archive) := by
  have hlogs : ∀ name ∈ dir.logs front, LogLike front name := by
    intro name hname
    obtain ⟨hmem, hprefix⟩ := Directory.mem_logs.mp hname
    exact h name hmem hprefix
  have hportable : ∀ name ∈ dir.logs front, Portable name :=
    fun name hname => (hlogs name hname).portable hfront
  obtain ⟨archive, harchive, hpack⟩ := htar.pack_logs hfront hportable
  refine ⟨archive, fun member hmember => ?_, hpack⟩
  rw [harchive] at hmember
  obtain ⟨name, hname, rfl⟩ := List.mem_map.mp hmember
  exact hlogs name hname

theorem tame_fopen : Tame front dir (fopen dir (front.logName 0)) := by
  unfold fopen
  split
  · exact .refl
  · exact tame_create (Or.inl (logLike_logName 0))

theorem content_fopen_tarname :
    (fopen dir (front.logName 0)).content front.tarname = dir.content front.tarname := by
  unfold fopen
  split
  · rfl
  · exact Directory.content_create_of_ne (tarname_ne_logName front 0)

/-- What the script unpacks and renames. -/
theorem Tidy.renamed (htar : tar.Lawful) (hfront : Portable front.name) (h : Tidy tar front dir)
    (htarname : front.tarname ∈ dir.names) :
    ∃ renamed replaced, renameLogs front ((tar.unpack front.tarname dir).rm front.tarname) =
      some (renamed, replaced) ∧ Tame front dir renamed := by
  obtain ⟨archive, harchive, hmembers⟩ := h.archive htarname
  have hunpack := htar.unpack _ dir archive hfront.tarname htarname harchive
    fun member hmember => (hmembers member hmember).portable hfront
  have hunpacked : Tame front dir ((tar.unpack front.tarname dir).rm front.tarname) := by
    rw [hunpack]
    exact (tame_createAll hmembers).trans tame_rm_tarname
  set unpacked := (tar.unpack front.tarname dir).rm front.tarname
  have hlogs : ∀ name ∈ (unpacked.logs front).reverse, LogLike front name := by
    intro name hname
    obtain ⟨hmem, hprefix⟩ := Directory.mem_logs.mp (List.mem_reverse.mp hname)
    exact h.logs_of_tame hunpacked name hmem hprefix
  obtain ⟨renamed, replaced, hrename, htame⟩ :
      ∃ dir' replaced, rename ((unpacked.logs front).reverse.map (· ++ bytes "\n")) unpacked =
        some (dir', replaced) ∧ Tame front unpacked dir' := tame_rename hlogs
  rw [List.map_reverse] at hrename
  exact ⟨renamed, replaced, hrename, hunpacked.trans htame⟩

/-- **No call of the script fails**, and none touches what is not of its date, whatever there is. -/
theorem Tidy.roll (htar : tar.Lawful) (hfront : Portable front.name) (h : Tidy tar front dir) :
    ∃ dir', TarLogFile tar (front.logName 0) dir = some dir' ∧
      Tidy tar front (fopen dir' (front.logName 0)) ∧
      Tame front dir (fopen dir' (front.logName 0)) := by
  by_cases htarname : front.tarname ∈ dir.names
  · obtain ⟨renamed, replaced, hrename, htame⟩ := h.renamed htar hfront htarname
    obtain ⟨archive, hmembers, hpack⟩ := htar.pack_of_logLike hfront (h.logs_of_tame htame)
    have hTar : TarLogFile tar (front.logName 0) dir =
        some ((renamed.create front.tarname (.archive archive)).rmLogs front) := by
      simp only [TarLogFile, frontname_logName_zero, Option.bind_eq_bind, Option.bind_some,
        if_pos htarname, hrename, hpack]
    have hfinal : Tame front dir (fopen
        ((renamed.create front.tarname (.archive archive)).rmLogs front) (front.logName 0)) :=
      htame.trans <| (tame_create (Or.inr rfl)).trans <| tame_rmLogs.trans tame_fopen
    refine ⟨_, hTar, ⟨h.logs_of_tame hfinal, fun _ => ⟨archive, ?_, hmembers⟩⟩, hfinal⟩
    rw [content_fopen_tarname]
    exact Directory.content_create_self
  · obtain ⟨archive, hmembers, hpack⟩ := htar.pack_of_logLike hfront h.logs
    have hTar : TarLogFile tar (front.logName 0) dir =
        some (dir.create front.tarname (.archive archive)) := by
      simp only [TarLogFile, frontname_logName_zero, Option.bind_eq_bind, Option.bind_some,
        if_neg htarname, hpack]
    have hfinal : Tame front dir
        (fopen (dir.create front.tarname (.archive archive)) (front.logName 0)) :=
      (tame_create (Or.inr rfl)).trans tame_fopen
    refine ⟨_, hTar, ⟨h.logs_of_tame hfinal, fun _ => ⟨archive, ?_, hmembers⟩⟩, hfinal⟩
    rw [content_fopen_tarname]
    exact Directory.content_create_self

end Calls

/-! ### Other dates -/

section Dates

variable {tar : Tar Archive} {front : Frontname} {dir dir' : Directory (File Archive)}
  {texts : List (List Byte)}

theorem Holds.of_unchanged (h : Holds tar front dir texts)
    (hsame : ∀ name, front.log <+: name ∨ name = front.tarname → Unchanged dir dir' name) :
    Holds tar front dir' texts := by
  have htar := hsame front.tarname (Or.inr rfl)
  have hlog := fun k => hsame (front.logName k) (Or.inl (log_prefix_logName front k))
  cases h with
  | absent hlogs htarname =>
      refine .absent (fun name hprefix => ?_) ?_
      · rw [(hsame name (Or.inl hprefix)).1]
        exact hlogs name hprefix
      · rw [htar.1]
        exact htarname
  | archived h =>
      refine .archived ⟨fun name hprefix => ?_, ?_, ?_, ?_⟩
      · rw [(hsame name (Or.inl hprefix)).1]
        exact h.logs name hprefix
      · rw [(hlog 0).2]
        exact h.newest
      · rw [htar.1]
        exact h.tarname
      · rw [htar.2]
        exact h.members

/-- What is written goes to the end of the newest file. -/
theorem Holds.fwrite {older : List (List Byte)} {newest : List Byte}
    (h : Holds tar front dir (older ++ [newest])) (logline : List Byte) :
    Holds tar front (fwrite dir (front.logName 0) logline) (older ++ [newest ++ logline]) := by
  generalize htexts : older ++ [newest] = texts at h
  cases h with
  | absent => simp at htexts
  | @archived closed last h =>
      obtain ⟨rfl, hlast⟩ := List.append_inj' htexts rfl
      obtain rfl : newest = last := List.singleton_inj.mp hlast
      have hwrite : LogRotation.fwrite dir (front.logName 0) logline = { dir with
          content := Function.update dir.content (front.logName 0) (.text (newest ++ logline)) } := by
        simp only [LogRotation.fwrite, h.newest]
      rw [hwrite]
      refine .archived ⟨h.logs, Function.update_self _ _ _, h.tarname, ?_⟩
      simp only [Function.update_of_ne (tarname_ne_logName front 0)]
      exact h.members

theorem content_fwrite_of_ne {name new : Name} (hne : name ≠ new) (logline : List Byte) :
    (fwrite dir new logline).content name = dir.content name := by
  unfold LogRotation.fwrite
  split
  · exact Function.update_of_ne hne _ _
  · rfl

theorem names_fwrite (new : Name) (logline : List Byte) :
    (fwrite dir new logline).names = dir.names := by
  unfold LogRotation.fwrite
  split <;> rfl

theorem tame_fwrite (logline : List Byte) :
    Tame front dir (fwrite dir (front.logName 0) logline) where
  logs := fun name hname _ => Or.inl (names_fwrite _ logline ▸ hname)
  foreign := by
    intro name hname
    refine ⟨by rw [names_fwrite], content_fwrite_of_ne ?_ logline⟩
    rintro rfl
    exact hname.1 (log_prefix_logName front 0)

theorem Tidy.fwrite (h : Tidy tar front dir) (logline : List Byte) :
    Tidy tar front (fwrite dir (front.logName 0) logline) where
  logs := h.logs_of_tame (tame_fwrite logline)
  archive := by
    rw [content_fwrite_of_ne (tarname_ne_logName front 0), names_fwrite]
    exact h.archive

theorem Tidy.of_unchanged (h : Tidy tar front dir)
    (hsame : ∀ name, front.log <+: name ∨ name = front.tarname → Unchanged dir dir' name) :
    Tidy tar front dir' where
  logs := by
    intro name hname hprefix
    exact h.logs name ((hsame name (Or.inl hprefix)).1.mp hname) hprefix
  archive := by
    obtain ⟨hmem, hcontent⟩ := hsame front.tarname (Or.inr rfl)
    rw [hmem, hcontent]
    exact h.archive

/-- A call of the script, and the file that is opened behind it. -/
theorem Holds.roll (htar : tar.Lawful) (hfront : Portable front.name)
    (h : Holds tar front dir texts) (hlen : texts.length ≤ 10) :
    ∃ dir', TarLogFile tar (front.logName 0) dir = some dir' ∧
      Holds tar front (fopen dir' (front.logName 0)) (texts ++ [[]]) := by
  cases h with
  | absent hlogs htarname =>
      obtain ⟨dir', hTar, harchived⟩ := roll_of_none htar hfront hlogs htarname
      exact ⟨dir', hTar, .archived harchived⟩
  | archived h =>
      rw [List.length_append, List.length_singleton] at hlen
      obtain ⟨dir', hTar, harchived⟩ := h.roll htar hfront (by omega)
      exact ⟨dir', hTar, .archived harchived⟩

theorem length_front (p : Process) (date : Date) :
    (p.front date).name.length = p._basename.length + p.pid.length + 12 := by
  have hdot : (bytes ".").length = 1 := by decide +kernel
  simp only [Process.front, List.length_append, date.length, hdot]
  omega

theorem front_injective (p : Process) {date other : Date}
    (h : (p.front date).name = (p.front other).name) : date = other := by
  have hpid := List.append_inj_left' h rfl
  have hdot := List.append_inj_left' hpid rfl
  have htext := List.append_cancel_left hdot
  cases date
  cases other
  simpa using htext

theorem foreign_of_date_ne (p : Process) {date other : Date} (hne : date ≠ other) {name : Name}
    (hname : (p.front other).log <+: name ∨ name = (p.front other).tarname) :
    Foreign (p.front date) name :=
  foreign_of_ne (by rw [length_front, length_front]) (fun h => hne (front_injective p h)) hname

theorem portable_front (p : Process) (date : Date) : Portable (p.front date).name := by
  have hdigit : ∀ b ∈ bytes "0123456789-.", isPlain b = true ∧ b ≠ 0x3a ∧ b ≠ 0x2f := by
    decide +kernel
  have hdate : ∀ b ∈ bytes "0123456789-", b ∈ bytes "0123456789-." := by decide +kernel
  have hpid : ∀ b ∈ bytes "0123456789", b ∈ bytes "0123456789-." := by decide +kernel
  have hdot : ∀ b ∈ bytes ".", b ∈ bytes "0123456789-." := by decide +kernel
  have hall : ∀ b ∈ bytes "." ++ date.text ++ bytes "." ++ p.pid,
      isPlain b = true ∧ b ≠ 0x3a ∧ b ≠ 0x2f := by
    intro b hb
    simp only [List.mem_append] at hb
    rcases hb with ((hb | hb) | hb) | hb
    · exact hdigit b (hdot b hb)
    · exact hdigit b (hdate b (date.digits b hb))
    · exact hdigit b (hdot b hb)
    · exact hdigit b (hpid b (p.digits b hb))
  have hname : (p.front date).name =
      p._basename ++ (bytes "." ++ date.text ++ bytes "." ++ p.pid) := by
    simp only [Process.front, List.append_assoc]
  rw [hname]
  refine p.portable.append (fun b hb => (hall b hb).1) (fun hb => (hall _ hb).2.1 rfl)
    (fun hb => (hall _ hb).2.2 rfl) ?_
  simp only [List.length_append, date.length]
  omega

theorem rollFile_eq (tar : Tar Archive) (p : Process) (date : Date)
    (dir : Directory (File Archive)) :
    rollFile tar p date dir =
      (TarLogFile tar ((p.front date).logName 0) dir).map
        fun dir => ((p.front date).logName 0, dir) := by
  have hfive : (bytes ".log0").length = 5 := by decide +kernel
  have hshort : ((p.front date).name ++ bytes ".log0").length < 100 := by
    have hlimit := p.short
    rw [List.length_append, length_front, hfive]
    omega
  simp only [rollFile, if_pos hshort, logName_zero]
  cases TarLogFile tar ((p.front date).name ++ bytes ".log0") dir <;> rfl

end Dates

end CppUtils.LogRotation

