import CppUtils.LogArchive
import CppUtils.Proof.LogRotationRename

/-!
# One call of the script

For each date `Holds` says what its archive and its open file are: the files that were closed, the
last one as `log1`, and the newest as `log0`. A call of `rollFile` takes `Holds` from the files of
its date to one file more as long as the script renames ten files at most.
-/

namespace CppUtils.LogRotation

/-! ### Names -/

section Names

variable (front : Frontname)

theorem logName_zero : front.logName 0 = front.name ++ bytes ".log0" := by
  have hzero : bytes ".log0" = bytes ".log" ++ str 0 := by decide +kernel
  rw [hzero, ← List.append_assoc]
  rfl

theorem frontname_logName_zero : frontname (front.logName 0) = some front := by
  have hlog : bytes ".log0" = (0x2e : Byte) :: bytes "log0" := by decide +kernel
  have hdot : (0x2e : Byte) ∉ bytes "log0" := by decide +kernel
  have hsplit : ((front.logName 0).splitOn 0x2e).dropLast = front.name.splitOn 0x2e := by
    rw [logName_zero, hlog, List.splitOn_append_cons_self, List.splitOn_eq_singleton hdot,
      List.dropLast_concat]
  have hname : [(0x2e : Byte)].intercalate ((front.logName 0).splitOn 0x2e).dropLast =
      front.name := by
    rw [hsplit, List.intercalate_splitOn]
  simp only [frontname, hname, dif_pos (List.all_eq_true.mpr front.plain)]

theorem not_log_prefix_tarname : ¬ front.log <+: front.tarname := by
  have hneither : ¬ bytes ".log" <+: bytes ".tar" := by decide +kernel
  intro hfront
  exact hneither ((List.prefix_append_right_inj front.name).mp hfront)

theorem tarname_ne_logName (k : Nat) : front.tarname ≠ front.logName k := by
  intro heq
  exact not_log_prefix_tarname front (heq ▸ log_prefix_logName front k)

end Names

/-- A file that a call of the script for `front` does not touch. -/
def Foreign (front : Frontname) (name : Name) : Prop :=
  ¬ front.log <+: name ∧ name ≠ front.tarname

/-- The files of different dates are foreign to each other. -/
theorem foreign_of_ne {front other : Frontname} (hlength : front.name.length = other.name.length)
    (hne : front.name ≠ other.name) {name : Name}
    (hname : other.log <+: name ∨ name = other.tarname) : Foreign front name := by
  have hlogs : bytes ".log" ≠ bytes ".tar" := by decide +kernel
  have hlog : front.log.length = other.log.length := by
    simp [Frontname.log, hlength]
  have htar : front.tarname.length = other.log.length := by
    simp [Frontname.tarname, Frontname.log, hlength]
    decide +kernel
  have hothertar : front.log.length = other.tarname.length := by
    simp [Frontname.tarname, Frontname.log, hlength]
    decide +kernel
  rcases hname with hname | rfl
  · constructor
    · intro hfront
      have heq := (List.prefix_of_prefix_length_le hfront hname hlog.le).eq_of_length hlog
      exact hne (List.append_inj_left heq hlength)
    · rintro rfl
      have heq := hname.eq_of_length htar.symm
      exact hlogs (List.append_inj_right heq hlength.symm)
  · constructor
    · intro hfront
      have heq := hfront.eq_of_length hothertar
      exact hlogs (List.append_inj_right heq hlength)
    · intro heq
      exact hne (List.append_inj_left heq hlength.symm).symm

/-! ### Commands -/

section Commands

variable {α : Type} {dir : Directory α} {front : Frontname} {name : Name}

theorem Directory.mem_logs : name ∈ dir.logs front ↔ name ∈ dir.names ∧ front.log <+: name := by
  rw [Directory.logs, Finset.mem_sort, Finset.mem_filter]

theorem Directory.nodup_logs : (dir.logs front).Nodup := Finset.sort_nodup _ _

theorem Directory.mem_rmLogs :
    name ∈ (dir.rmLogs front).names ↔ name ∈ dir.names ∧ ¬ front.log <+: name := by
  rw [Directory.rmLogs, Finset.mem_filter]

theorem Directory.mem_create {file : α} {new : Name} :
    name ∈ (dir.create new file).names ↔ name = new ∨ name ∈ dir.names := by
  rw [Directory.create, Finset.mem_insert]

theorem Directory.content_create_self {file : α} : (dir.create name file).content name = file :=
  Function.update_self _ _ _

theorem Directory.content_create_of_ne {file : α} {new : Name} (hne : name ≠ new) :
    (dir.create new file).content name = dir.content name :=
  Function.update_of_ne hne _ _

theorem Directory.mem_rm {gone : Name} :
    name ∈ (dir.rm gone).names ↔ name ≠ gone ∧ name ∈ dir.names := by
  rw [Directory.rm, Finset.mem_erase]

end Commands

/-! ### Portable names -/

/-- What is appended without a slash belongs to the last component. -/
theorem exists_splitOn_append {sep : Byte} {suffix : Name} (hsuffix : sep ∉ suffix) (name : Name) :
    ∃ init last, name.splitOn sep = init ++ [last] ∧
      (name ++ suffix).splitOn sep = init ++ [last ++ suffix] := by
  induction name with
  | nil => exact ⟨[], [], List.splitOn_nil sep, List.splitOn_eq_singleton hsuffix⟩
  | cons b name ih =>
      obtain ⟨init, last, hname, happend⟩ := ih
      rw [List.cons_append, List.splitOn_cons_eq_if_modifyHead,
        List.splitOn_cons_eq_if_modifyHead, hname, happend]
      by_cases hb : (b == sep) = true
      · rw [if_pos hb, if_pos hb]
        exact ⟨[] :: init, last, rfl, rfl⟩
      · rw [if_neg hb, if_neg hb]
        cases init with
        | nil => exact ⟨[], b :: last, rfl, rfl⟩
        | cons first init => exact ⟨(b :: first) :: init, last, rfl, rfl⟩

/-- Three characters without a slash or a colon do no harm at the end. -/
theorem Portable.append {name suffix : Name} (h : Portable name)
    (hplain : ∀ b ∈ suffix, isPlain b = true) (hcolon : (0x3a : Byte) ∉ suffix)
    (hslash : (0x2f : Byte) ∉ suffix) (hlength : 2 < suffix.length) :
    Portable (name ++ suffix) where
  ne_nil := fun hnil => h.ne_nil (List.append_eq_nil_iff.mp hnil).1
  plain := fun b hb => (List.mem_append.mp hb).elim (h.plain b) (hplain b)
  colon := fun hb => (List.mem_append.mp hb).elim h.colon hcolon
  option := by
    rw [List.head?_append_of_ne_nil _ h.ne_nil]
    exact h.option
  relative := by
    rw [List.head?_append_of_ne_nil _ h.ne_nil]
    exact h.relative
  inside := by
    obtain ⟨init, last, hname, happend⟩ := exists_splitOn_append hslash name
    have hinside := h.inside
    rw [hname, List.mem_append] at hinside
    rw [happend, List.mem_append, List.mem_singleton]
    rintro (hinit | hlast)
    · exact hinside (Or.inl hinit)
    · have hdots : (bytes "..").length = 2 := by decide +kernel
      have hlen := congrArg List.length hlast
      rw [List.length_append, hdots] at hlen
      omega

/-- `frontname.log` and a number. -/
def LogLike (front : Frontname) (name : Name) : Prop :=
  ∃ number, number ≠ [] ∧ (∀ b ∈ number, b ∈ bytes "0123456789") ∧ name = front.log ++ number

section Fronts

variable {front : Frontname} {name : Name}

theorem LogLike.log_prefix (h : LogLike front name) : front.log <+: name := by
  obtain ⟨number, -, -, rfl⟩ := h
  exact List.prefix_append _ _

theorem logLike_logName (k : Nat) : LogLike front (front.logName k) :=
  ⟨str k, str_ne_nil k, digits_str k, rfl⟩

theorem Portable.tarname (h : Portable front.name) : Portable front.tarname :=
  h.append (by decide +kernel) (by decide +kernel) (by decide +kernel) (by decide +kernel)

theorem LogLike.portable (hlike : LogLike front name) (h : Portable front.name) :
    Portable name := by
  obtain ⟨number, -, hdigits, rfl⟩ := hlike
  have hlog : ∀ b ∈ bytes ".log", isPlain b = true ∧ b ≠ 0x3a ∧ b ≠ 0x2f := by decide +kernel
  have hdigit : ∀ b ∈ bytes "0123456789", isPlain b = true ∧ b ≠ 0x3a ∧ b ≠ 0x2f := by
    decide +kernel
  have hall : ∀ b ∈ bytes ".log" ++ number, isPlain b = true ∧ b ≠ 0x3a ∧ b ≠ 0x2f := by
    intro b hb
    exact (List.mem_append.mp hb).elim (hlog b) fun hb => hdigit b (hdigits b hb)
  have hfour : (bytes ".log").length = 4 := by decide +kernel
  rw [Frontname.log, List.append_assoc]
  refine h.append (fun b hb => (hall b hb).1) (fun hb => (hall _ hb).2.1 rfl)
    (fun hb => (hall _ hb).2.2 rfl) ?_
  rw [List.length_append, hfour]
  omega

theorem Portable.logName (h : Portable front.name) (k : Nat) : Portable (front.logName k) :=
  (logLike_logName k).portable h

end Fronts

/-- What unpacking leaves: the members, and what else there was. -/
theorem Directory.createAll_spec {α : Type} {files : List (Name × α)}
    (hnodup : (files.map Prod.fst).Nodup) (dir : Directory α) :
    (∀ name, name ∈ (dir.createAll files).names ↔
        name ∈ files.map Prod.fst ∨ name ∈ dir.names) ∧
      (∀ name file, (name, file) ∈ files → (dir.createAll files).content name = file) ∧
      ∀ name, name ∉ files.map Prod.fst →
        (dir.createAll files).content name = dir.content name := by
  induction files generalizing dir with
  | nil => simp [Directory.createAll]
  | cons member members ih =>
      rw [List.map_cons, List.nodup_cons] at hnodup
      obtain ⟨hnames, hmembers, hothers⟩ := ih hnodup.2 (dir.create member.1 member.2)
      have hcons : dir.createAll (member :: members) =
          (dir.create member.1 member.2).createAll members := rfl
      rw [hcons]
      refine ⟨fun name => ?_, fun name file hmem => ?_, fun name hmem => ?_⟩
      · rw [hnames, Directory.mem_create, List.map_cons, List.mem_cons]
        tauto
      · rcases List.mem_cons.mp hmem with heq | hmem
        · obtain rfl : (name, file) = member := heq
          rw [hothers name hnodup.1]
          exact Directory.content_create_self
        · exact hmembers name file hmem
      · rw [List.map_cons, List.mem_cons, not_or] at hmem
        rw [hothers name hmem.2]
        exact Directory.content_create_of_ne hmem.1

/-! ### One date -/

variable {Archive : Type}

/-- The files `closed` are in the archive, `log1` being the last of them, and `newest` is `log0`. -/
structure Archived (tar : Tar Archive) (front : Frontname) (dir : Directory (File Archive))
    (closed : List (List Byte)) (newest : List Byte) : Prop where
  logs : ∀ name, front.log <+: name → (name ∈ dir.names ↔ name = front.logName 0)
  newest : dir.content (front.logName 0) = .text newest
  tarname : front.tarname ∈ dir.names
  members : ∃ archive, dir.content front.tarname = .archive archive ∧
    ((tar.members archive).map Prod.fst).Nodup ∧
    ∀ name file, (name, file) ∈ tar.members archive ↔
      ∃ k content, closed.reverse[k]? = some content ∧ name = front.logName (k + 1) ∧
        file = .text content

/-- What there is of a date under which files with these contents were opened, in this order. -/
inductive Holds (tar : Tar Archive) (front : Frontname) (dir : Directory (File Archive)) :
    List (List Byte) → Prop
  | absent (logs : ∀ name, front.log <+: name → name ∉ dir.names)
      (tarname : front.tarname ∉ dir.names) : Holds tar front dir []
  | archived {closed : List (List Byte)} {newest : List Byte}
      (h : Archived tar front dir closed newest) : Holds tar front dir (closed ++ [newest])

/-- A name stands for what it stood for before. -/
def Unchanged (dir dir' : Directory (File Archive)) (name : Name) : Prop :=
  (name ∈ dir'.names ↔ name ∈ dir.names) ∧ dir'.content name = dir.content name

section Roll

variable {tar : Tar Archive} {front : Frontname} {dir : Directory (File Archive)}
  {closed : List (List Byte)} {newest : List Byte}

theorem renameLogs_of_le {α : Type} {dir : Directory α} {n : Nat} (h : Numbered front dir n)
    (hn : n ≤ 10) :
    ∃ dir', renameLogs front dir = some (dir', []) ∧ Rotated front dir dir' n := by
  obtain ⟨dir', hrename, hgap⟩ := (gap_of_numbered h).rename hn le_rfl
  refine ⟨dir', ?_, hgap.rotated⟩
  rw [renameLogs, lines_eq h hn, hrename]

/-- What the script unpacks: the closed files and the newest, numbered from the newest on. -/
theorem Archived.unpacked (htar : tar.Lawful) (hfront : Portable front.name)
    (h : Archived tar front dir closed newest) (hlen : closed.length ≤ 9) :
    ∃ unpacked, unpacked = (tar.unpack front.tarname dir).rm front.tarname ∧
      Numbered front unpacked (closed.length + 1) ∧
      ∀ k content, (closed ++ [newest]).reverse[k]? = some content →
        unpacked.content (front.logName k) = .text content := by
  obtain ⟨archive, harchive, hnodup, hmembers⟩ := h.members
  have hmem : ∀ name, name ∈ (tar.members archive).map Prod.fst ↔
      ∃ k < closed.length, name = front.logName (k + 1) := by
    intro name
    rw [List.mem_map]
    constructor
    · rintro ⟨⟨_, file⟩, hmember, rfl⟩
      obtain ⟨k, content, hk, hname, -⟩ := (hmembers _ _).mp hmember
      have hlt := (List.getElem?_eq_some_iff.mp hk).1
      exact ⟨k, by simpa using hlt, hname⟩
    · rintro ⟨k, hk, rfl⟩
      have hlt : k < closed.reverse.length := by simpa using hk
      exact ⟨(_, _), (hmembers _ _).mpr ⟨k, _, List.getElem?_eq_getElem hlt, rfl, rfl⟩, rfl⟩
  have hportable : ∀ member ∈ tar.members archive, Portable member.1 := by
    intro member hmember
    obtain ⟨k, -, hname⟩ := (hmem member.1).mp (List.mem_map.mpr ⟨member, hmember, rfl⟩)
    rw [hname]
    exact hfront.logName (k + 1)
  have hunpack := htar.unpack _ dir archive hfront.tarname h.tarname harchive hportable
  obtain ⟨hnames, hcontent, hothers⟩ := Directory.createAll_spec hnodup dir
  refine ⟨_, rfl, ?_, ?_⟩
  · intro name hprefix
    have hne : name ≠ front.tarname := by
      rintro rfl
      exact not_log_prefix_tarname front hprefix
    rw [hunpack, Directory.mem_rm, hnames, hmem, h.logs name hprefix]
    constructor
    · rintro ⟨-, ⟨k, hk, rfl⟩ | rfl⟩
      · exact ⟨k + 1, by omega, rfl⟩
      · exact ⟨0, by omega, rfl⟩
    · rintro ⟨k, hk, rfl⟩
      cases k with
      | zero => exact ⟨hne, Or.inr rfl⟩
      | succ k => exact ⟨hne, Or.inl ⟨k, by omega, rfl⟩⟩
  · intro k content hk
    rw [hunpack]
    rw [List.reverse_append, List.reverse_singleton, List.singleton_append] at hk
    cases k with
    | zero =>
        have hnot : front.logName 0 ∉ (tar.members archive).map Prod.fst := by
          rw [hmem]
          rintro ⟨k, hk, heq⟩
          have hzero := logName_inj front (Nat.zero_le 10) (by omega) heq
          omega
        obtain rfl : newest = content := by simpa using hk
        exact (hothers _ hnot).trans h.newest
    | succ k =>
        exact hcontent _ _ ((hmembers _ _).mpr ⟨k, content, by simpa using hk, rfl, rfl⟩)

/-- `tar -zcf`, where the files to be packed are portable. -/
theorem Tar.Lawful.pack_logs (htar : tar.Lawful) (hfront : Portable front.name)
    (hlogs : ∀ name ∈ dir.logs front, Portable name) :
    ∃ archive, tar.members archive =
        (dir.logs front).map (fun name => (name, dir.content name)) ∧
      tar.pack front.tarname (dir.logs front) dir = dir.create front.tarname (.archive archive) := by
  refine htar.pack _ _ _ hfront.tarname (fun hmem => ?_) fun name hname => ?_
  · exact not_log_prefix_tarname front (Directory.mem_logs.mp hmem).2
  · exact ⟨hlogs name hname, (Directory.mem_logs.mp hname).1⟩

/-- The roll of a date that has files: the newest becomes the last of the closed ones. -/
theorem Archived.roll (htar : tar.Lawful) (hfront : Portable front.name)
    (h : Archived tar front dir closed newest) (hlen : closed.length ≤ 9) :
    ∃ dir', TarLogFile tar (front.logName 0) dir = some dir' ∧
      Archived tar front (fopen dir' (front.logName 0)) (closed ++ [newest]) [] := by
  obtain ⟨unpacked, hunpacked, hnumbered, hcontent⟩ := h.unpacked htar hfront hlen
  obtain ⟨renamed, hrename, hrotated⟩ := renameLogs_of_le hnumbered (by omega)
  have hlogs : ∀ name ∈ renamed.logs front, ∃ k < closed.length + 1,
      name = front.logName (k + 1) := by
    intro name hname
    obtain ⟨hmem, hprefix⟩ := Directory.mem_logs.mp hname
    exact (hrotated.names name hprefix).mp hmem
  have hportable : ∀ name ∈ renamed.logs front, Portable name := by
    intro name hname
    obtain ⟨k, -, rfl⟩ := hlogs name hname
    exact hfront.logName (k + 1)
  obtain ⟨archive, harchive, hpack⟩ := htar.pack_logs hfront hportable
  set packed := renamed.create front.tarname (.archive archive) with hpacked
  have hTar : TarLogFile tar (front.logName 0) dir = some (packed.rmLogs front) := by
    simp only [TarLogFile, frontname_logName_zero, Option.bind_eq_bind, Option.bind_some,
      if_pos h.tarname, ← hunpacked, hrename, hpack]
  have htarname : front.tarname ∈ (packed.rmLogs front).names := by
    rw [Directory.mem_rmLogs, hpacked, Directory.mem_create]
    exact ⟨Or.inl rfl, not_log_prefix_tarname front⟩
  have hnolog : ∀ name, front.log <+: name → name ∉ (packed.rmLogs front).names := by
    intro name hprefix hmem
    exact (Directory.mem_rmLogs.mp hmem).2 hprefix
  have hopen : fopen (packed.rmLogs front) (front.logName 0) =
      (packed.rmLogs front).create (front.logName 0) (.text []) := by
    rw [fopen, if_neg (hnolog _ (log_prefix_logName front 0))]
  have hnezero := tarname_ne_logName front 0
  refine ⟨_, hTar, ?_⟩
  rw [hopen]
  refine ⟨?_, Directory.content_create_self, ?_, archive, ?_, ?_, ?_⟩
  · intro name hprefix
    rw [Directory.mem_create]
    have hnot := hnolog name hprefix
    tauto
  · rw [Directory.mem_create]
    exact Or.inr htarname
  · rw [Directory.content_create_of_ne hnezero]
    exact Directory.content_create_self
  · rw [harchive, List.map_map]
    exact (List.map_id _).symm ▸ Directory.nodup_logs
  · intro name file
    rw [harchive, List.mem_map]
    constructor
    · rintro ⟨other, hother, heq⟩
      obtain ⟨rfl, rfl⟩ := Prod.mk.inj heq
      obtain ⟨k, hk, rfl⟩ := hlogs other hother
      have hlt : k < (closed ++ [newest]).reverse.length := by simpa using hk
      have hget := List.getElem?_eq_getElem hlt
      exact ⟨k, _, hget, rfl, (hrotated.content k hk).trans (hcontent k _ hget)⟩
    · rintro ⟨k, content, hk, rfl, rfl⟩
      have hlt : k < closed.length + 1 := by
        simpa using (List.getElem?_eq_some_iff.mp hk).1
      have hprefix := log_prefix_logName front (k + 1)
      refine ⟨_, Directory.mem_logs.mpr ⟨(hrotated.names _ hprefix).mpr ⟨k, hlt, rfl⟩, hprefix⟩, ?_⟩
      rw [(hrotated.content k hlt).trans (hcontent k content hk)]

/-- The first roll of a date. -/
theorem roll_of_none (htar : tar.Lawful) (hfront : Portable front.name)
    (hlogs : ∀ name, front.log <+: name → name ∉ dir.names) (htarname : front.tarname ∉ dir.names) :
    ∃ dir', TarLogFile tar (front.logName 0) dir = some dir' ∧
      Archived tar front (fopen dir' (front.logName 0)) [] [] := by
  have hnone : dir.logs front = [] := by
    refine List.eq_nil_iff_forall_not_mem.mpr fun name hname => ?_
    obtain ⟨hmem, hprefix⟩ := Directory.mem_logs.mp hname
    exact hlogs name hprefix hmem
  have hportable : ∀ name ∈ dir.logs front, Portable name := by
    rw [hnone]
    exact nofun
  obtain ⟨archive, harchive, hpack⟩ := htar.pack_logs hfront hportable
  have hTar : TarLogFile tar (front.logName 0) dir =
      some (dir.create front.tarname (.archive archive)) := by
    simp only [TarLogFile, frontname_logName_zero, Option.bind_eq_bind, Option.bind_some,
      if_neg htarname, hpack]
  have hnezero := tarname_ne_logName front 0
  have hopen : fopen (dir.create front.tarname (.archive archive)) (front.logName 0) =
      (dir.create front.tarname (.archive archive)).create (front.logName 0) (.text []) := by
    refine if_neg ?_
    rw [Directory.mem_create]
    rintro (heq | hmem)
    · exact hnezero heq.symm
    · exact hlogs _ (log_prefix_logName front 0) hmem
  refine ⟨_, hTar, ?_⟩
  rw [hopen]
  refine ⟨?_, Directory.content_create_self, ?_, archive, ?_, ?_, ?_⟩
  · intro name hprefix
    rw [Directory.mem_create, Directory.mem_create]
    have hnot := hlogs name hprefix
    have hne : name ≠ front.tarname := by
      rintro rfl
      exact not_log_prefix_tarname front hprefix
    tauto
  · rw [Directory.mem_create, Directory.mem_create]
    exact Or.inr (Or.inl rfl)
  · rw [Directory.content_create_of_ne hnezero]
    exact Directory.content_create_self
  · rw [harchive, hnone]
    exact List.nodup_nil
  · rw [harchive, hnone]
    simp

end Roll

end CppUtils.LogRotation
