import CppUtils.Proof.AsyncLoggingConservation
import Mathlib.Data.List.Forall2

/-!
# The sizes of the log files

A file is closed when the next batch would take it above `_rollSize`, so it holds no more than that
or nothing but one batch. The sums behind the test are `int`s, and they are right as long as the open
file and the batch together stay below 2 GiB (`FittingStep`); the front ends may queue more.
-/

namespace CppUtils.AsyncLogging

/-- The back end, with the batches that went into its files. -/
structure Batched where
  log : AsyncLogging
  /-- For each closed file, its batches. -/
  closed : List (List (List Byte))
  /-- The batches of the open file, the one that is being written included. -/
  opened : List (List Byte)

namespace Batched

def new (rollSize : Int) : Batched := ⟨.new rollSize, [], []⟩

/-- The batch that a step starts to write. -/
def batch (s : AsyncLogging) (label : Label) : List (List Byte) :=
  match label, s.pc with
  | .mainRoutine, .unlocked => [contents s.taken]
  | _, _ => []

def next (s : Batched) (label : Label) (log : AsyncLogging) : Batched :=
  if log.closed.length = s.log.closed.length then
    { s with log, opened := s.opened ++ batch s.log label }
  else { log, closed := s.closed ++ [s.opened], opened := batch s.log label }

def Step (s : Batched) (label : Label) (t : Batched) : Prop :=
  AsyncLogging.Step s.log label t.log ∧ t = s.next label t.log

/-- At most `rollSize` bytes, or exactly one batch. -/
def Fills (rollSize : Int) (file : List Byte) (batches : List (List Byte)) : Prop :=
  file = batches.flatten ∧ (file.length ≤ rollSize ∨ batches.length = 1)

/-- Every file is as large as it may be, and between two batches `written` is the size of the open
one. -/
structure Sized (s : Batched) : Prop where
  closed : List.Forall₂ (Fills s.log.rollSize) s.log.closed s.closed
  opened : (∀ n, s.log.pc ≠ .writing n) → ∀ file ∈ s.log.appender,
    Fills s.log.rollSize file s.opened ∧ s.log.written = file.length

/-- When it comes to a batch, the open file and the batch have less than 2 GiB together. -/
def Fits (s : Batched) : Prop :=
  s.log.pc = .unlocked → ∀ file ∈ s.log.appender,
    file.length + (contents s.log.taken).length < 2 ^ 31

def FittingStep (s : Batched) (label : Label) (t : Batched) : Prop :=
  s.Step label t ∧ (label = .mainRoutine → s.Fits)

/-- What is left to be written of the batch. -/
def unwritten (s : AsyncLogging) : List Byte :=
  match s.pc with
  | .writing _ => contents s.taken
  | _ => []

/-- What is left to be added to `written`. -/
def due (s : AsyncLogging) : Int :=
  match s.pc with
  | .writing n => n
  | _ => 0

structure Inv (s : Batched) : Prop where
  log : s.log.Inv
  rollSize : 0 ≤ s.log.rollSize
  closed : List.Forall₂ (Fills s.log.rollSize) s.log.closed s.closed
  opened : ∀ file ∈ s.log.appender, Fills s.log.rollSize (file ++ unwritten s.log) s.opened ∧
    s.log.written + due s.log = (file ++ unwritten s.log).length ∧
    (file ++ unwritten s.log).length < 2 ^ 31
  unopened : s.log.appender = none → s.opened = []

theorem inv_new {rollSize : Int} (h : 0 ≤ rollSize) : (new rollSize).Inv where
  log := AsyncLogging.inv_new rollSize
  rollSize := h
  closed := .nil
  opened := nofun
  unopened _ := rfl

theorem Inv.sized {s : Batched} (h : s.Inv) : s.Sized where
  closed := h.closed
  opened := by
    intro hpc file hfile
    have hunwritten : unwritten s.log = [] := by
      unfold unwritten
      split
      · exact absurd ‹_› (hpc _)
      · rfl
    have hdue : due s.log = 0 := by
      unfold due
      split
      · exact absurd ‹_› (hpc _)
      · rfl
    obtain ⟨hfills, hwritten, -⟩ := h.opened file hfile
    rw [hunwritten, List.append_nil] at hfills hwritten
    rw [hdue, Int.add_zero] at hwritten
    exact ⟨hfills, hwritten⟩

/-! ### The sums -/

theorem toInt_toInt_add (x y : Int) : toInt (toInt x + y) = toInt (x + y) := Int.bmod_add_bmod

theorem needWrite_map_bufferOf (groups : List (List (List Byte))) :
    needWrite (groups.map bufferOf) = some (toInt (contents (groups.map bufferOf)).length) := by
  suffices hsum : ∀ start : Int, (groups.map bufferOf).foldlM
      (fun needWrite pBuf => pBuf.map fun buf => toInt (needWrite + buf.length)) (toInt start) =
        some (toInt (start + (contents (groups.map bufferOf)).length)) by
    have hzero := hsum 0
    rwa [Int.zero_add] at hzero
  induction groups with
  | nil => exact fun start => by simp [contents]
  | cons messages groups ih =>
      intro start
      have hlength : ((contents ((messages :: groups).map bufferOf)).length : Int) =
          messages.flatten.length + (contents (groups.map bufferOf)).length := by
        simp [contents, bufferOf]
      have hrest := ih (start + messages.flatten.length)
      rw [hlength, ← Int.add_assoc, ← hrest, List.map_cons, List.foldlM_cons, bufferOf,
        Option.map_some, toInt_toInt_add]
      rfl

theorem exists_taken {s : AsyncLogging} (h : s.Inv) :
    ∃ groups : List (List (List Byte)), s.taken = groups.map bufferOf ∧
      ∀ messages ∈ groups, messages.flatten.length < BUFSIZE := by
  obtain ⟨-, inFiles, inTaken, inBuffers, inCurrent, h⟩ := h
  exact ⟨inTaken, h.taken, fun messages hmem => h.small messages (by simp [hmem])⟩

/-- What `roll` does: a file is opened if the sums say so. -/
theorem roll_cases {s t : AsyncLogging} (h : s.Inv) (hroll : s.roll = some t) :
    t.pc = .writing (toInt (contents s.taken).length) ∧ t.taken = s.taken ∧
    t.rollSize = s.rollSize ∧
    (toInt (s.written + toInt (contents s.taken).length) > s.rollSize ∧ t.closed = s.files ∧
        t.appender = some [] ∧ t.written = 0 ∨
      toInt (s.written + toInt (contents s.taken).length) ≤ s.rollSize ∧ t.closed = s.closed ∧
        t.appender = s.appender ∧ t.written = s.written) := by
  obtain ⟨groups, htaken, -⟩ := exists_taken h
  have hneed : needWrite s.taken = some (toInt (contents s.taken).length) := by
    rw [htaken]
    exact needWrite_map_bufferOf groups
  simp only [AsyncLogging.roll, hneed, Option.bind_eq_bind, Option.bind_some, Option.some.injEq]
    at hroll
  by_cases hfull : toInt (s.written + toInt (contents s.taken).length) > s.rollSize
  · rw [if_pos hfull] at hroll
    subst hroll
    exact ⟨rfl, rfl, rfl, .inl ⟨hfull, rfl, rfl, rfl⟩⟩
  · rw [if_neg hfull] at hroll
    subst hroll
    exact ⟨rfl, rfl, rfl, .inr ⟨Int.not_lt.mp hfull, rfl, rfl, rfl⟩⟩

/-- What `write` does: it adds the size of the batch to `written`, or writes a buffer. -/
theorem write_cases {s t : AsyncLogging} (h : s.Inv) {n : Int} (hpc : s.pc = .writing n)
    (hwrite : s.write n = some t) :
    (s.taken = [] ∧ t = { s with written := toInt (s.written + n), pc := .test }) ∨
    ∃ buf rest file, s.taken = some buf :: rest ∧ s.appender = some file ∧
      t = { s with appender := some (file ++ buf), taken := rest } := by
  have happender := h.1.appender (by simp [hpc]) (by simp [hpc])
  obtain ⟨groups, htaken, hsmall⟩ := exists_taken h
  cases groups with
  | nil =>
      have hnone : s.taken = [] := htaken
      simp only [AsyncLogging.write, hnone, Option.some.injEq] at hwrite
      exact .inl ⟨hnone, by rw [← hwrite, hnone]⟩
  | cons messages groups =>
      have hcons : s.taken = some messages.flatten :: groups.map bufferOf := htaken
      obtain ⟨file, hfile⟩ := Option.ne_none_iff_exists'.mp happender
      rw [write_cons n hcons hfile (hsmall messages List.mem_cons_self), Option.some.injEq] at hwrite
      exact .inr ⟨_, _, file, hcons, hfile, hwrite.symm⟩

/-! ### The steps -/

theorem append_frame {s t : AsyncLogging} {logline : List Byte} {len : Int}
    (happend : s.append logline len = some t) :
    t = { s with
      currentBuffer := t.currentBuffer
      nextBuffer := t.nextBuffer
      buffers := t.buffers
      appended := t.appended } := by
  obtain ⟨currentBuffer, -, happend⟩ := Option.bind_eq_some_iff.mp happend
  split at happend <;>
  · obtain ⟨buffer, -, hsome⟩ := Option.bind_eq_some_iff.mp happend
    rw [← Option.some.inj hsome]

theorem swap_frame {s t : AsyncLogging} (hswap : s.swap = some t) :
    t = s ∨ t.pc = .unlocked ∧ t = { s with
      currentBuffer := t.currentBuffer
      buffer1 := t.buffer1
      nextBuffer := t.nextBuffer
      buffer2 := t.buffer2
      taken := t.taken
      buffers := t.buffers
      pc := t.pc } := by
  obtain ⟨wait, -, hswap⟩ := Option.bind_eq_some_iff.mp hswap
  split at hswap
  · exact .inl (Option.some.inj hswap).symm
  · refine .inr ?_
    rw [← Option.some.inj hswap]
    exact ⟨rfl, rfl⟩

theorem next_eq {s : Batched} {label : Label} {log : AsyncLogging}
    (hclosed : log.closed = s.log.closed) :
    s.next label log = { s with log, opened := s.opened ++ batch s.log label } := by
  rw [next, if_pos (congrArg List.length hclosed)]

theorem next_eq_of_close {s : Batched} {label : Label} {log : AsyncLogging} {file : List Byte}
    (hfile : s.log.appender = some file) (hclosed : log.closed = s.log.files) :
    s.next label log = ⟨log, s.closed ++ [s.opened], batch s.log label⟩ := by
  have hlength : log.closed.length = s.log.closed.length + 1 := by
    rw [hclosed, files, hfile, Option.toList_some, List.length_append, List.length_singleton]
  rw [next, if_neg (by omega)]

/-- A step that leaves the files and the sums alone, and starts no batch. -/
theorem Inv.next_of_frame {s : Batched} (h : s.Inv) {label : Label} {log : AsyncLogging}
    (hlog : log.Inv) (hbatch : batch s.log label = []) (hsize : log.rollSize = s.log.rollSize)
    (hclosed : log.closed = s.log.closed) (happender : log.appender = s.log.appender)
    (hwritten : log.written = s.log.written) (hunwritten : unwritten log = unwritten s.log)
    (hdue : due log = due s.log) : (s.next label log).Inv := by
  rw [next_eq hclosed, hbatch, List.append_nil]
  refine ⟨hlog, hsize ▸ h.rollSize, ?_, ?_, ?_⟩
  · rw [hsize, hclosed]
    exact h.closed
  · rw [hsize, happender, hwritten, hunwritten, hdue]
    exact h.opened
  · rw [happender]
    exact h.unopened

theorem Inv.enter {s : Batched} (h : s.Inv) (hpc : s.log.pc = .starting) :
    (s.next .mainRoutine s.log.enter).Inv := by
  have hfiles : s.log.files = [] := h.log.1.starting.mpr hpc
  have hnone : s.log.appender = none := by
    simpa using (List.append_eq_nil_iff.mp hfiles).2
  have hbatch : batch s.log .mainRoutine = [] := by simp [batch, hpc]
  have hclosed : s.log.enter.closed = s.log.closed := rfl
  rw [next_eq hclosed, hbatch, List.append_nil, h.unopened hnone]
  refine ⟨h.log.enter hpc, h.rollSize, h.closed, ?_, nofun⟩
  intro file hfile
  obtain rfl := Option.some.inj hfile
  exact ⟨⟨rfl, .inl h.rollSize⟩, rfl, Nat.two_pow_pos 31⟩

theorem Inv.test {s : Batched} (h : s.Inv) (hpc : s.log.pc = .test) :
    (s.next .mainRoutine s.log.test).Inv := by
  have hlog := h.log.test hpc
  have hbatch : batch s.log .mainRoutine = [] := by simp [batch, hpc]
  have hunwritten : unwritten s.log = [] := by simp [unwritten, hpc]
  have hdue : due s.log = 0 := by simp [due, hpc]
  by_cases hrunning : s.log.running
  · have htest : s.log.test = { s.log with taken := [], pc := .lock } := if_pos hrunning
    rw [htest] at hlog ⊢
    exact h.next_of_frame hlog hbatch rfl rfl rfl rfl hunwritten.symm hdue.symm
  · have htest : s.log.test = { s.log with closed := s.log.files, appender := none, pc := .done } :=
      if_neg hrunning
    have happender := h.log.1.appender (by simp [hpc]) (by simp [hpc])
    obtain ⟨file, hfile⟩ := Option.ne_none_iff_exists'.mp happender
    obtain ⟨hfills, -⟩ := h.opened file hfile
    rw [hunwritten, List.append_nil] at hfills
    rw [htest] at hlog ⊢
    rw [next_eq_of_close hfile rfl, hbatch]
    refine ⟨hlog, h.rollSize, ?_, by rintro _ ⟨⟩, fun _ => rfl⟩
    change List.Forall₂ _ s.log.files _
    rw [files, hfile, Option.toList_some]
    exact List.rel_append h.closed (.cons hfills .nil)

theorem Inv.roll {s : Batched} (h : s.Inv) (hpc : s.log.pc = .unlocked) (hfits : s.Fits)
    {log : AsyncLogging} (hroll : s.log.roll = some log) :
    (s.next .mainRoutine log).Inv := by
  have hlog : log.Inv := by
    obtain ⟨t, ht, hinv, -⟩ := h.log.roll hpc
    rw [hroll] at ht
    exact Option.some.inj ht ▸ hinv
  have happender := h.log.1.appender (by simp [hpc]) (by simp [hpc])
  obtain ⟨file, hfile⟩ := Option.ne_none_iff_exists'.mp happender
  obtain ⟨hfills, hwritten, -⟩ := h.opened file hfile
  have hlt := hfits hpc file hfile
  have hunwritten : unwritten s.log = [] := by simp [unwritten, hpc]
  have hdue : due s.log = 0 := by simp [due, hpc]
  have hbatch : batch s.log .mainRoutine = [contents s.log.taken] := by simp [batch, hpc]
  rw [hunwritten, List.append_nil] at hfills hwritten
  rw [hdue, Int.add_zero] at hwritten
  -- neither sum leaves the range of `int`
  have hneed : toInt (contents s.log.taken).length = (contents s.log.taken).length :=
    toInt_of_mem (by omega) (by omega)
  have hsum : toInt (s.log.written + (contents s.log.taken).length) =
      file.length + (contents s.log.taken).length := by
    rw [hwritten]
    exact toInt_of_mem (by omega) (by omega)
  obtain ⟨hpc', htaken, hsize, hcases⟩ := roll_cases h.log hroll
  rw [hneed] at hpc' hcases
  rw [hsum] at hcases
  have hunwritten' : unwritten log = contents s.log.taken := by
    rw [unwritten, hpc', htaken]
  have hdue' : due log = (contents s.log.taken).length := by rw [due, hpc']
  rcases hcases with ⟨hfull, hclosed, hopen, hzero⟩ | ⟨hroom, hclosed, hopen, hkeep⟩
  · rw [next_eq_of_close hfile hclosed, hbatch]
    refine ⟨hlog, hsize ▸ h.rollSize, ?_, ?_, ?_⟩
    · change List.Forall₂ (Fills log.rollSize) log.closed _
      rw [hsize, hclosed, files, hfile, Option.toList_some]
      exact List.rel_append h.closed (.cons hfills .nil)
    · intro file' hfile'
      obtain rfl := Option.some.inj (hopen.symm.trans hfile')
      change Fills log.rollSize ([] ++ unwritten log) _ ∧ log.written + due log = _ ∧ _ < _
      rw [List.nil_append, hunwritten', hdue', hzero, Int.zero_add]
      exact ⟨⟨by simp, .inr rfl⟩, rfl, by omega⟩
    · intro hnone
      rw [show log.appender = some [] from hopen] at hnone
      cases hnone
  · rw [next_eq hclosed, hbatch]
    refine ⟨hlog, hsize ▸ h.rollSize, ?_, ?_, ?_⟩
    · change List.Forall₂ (Fills log.rollSize) log.closed _
      rw [hsize, hclosed]
      exact h.closed
    · intro file' hfile'
      obtain rfl := Option.some.inj ((hopen.trans hfile).symm.trans hfile')
      change Fills log.rollSize (file ++ unwritten log) _ ∧ log.written + due log = _ ∧ _ < _
      rw [hunwritten', hdue', hkeep, hwritten, hsize, List.length_append]
      refine ⟨⟨?_, .inl ?_⟩, rfl, hlt⟩
      · rw [hfills.1]
        simp
      · rw [List.length_append]
        push_cast
        exact hroom
    · intro hnone
      rw [show log.appender = some file from hopen.trans hfile] at hnone
      cases hnone

theorem Inv.write {s : Batched} (h : s.Inv) {n : Int} (hpc : s.log.pc = .writing n)
    {log : AsyncLogging} (hwrite : s.log.write n = some log) :
    (s.next .mainRoutine log).Inv := by
  have hlog : log.Inv := by
    obtain ⟨t, ht, hinv, -⟩ := h.log.write hpc
    rw [hwrite] at ht
    exact Option.some.inj ht ▸ hinv
  have hbatch : batch s.log .mainRoutine = [] := by simp [batch, hpc]
  have hunwritten : unwritten s.log = contents s.log.taken := by rw [unwritten, hpc]
  have hdue : due s.log = n := by rw [due, hpc]
  rcases write_cases h.log hpc hwrite with ⟨htaken, rfl⟩ | ⟨buf, rest, file, htaken, hfile, rfl⟩
  · rw [next_eq (by rfl), hbatch, List.append_nil]
    refine ⟨hlog, h.rollSize, h.closed, fun file hfile => ?_, h.unopened⟩
    obtain ⟨hfills, hwritten, hlt⟩ := h.opened file hfile
    have hnil : unwritten s.log = [] := by rw [hunwritten, htaken]; rfl
    rw [hnil, List.append_nil] at hfills hwritten hlt
    rw [hdue] at hwritten
    refine ⟨?_, ?_, ?_⟩
    · change Fills s.log.rollSize (file ++ []) s.opened
      rwa [List.append_nil]
    · change toInt (s.log.written + n) + 0 = ((file ++ []).length : Int)
      rw [List.append_nil, Int.add_zero, hwritten]
      exact toInt_of_mem (by omega) (by omega)
    · change (file ++ []).length < 2 ^ 31
      rwa [List.append_nil]
  · rw [next_eq (by rfl), hbatch, List.append_nil]
    refine ⟨hlog, h.rollSize, h.closed, fun file' hfile' => ?_, nofun⟩
    obtain rfl := Option.some.inj hfile'
    have hopened := h.opened file hfile
    have hsplit : file ++ unwritten s.log = (file ++ buf) ++ contents rest := by
      rw [hunwritten, htaken]
      simp [contents]
    rw [hsplit] at hopened
    have hrest : unwritten { s.log with appender := some (file ++ buf), taken := rest } =
        contents rest := by
      simp only [unwritten, hpc]
    have hdue' : due { s.log with appender := some (file ++ buf), taken := rest } = due s.log := rfl
    rw [hrest, hdue']
    exact hopened

theorem Inv.mainStep {s : Batched} (h : s.Inv) (hfits : s.Fits) {log : AsyncLogging}
    (hmain : s.log.mainStep = some log) : (s.next .mainRoutine log).Inv := by
  unfold AsyncLogging.mainStep at hmain
  split at hmain
  case h_1 hpc =>
    obtain rfl := Option.some.inj hmain
    exact h.enter hpc
  case h_2 hpc =>
    obtain rfl := Option.some.inj hmain
    exact h.test hpc
  case h_3 hpc =>
    obtain ⟨t, ht, hlog, -⟩ := h.log.swap hpc
    obtain rfl := Option.some.inj (ht.symm.trans hmain)
    have hbatch : batch s.log .mainRoutine = [] := by simp [batch, hpc]
    have hunwritten : unwritten s.log = [] := by simp [unwritten, hpc]
    have hdue : due s.log = 0 := by simp [due, hpc]
    rcases swap_frame hmain with rfl | ⟨hpc', hframe⟩
    · exact h.next_of_frame hlog hbatch rfl rfl rfl rfl rfl rfl
    · have hunwritten' : unwritten t = [] := by simp [unwritten, hpc']
      have hdue' : due t = 0 := by simp [due, hpc']
      exact h.next_of_frame hlog hbatch (by rw [hframe]) (by rw [hframe]) (by rw [hframe])
        (by rw [hframe]) (hunwritten'.trans hunwritten.symm) (hdue'.trans hdue.symm)
  case h_4 hpc => exact h.roll hpc hfits hmain
  case h_5 n hpc => exact h.write hpc hmain
  case h_6 => cases hmain

theorem Inv.step {s t : Batched} {label : Label} (h : s.Inv) (hstep : FittingStep s label t) :
    t.Inv := by
  obtain ⟨⟨hlog, ht⟩, hfits⟩ := hstep
  rw [ht]
  generalize t.log = log at hlog
  have hinv : log.Inv := h.log.step hlog
  cases hlog with
  | append hlen happend =>
      have hframe := append_frame happend
      refine h.next_of_frame hinv rfl (by rw [hframe]) (by rw [hframe]) (by rw [hframe])
        (by rw [hframe]) ?_ ?_
      · rw [hframe]
        rfl
      · rw [hframe]
        rfl
  | mainRoutine hmain => exact h.mainStep (hfits rfl) hmain
  | stop => exact h.next_of_frame hinv rfl rfl rfl rfl rfl rfl rfl

theorem inv_of_reachable {rollSize : Int} (hsize : 0 ≤ rollSize) {s : Batched}
    (hs : Transition.Reachable (· = new rollSize) FittingStep s) : s.Inv :=
  hs.invariant_from (inv_new hsize) fun _ _ _ h hstep => h.step hstep

/-! ### Batches that do not fit -/

@[simp] theorem next_log (s : Batched) (label : Label) (log : AsyncLogging) :
    (s.next label log).log = log := by
  unfold next
  split <;> rfl

theorem exists_lift {s : Batched} {labels : List Label} {log : AsyncLogging}
    (hrun : Transition.Run AsyncLogging.Step s.log labels log) :
    ∃ t : Batched, t.log = log ∧ Transition.Run Step s labels t := by
  generalize hstart : s.log = start at hrun
  induction hrun generalizing s with
  | nil => exact ⟨s, hstart, .nil s⟩
  | @cons _ m _ label _ first rest ih =>
      obtain ⟨t, ht, hrun⟩ := ih (next_log s label m)
      have hstep : Step s label (s.next label m) := by
        rw [Step, next_log, hstart]
        exact ⟨first, rfl⟩
      exact ⟨t, ht, .cons hstep hrun⟩

/-- The buffers of a batch are written, whatever came out of the sums. -/
theorem exists_write_out {s : AsyncLogging} (h : s.Inv) {n : Int} (hpc : s.pc = .writing n)
    {file : List Byte} (hfile : s.appender = some file) :
    ∃ labels t, Transition.Run AsyncLogging.Step s labels t ∧ t.pc = .test ∧
      t.appender = some (file ++ contents s.taken) ∧ ∃ m, t.written = toInt m := by
  generalize hlength : s.taken.length = length
  induction length generalizing s file with
  | zero =>
      obtain ⟨t, hwrite, -⟩ := h.write hpc
      have hstep : AsyncLogging.Step s .mainRoutine t :=
        .mainRoutine (by rw [AsyncLogging.mainStep, hpc]; exact hwrite)
      rcases write_cases h hpc hwrite with ⟨htaken, rfl⟩ | ⟨buf, rest, file', htaken, -, -⟩
      · refine ⟨[.mainRoutine], _, .cons hstep (.nil _), rfl, ?_, _, rfl⟩
        rw [htaken]
        simpa [contents] using hfile
      · simp [htaken] at hlength
  | succ length ih =>
      obtain ⟨t, hwrite, hinv, -⟩ := h.write hpc
      have hstep : AsyncLogging.Step s .mainRoutine t :=
        .mainRoutine (by rw [AsyncLogging.mainStep, hpc]; exact hwrite)
      rcases write_cases h hpc hwrite with ⟨htaken, -⟩ | ⟨buf, rest, file', htaken, hfile', rfl⟩
      · simp [htaken] at hlength
      · obtain rfl := Option.some.inj (hfile.symm.trans hfile')
        rw [htaken, List.length_cons, Nat.add_right_cancel_iff] at hlength
        obtain ⟨labels, u, hrun, hpc', happender, hwritten⟩ := ih hinv hpc rfl hlength
        refine ⟨_, u, .cons hstep hrun, hpc', ?_, hwritten⟩
        rw [happender, htaken]
        simp [contents]

/-- A batch that does not fit ends up in a file whose size is not `written`. -/
theorem Inv.exists_not_sized {s : Batched} (h : s.Inv) (hnot : ¬s.Fits) :
    ∃ labels t, Transition.Run Step s labels t ∧ ¬t.Sized := by
  simp only [Fits, Classical.not_imp, not_forall, Nat.not_lt] at hnot
  obtain ⟨hpc, file, hfile, hlarge⟩ := hnot
  obtain ⟨-, hwritten, hlt⟩ := h.opened file hfile
  have hunwritten : unwritten s.log = [] := by simp [unwritten, hpc]
  have hdue : due s.log = 0 := by simp [due, hpc]
  rw [hunwritten, List.append_nil] at hwritten hlt
  rw [hdue, Int.add_zero] at hwritten
  obtain ⟨log, hroll, hlog, -⟩ := h.log.roll hpc
  have hstep : AsyncLogging.Step s.log .mainRoutine log :=
    .mainRoutine (by rw [AsyncLogging.mainStep, hpc]; exact hroll)
  obtain ⟨hpc', htaken, -, hcases⟩ := roll_cases h.log hroll
  -- the file that the batch goes to will have 2 GiB or more
  obtain ⟨file', hfile', hlarge'⟩ : ∃ file', log.appender = some file' ∧
      2 ^ 31 ≤ file'.length + (contents s.log.taken).length := by
    rcases hcases with ⟨hfull, -, hopen, -⟩ | ⟨-, -, hopen, -⟩
    · refine ⟨[], hopen, ?_⟩
      by_contra hsmall
      rw [List.length_nil, Nat.zero_add, Nat.not_le] at hsmall
      -- the batch alone fits, so the sum has wrapped around and is negative
      have hneed : toInt (contents s.log.taken).length = (contents s.log.taken).length :=
        toInt_of_mem (by omega) (by omega)
      have hwrapped : toInt (s.log.written + (contents s.log.taken).length) =
          toInt ((file.length : Int) + (contents s.log.taken).length - 2 ^ 32) := by
        rw [hwritten]
        exact (Int.sub_bmod_right _ _).symm
      have hnegative : toInt ((file.length : Int) + (contents s.log.taken).length - 2 ^ 32) =
          (file.length : Int) + (contents s.log.taken).length - 2 ^ 32 :=
        toInt_of_mem (by omega) (by omega)
      have hsize := h.rollSize
      rw [hneed, hwrapped, hnegative] at hfull
      omega
    · exact ⟨file, hopen.trans hfile, hlarge⟩
  obtain ⟨labels, u, hrun, hpc'', happender, m, hm⟩ := exists_write_out hlog hpc' hfile'
  obtain ⟨t, rfl, hlift⟩ := exists_lift (.cons hstep hrun)
  refine ⟨_, t, hlift, fun hsized => ?_⟩
  obtain ⟨-, hequal⟩ := hsized.opened (by simp [hpc'']) _ happender
  rw [hm, List.length_append, htaken] at hequal
  have hbound : toInt m < 2 ^ 31 := Int.bmod_lt (by decide)
  omega

theorem fittingStep_next {s : Batched} {label : Label} {log : AsyncLogging}
    (hstep : AsyncLogging.Step s.log label log) (hfits : label = .mainRoutine → s.Fits) :
    FittingStep s label (s.next label log) := by
  refine ⟨?_, hfits⟩
  rw [Step, next_log]
  exact ⟨hstep, rfl⟩

theorem exists_fittingStep {s : Batched} {log : AsyncLogging} (hmain : s.log.mainStep = some log)
    (hpc : s.log.pc ≠ .unlocked) : ∃ t : Batched, t.log = log ∧ FittingStep s .mainRoutine t := by
  have hfits : s.Fits := fun hunlocked => absurd hunlocked hpc
  exact ⟨_, next_log s _ log, fittingStep_next (.mainRoutine hmain) fun _ => hfits⟩

/-- `mainRoutine` takes whatever is queued. -/
theorem swap_of_queued {s : AsyncLogging}
    (hqueued : contents s.buffers ++ contents [s.currentBuffer] ≠ [])
    (hcurrent : s.currentBuffer ≠ none) :
    ∃ t, s.swap = some t ∧ t.pc = .unlocked ∧ t.appender = s.appender ∧
      contents t.taken = contents s.buffers ++ contents [s.currentBuffer] := by
  obtain ⟨buffer, hbuffer⟩ := Option.ne_none_iff_exists'.mp hcurrent
  have hbusy : s.nothingToDo = some false := by
    unfold nothingToDo
    split
    case isTrue hidle =>
      rw [Bool.and_eq_true, List.isEmpty_iff] at hidle
      rw [hidle.2, hbuffer] at hqueued
      simpa [hbuffer, contents] using hqueued
    case isFalse => rfl
  simp only [AsyncLogging.swap, hbusy, Option.bind_eq_bind, Option.bind_some, Bool.false_eq_true,
    if_false]
  refine ⟨_, rfl, rfl, rfl, ?_⟩
  simp [contents]

/-- Once the first file is open, the queued bytes are the batch. -/
theorem exists_first_batch {s : Batched} (hlog : s.log.Inv) (hpc : s.log.pc = .starting)
    (hrunning : s.log.running = true) (hpos : 0 < s.log.appended.flatten.length) :
    ∃ labels t, Transition.Run FittingStep s labels t ∧ t.log.pc = .unlocked ∧
      t.log.appender = some [] ∧
      (contents t.log.taken).length = s.log.appended.flatten.length := by
  obtain ⟨hhands, inFiles, inTaken, inBuffers, inCurrent, hpacked⟩ := hlog
  have hfiles : s.log.files = [] := hhands.starting.mpr hpc
  have htaken : s.log.taken = [] := hhands.taken (.inl hpc)
  have hqueued : contents s.log.buffers ++ contents [s.log.currentBuffer] =
      s.log.appended.flatten := by
    have hbytes := hpacked.bytes_eq
    rw [hfiles, htaken] at hbytes
    exact hbytes
  have hnonempty : contents s.log.buffers ++ contents [s.log.currentBuffer] ≠ [] := by
    rw [hqueued]
    exact List.ne_nil_of_length_pos hpos
  have hcurrent : s.log.currentBuffer ≠ none := by
    rw [hpacked.current]
    exact Option.some_ne_none _
  have htest : s.log.enter.test = { s.log.enter with taken := [], pc := .lock } := if_pos hrunning
  obtain ⟨log, hswap, hunlocked, happender, hcontents⟩ :=
    swap_of_queued (s := s.log.enter.test) (by rw [htest]; exact hnonempty)
      (by rw [htest]; exact hcurrent)
  obtain ⟨opened, hopened, hfirst⟩ := exists_fittingStep (s := s)
    (by rw [AsyncLogging.mainStep, hpc]) (by simp [hpc])
  obtain ⟨locked, hlocked, hsecond⟩ := exists_fittingStep (s := opened)
    (by rw [AsyncLogging.mainStep, hopened]; rfl) (by simp [hopened, enter])
  obtain ⟨t, ht, hthird⟩ := exists_fittingStep (s := locked)
    (by rw [AsyncLogging.mainStep, hlocked, htest]; rw [htest] at hswap; exact hswap)
    (by simp [hlocked, htest])
  refine ⟨_, t, .cons hfirst (.cons hsecond (.cons hthird (.nil t))), ?_, ?_, ?_⟩
  · rw [ht, hunlocked]
  · rw [ht, happender, htest]
    rfl
  · rw [ht, hcontents, htest, ← hqueued]
    rfl

/-- While the back end opens its first file, the front ends queue as much as they like. -/
theorem exists_backlog (k : Nat) {s : Batched} (hlog : s.log.Inv) (hpc : s.log.pc = .starting)
    (hrunning : s.log.running = true) (hpos : 0 < s.log.appended.flatten.length + k) :
    ∃ labels t, Transition.Run FittingStep s labels t ∧ t.log.pc = .unlocked ∧
      t.log.appender = some [] ∧
      (contents t.log.taken).length = s.log.appended.flatten.length + k := by
  induction k generalizing s with
  | zero => exact exists_first_batch hlog hpc hrunning hpos
  | succ k ih =>
      have hshort : [0#8].length ≤ kBufferSize := by decide
      obtain ⟨log, happend, hlog', happended⟩ := hlog.append hshort
      have hframe := append_frame happend
      have hlength : log.appended.flatten.length = s.log.appended.flatten.length + 1 := by
        rw [happended]
        simp
      have hnext := next_log s (.append [0#8]) log
      obtain ⟨labels, t, hrun, hpc', happender, hbytes⟩ := ih (s := s.next (.append [0#8]) log)
        (by rw [hnext]; exact hlog') (by rw [hnext, hframe]; exact hpc)
        (by rw [hnext, hframe]; exact hrunning) (by rw [hnext, hlength]; omega)
      refine ⟨_, t, .cons (fittingStep_next (.append hshort happend) nofun) hrun, hpc',
        happender, ?_⟩
      rw [hbytes, hnext, hlength]
      omega

/-- **The sizes of the log files.** As long as every batch fits, every file has at most `rollSize`
bytes or exactly one batch, and between the batches `written` is the size of the open file. A batch
that does not fit leads to a state where this is not so. -/
theorem sized_of_run {rollSize : Int} (hsize : 0 ≤ rollSize) {s : Batched}
    (hs : Transition.Reachable (· = new rollSize) FittingStep s) :
    s.Sized ∧ (¬s.Fits → ∃ labels t, Transition.Run Step s labels t ∧ ¬t.Sized) :=
  ⟨(inv_of_reachable hsize hs).sized, (inv_of_reachable hsize hs).exists_not_sized⟩

/-- A message of one byte does not fit into a file of size 0, so it has a file to itself. -/
theorem sized_after_write :
    ∃ s : Batched, s.log.closed = [[]] ∧ s.log.appender = some (bytes "a") ∧ s.log.written = 1 ∧
      s.Sized := by
  let appended := { AsyncLogging.new 0 with
    currentBuffer := some (bytes "a")
    appended := [bytes "a"] }
  let locked := appended.enter.test
  let swapped := { locked with
    currentBuffer := some []
    buffer1 := none
    taken := [some (bytes "a")]
    pc := .unlocked }
  let rolled := { swapped with buffer1 := some [], closed := [[]], pc := .writing 1 }
  let written := { rolled with appender := some (bytes "a"), taken := [] }
  let counted := { written with written := 1, pc := .test }
  have hrun : Transition.Run FittingStep (new 0)
      [.append (bytes "a"), .mainRoutine, .mainRoutine, .mainRoutine, .mainRoutine, .mainRoutine,
        .mainRoutine] ⟨counted, [[]], [bytes "a"]⟩ :=
    .cons (m := ⟨appended, [], []⟩) ⟨⟨.append (by decide) (by decide +kernel), rfl⟩, nofun⟩ <|
      .cons (m := ⟨appended.enter, [], []⟩) ⟨⟨.mainRoutine rfl, rfl⟩, fun _ => nofun⟩ <|
      .cons (m := ⟨locked, [], []⟩) ⟨⟨.mainRoutine rfl, rfl⟩, fun _ => nofun⟩ <|
      .cons (m := ⟨swapped, [], []⟩)
        ⟨⟨.mainRoutine (by decide +kernel), rfl⟩, fun _ => nofun⟩ <|
      .cons (m := ⟨rolled, [[]], [bytes "a"]⟩)
        ⟨⟨.mainRoutine (by decide +kernel), rfl⟩, fun _ _ file hfile => by cases hfile; decide⟩ <|
      .cons (m := ⟨written, [[]], [bytes "a"]⟩)
        ⟨⟨.mainRoutine (by decide +kernel), rfl⟩, fun _ => nofun⟩ <|
      .cons ⟨⟨.mainRoutine (by decide +kernel), rfl⟩, fun _ => nofun⟩ (.nil _)
  exact ⟨_, rfl, rfl, rfl, (sized_of_run (Int.le_refl 0) ⟨_, _, rfl, hrun⟩).1⟩

/-- 2 GiB are queued before the first file is open. -/
theorem not_sized :
    ¬ ∀ (rollSize : Int) (s : Batched), 0 ≤ rollSize →
      Transition.Reachable (· = new rollSize) Step s → s.Sized := by
  intro hsized
  obtain ⟨labels, s, hrun, hpc, happender, hbytes⟩ := exists_backlog (2 ^ 31) (s := new 0)
    (AsyncLogging.inv_new 0) rfl rfl (by omega)
  have hinv := inv_of_reachable (Int.le_refl 0) ⟨_, labels, rfl, hrun⟩
  have hnot : ¬s.Fits := by
    intro hfits
    have hlt := hfits hpc [] happender
    omega
  obtain ⟨labels', t, hrun', hnotSized⟩ := hinv.exists_not_sized hnot
  exact hnotSized (hsized 0 t (Int.le_refl 0)
    ⟨_, _, rfl, (hrun.imp fun _ _ _ hstep => hstep.1).append hrun'⟩)

end Batched

end CppUtils.AsyncLogging
