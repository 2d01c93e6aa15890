import CppUtils.Lib.Progress
import CppUtils.Proof.LogSystemShutdown

/-!
# The destruction of an `AsyncLogInit` comes to an end

`stop` polls until `_currentBuffer` is empty, and the back end waits while it has nothing to do:
these steps change nothing, and every other step lowers `load`. A batch costs the back end a fixed
number of steps and one for each buffer, and each stream that is destroyed can make one more batch,
as can the end of `_running`. Where no step changes anything, the join has returned.
-/

namespace CppUtils

namespace AsyncLogging

variable {s s' : AsyncLogging}

/-- The steps to the next test of `_running`, and for the two sections before it. -/
def pcLoad (s : AsyncLogging) : Nat :=
  match s.pc with
  | .starting => 2
  | .test => 1
  | .lock => 0
  | .unlocked => s.taken.length + 3
  | .writing _ => s.taken.length + 2
  | .done => 0

/-- What is waiting makes a batch. -/
def batchLoad (s : AsyncLogging) : Nat :=
  s.buffers.length + if s.buffers = [] ∧ s.currentBuffer = some [] then 0 else 5

/-- The batch that is taken when `_running` is found to be false. -/
def lastLoad (s : AsyncLogging) : Nat := if s.running = true ∨ s.pc = .lock then 5 else 0

def load (s : AsyncLogging) : Nat := s.pcLoad + s.batchLoad + s.lastLoad

/-- The back end waits. -/
structure Resting (s : AsyncLogging) : Prop where
  pc : s.pc = .lock
  running : s.running = true
  buffers : s.buffers = []
  current : s.currentBuffer = some []

theorem resting_of_nothingToDo (hpc : s.pc = .lock) (hwait : s.nothingToDo = some true) :
    s.Resting := by
  unfold nothingToDo at hwait
  split at hwait
  case isTrue hcond =>
    rw [Bool.and_eq_true] at hcond
    obtain ⟨buffer, hcurrent, hempty⟩ := Option.map_eq_some_iff.mp hwait
    exact ⟨hpc, hcond.1, List.isEmpty_iff.mp hcond.2, hcurrent.trans (by
      rw [List.isEmpty_iff.mp hempty])⟩
  case isFalse => cases hwait

theorem load_swap (h : s.Inv) (hpc : s.pc = .lock) (hswap : s.swap = some s') :
    s' = s ∧ s.Resting ∨ s'.load < s.load := by
  obtain ⟨hhands, inFiles, inTaken, inBuffers, inCurrent, h⟩ := h
  have htaken : s.taken = [] := hhands.taken (by simp [hpc])
  have hbuffer1 := hhands.buffer1 (by simp [hpc]) (by simp [hpc])
  obtain ⟨wait, hwait, hswap⟩ := Option.bind_eq_some_iff.mp hswap
  cases wait with
  | true => exact Or.inl ⟨(Option.some.inj hswap).symm, resting_of_nothingToDo hpc hwait⟩
  | false =>
      obtain rfl := Option.some.inj hswap
      right
      have hdata : s.running = true → ¬ (s.buffers = [] ∧ s.currentBuffer = some []) := by
        rintro hrunning ⟨hbuffers, hcurrent⟩
        simp [nothingToDo, hrunning, hbuffers, hcurrent] at hwait
      simp only [load, pcLoad, batchLoad, lastLoad, hpc, hbuffer1, htaken, List.length_append,
        List.length_singleton]
      cases hrunning : s.running with
      | true => simp [hdata hrunning]
      | false => simp

theorem load_write {n : Int} (hpc : s.pc = .writing n) (hwrite : s.write n = some s') :
    s'.load < s.load := by
  unfold write at hwrite
  cases htaken : s.taken with
  | nil =>
      rw [htaken] at hwrite
      obtain rfl := Option.some.inj hwrite
      simp [load, pcLoad, batchLoad, lastLoad, hpc, htaken]
  | cons pBuf rest =>
      rw [htaken] at hwrite
      obtain ⟨buf, -, hwrite⟩ := Option.bind_eq_some_iff.mp hwrite
      obtain ⟨file, -, hwrite⟩ := Option.bind_eq_some_iff.mp hwrite
      obtain ⟨file', -, hwrite⟩ := Option.bind_eq_some_iff.mp hwrite
      obtain rfl := Option.some.inj hwrite
      simp [load, pcLoad, batchLoad, lastLoad, hpc, htaken]

theorem load_roll (hpc : s.pc = .unlocked) (hroll : s.roll = some s') : s'.load < s.load := by
  obtain ⟨n, -, hroll⟩ := Option.bind_eq_some_iff.mp hroll
  obtain rfl := Option.some.inj hroll
  simp only [load, pcLoad, batchLoad, lastLoad, hpc]
  split <;> simp

/-- A step of `mainRoutine` lowers the load, unless it waits. -/
theorem load_mainStep (h : s.Inv) (hmain : s.mainStep = some s') :
    s' = s ∧ s.Resting ∨ s'.load < s.load := by
  cases hpc : s.pc with
  | starting =>
      rw [mainStep, hpc] at hmain
      obtain rfl := Option.some.inj hmain
      right
      have hsteps : s.pcLoad = 2 := by rw [pcLoad, hpc]
      have hsteps' : s.enter.pcLoad = 1 := rfl
      have hbatch : s.enter.batchLoad = s.batchLoad := rfl
      have hlast : s.enter.lastLoad = s.lastLoad := by simp [lastLoad, enter, hpc]
      unfold load
      omega
  | test =>
      rw [mainStep, hpc] at hmain
      obtain rfl := Option.some.inj hmain
      right
      cases hrunning : s.running with
      | true => simp [load, pcLoad, batchLoad, lastLoad, hpc, test, hrunning]
      | false => simp [load, pcLoad, batchLoad, lastLoad, hpc, test, hrunning]
  | lock =>
      rw [mainStep, hpc] at hmain
      exact load_swap h hpc hmain
  | unlocked =>
      rw [mainStep, hpc] at hmain
      exact Or.inr (load_roll hpc hmain)
  | writing n =>
      rw [mainStep, hpc] at hmain
      exact Or.inr (load_write hpc hmain)
  | done =>
      rw [mainStep, hpc] at hmain
      cases hmain

theorem load_append {logline : List Byte} {len : Int} (happend : s.append logline len = some s') :
    s'.load ≤ s.load + 6 := by
  obtain ⟨current, hcurrent, happend⟩ := Option.bind_eq_some_iff.mp happend
  split at happend
  · obtain ⟨filled, -, happend⟩ := Option.bind_eq_some_iff.mp happend
    obtain rfl := Option.some.inj happend
    simp only [load, pcLoad, batchLoad, lastLoad]
    split <;> split <;> omega
  · obtain ⟨filled, -, happend⟩ := Option.bind_eq_some_iff.mp happend
    obtain rfl := Option.some.inj happend
    simp only [load, pcLoad, batchLoad, lastLoad, List.length_append, List.length_singleton]
    split <;> split <;> omega

theorem load_clearRunning (s : AsyncLogging) : s.clearRunning.load ≤ s.load := by
  have hpc : s.clearRunning.pcLoad = s.pcLoad := rfl
  have hbatch : s.clearRunning.batchLoad = s.batchLoad := rfl
  have hlast : s.clearRunning.lastLoad ≤ s.lastLoad := by
    by_cases hlock : s.pc = .lock
    · simp [lastLoad, clearRunning, hlock]
    · simp [lastLoad, clearRunning, hlock]
  unfold load
  omega

theorem load_le (s : AsyncLogging) : s.load ≤ s.taken.length + s.buffers.length + 13 := by
  have hpc : s.pcLoad ≤ s.taken.length + 3 := by
    unfold pcLoad
    split <;> omega
  have hbatch : s.batchLoad ≤ s.buffers.length + 5 := by
    unfold batchLoad
    split <;> omega
  have hlast : s.lastLoad ≤ 5 := by
    unfold lastLoad
    split <;> omega
  unfold load
  omega

/-- The end of `_running` ends the routine, and nothing else does. -/
theorem running_mainStep (hmain : s.mainStep = some s') :
    s'.running = s.running ∧ (s'.pc = .done → s.running = false) := by
  cases hpc : s.pc with
  | starting =>
      rw [mainStep, hpc] at hmain
      obtain rfl := Option.some.inj hmain
      exact ⟨rfl, fun hdone => by cases hdone⟩
  | test =>
      rw [mainStep, hpc] at hmain
      obtain rfl := Option.some.inj hmain
      unfold test
      split
      case isTrue => exact ⟨rfl, fun hdone => by cases hdone⟩
      case isFalse hrunning => exact ⟨rfl, fun _ => Bool.eq_false_of_not_eq_true hrunning⟩
  | lock =>
      rw [mainStep, hpc] at hmain
      obtain ⟨wait, -, hswap⟩ := Option.bind_eq_some_iff.mp hmain
      split at hswap
      · obtain rfl := Option.some.inj hswap
        exact ⟨rfl, fun hdone => by rw [hpc] at hdone; cases hdone⟩
      · obtain rfl := Option.some.inj hswap
        exact ⟨rfl, fun hdone => by cases hdone⟩
  | unlocked =>
      rw [mainStep, hpc] at hmain
      obtain ⟨n, -, hroll⟩ := Option.bind_eq_some_iff.mp hmain
      obtain rfl := Option.some.inj hroll
      refine ⟨?_, fun hdone => by cases hdone⟩
      simp only
      split <;> rfl
  | writing n =>
      rw [mainStep, hpc] at hmain
      simp only [write] at hmain
      split at hmain
      · obtain rfl := Option.some.inj hmain
        exact ⟨rfl, fun hdone => by cases hdone⟩
      · obtain ⟨buf, -, hmain⟩ := Option.bind_eq_some_iff.mp hmain
        obtain ⟨file, -, hmain⟩ := Option.bind_eq_some_iff.mp hmain
        obtain ⟨file', -, hmain⟩ := Option.bind_eq_some_iff.mp hmain
        obtain rfl := Option.some.inj hmain
        exact ⟨rfl, fun hdone => by rw [hpc] at hdone; cases hdone⟩
  | done =>
      rw [mainStep, hpc] at hmain
      cases hmain

theorem append_frame {logline : List Byte} {len : Int} (happend : s.append logline len = some s') :
    s'.running = s.running ∧ s'.pc = s.pc := by
  obtain ⟨current, -, happend⟩ := Option.bind_eq_some_iff.mp happend
  split at happend
  · obtain ⟨filled, -, happend⟩ := Option.bind_eq_some_iff.mp happend
    obtain rfl := Option.some.inj happend
    exact ⟨rfl, rfl⟩
  · obtain ⟨filled, -, happend⟩ := Option.bind_eq_some_iff.mp happend
    obtain rfl := Option.some.inj happend
    exact ⟨rfl, rfl⟩

/-- The back end does something, unless it waits or is through. -/
theorem exists_mainStep (h : s.Inv) (hpc : s.pc ≠ .done) (hbusy : ¬ s.Resting) :
    ∃ s', s.mainStep = some s' ∧ s'.load < s.load := by
  obtain ⟨s', hmain, -⟩ := h.mainStep hpc
  exact ⟨s', hmain, (load_mainStep h hmain).resolve_left fun hwait => hbusy hwait.2⟩

end AsyncLogging

/-- How many phases are to come. -/
def Phase.rank : Phase → Nat
  | .alive => 5
  | .releasing => 4
  | .polling => 3
  | .drained => 2
  | .joining => 1
  | .joined => 0

namespace LogSystem

variable {τ : Type} [DecidableEq τ] {s t : LogSystem τ}

def load (s : LogSystem τ) : Nat := 7 * s.streams.length + s.phase.rank + s.backend.load

/-- The back end runs until `stop` says so. -/
structure Running (s : LogSystem τ) : Prop where
  running : s.backend.running = true ↔ s.phase ≠ .joining ∧ s.phase ≠ .joined
  done : s.backend.running = true → s.backend.pc ≠ .done

/-- A step that changes something. -/
def Moves (s : LogSystem τ) (label : Label τ) (t : LogSystem τ) : Prop := Step s label t ∧ t ≠ s

omit [DecidableEq τ] in
theorem running_new (clocks : τ → Clock) (rollSize : Int) : Running (new clocks rollSize) where
  running := iff_of_true rfl ⟨nofun, nofun⟩
  done _ := nofun

theorem deliver_cases {u : τ} (hstep : s.deliver u = some t) :
    t.streams = s.streams ∧ t.phase = s.phase ∧
      ∃ msg len, s.backend.append msg len = some t.backend := by
  obtain ⟨out, -, hstep⟩ := Option.bind_eq_some_iff.mp hstep
  obtain ⟨backend, happend, hstep⟩ := Option.bind_eq_some_iff.mp hstep
  obtain rfl := Option.some.inj hstep
  exact ⟨rfl, rfl, out.msg, out.len, happend⟩

theorem destroy_cases {u : τ} (hstep : s.destroy u = some t) :
    s.phase = .releasing ∧ u ∈ s.streams ∧ t.streams = s.streams.erase u ∧ t.phase = s.phase ∧
      ∃ msg len, s.backend.append msg len = some t.backend := by
  obtain ⟨⟨hphase, hu⟩, hdeliver⟩ := Option.ite_none_right_eq_some.mp hstep
  obtain ⟨hstreams, hphase', hbackend⟩ := deliver_cases hdeliver
  exact ⟨hphase, hu, hstreams, hphase', hbackend⟩

omit [DecidableEq τ] in
theorem Running.of_append (h : Running s) (hphase : t.phase = s.phase) {msg : List Byte} {len : Int}
    (happend : s.backend.append msg len = some t.backend) : Running t := by
  obtain ⟨hrunning, hpc⟩ := AsyncLogging.append_frame happend
  constructor
  · rw [hrunning, hphase]
    exact h.running
  · rw [hrunning, hpc]
    exact h.done

theorem Running.step (h : Running s) {label : Label τ} (hstep : s.step label = some t) :
    Running t := by
  cases label with
  | start u statement =>
      obtain ⟨-, heq⟩ := Option.ite_none_right_eq_some.mp hstep
      cases heq
      exact ⟨h.running, h.done⟩
  | act u =>
      simp only [LogSystem.step, act] at hstep
      split at hstep
      · cases hstep
      · obtain ⟨-, hmap⟩ := Option.ite_none_right_eq_some.mp hstep
        obtain ⟨stream, -, rfl⟩ := Option.map_eq_some_iff.mp hmap
        exact ⟨h.running, h.done⟩
  | deliver u =>
      obtain ⟨-, hdeliver⟩ := Option.ite_none_right_eq_some.mp hstep
      obtain ⟨-, hphase, msg, len, happend⟩ := deliver_cases hdeliver
      exact h.of_append hphase happend
  | mainRoutine =>
      obtain ⟨backend, hmain, rfl⟩ := Option.map_eq_some_iff.mp hstep
      obtain ⟨hrunning, hdone⟩ := AsyncLogging.running_mainStep hmain
      refine ⟨hrunning ▸ h.running, fun hstill hpc => ?_⟩
      have hfalse := hdone hpc
      rw [hrunning, hfalse] at hstill
      cases hstill
  | release =>
      obtain ⟨⟨hphase, -⟩, heq⟩ := Option.ite_none_right_eq_some.mp hstep
      cases heq
      exact ⟨iff_of_true (h.running.mpr (by simp [hphase])) (by simp), h.done⟩
  | destroy u =>
      obtain ⟨-, -, -, hphase, msg, len, happend⟩ := destroy_cases hstep
      exact h.of_append hphase happend
  | released =>
      obtain ⟨⟨hphase, -⟩, heq⟩ := Option.ite_none_right_eq_some.mp hstep
      cases heq
      exact ⟨iff_of_true (h.running.mpr (by simp [hphase])) (by simp), h.done⟩
  | poll =>
      obtain ⟨hphase, hmap⟩ := Option.ite_none_right_eq_some.mp hstep
      obtain ⟨buffer, -, rfl⟩ := Option.map_eq_some_iff.mp hmap
      split
      · exact ⟨iff_of_true (h.running.mpr (by simp [hphase])) (by simp), h.done⟩
      · exact h
  | clearRunning =>
      obtain ⟨-, heq⟩ := Option.ite_none_right_eq_some.mp hstep
      cases heq
      exact ⟨iff_of_false (by simp [AsyncLogging.clearRunning]) (by simp), nofun⟩
  | join =>
      obtain ⟨⟨hphase, -⟩, heq⟩ := Option.ite_none_right_eq_some.mp hstep
      cases heq
      have hstopped : ¬ s.backend.running = true := fun hrunning =>
        (h.running.mp hrunning).1 hphase
      exact ⟨iff_of_false hstopped (by simp), fun hrunning => absurd hrunning hstopped⟩

/-- The loop of `stop` finds something in `_currentBuffer`, or the back end waits. -/
def Waits (s : LogSystem τ) (label : Label τ) : Prop :=
  label = .poll ∧ s.backend.currentBuffer ≠ some [] ∨ label = .mainRoutine ∧ s.backend.Resting

/-- Once the destruction has begun, a step lowers the load or changes nothing, and then it is one of
those that wait. -/
theorem load_step (h : s.Inv) (hphase : s.phase ≠ .alive) {label : Label τ}
    (hstep : s.step label = some t) :
    t.phase ≠ .alive ∧ (t = s ∧ Waits s label ∨ t.load < s.load) := by
  cases label with
  | start u statement =>
      obtain ⟨⟨halive, -⟩, -⟩ := Option.ite_none_right_eq_some.mp hstep
      exact absurd halive hphase
  | act u =>
      have hidle := (h.idle hphase u).1
      simp only [LogSystem.step, act, hidle] at hstep
      cases hstep
  | deliver u =>
      obtain ⟨halive, -⟩ := Option.ite_none_right_eq_some.mp hstep
      exact absurd halive hphase
  | mainRoutine =>
      obtain ⟨backend, hmain, rfl⟩ := Option.map_eq_some_iff.mp hstep
      refine ⟨hphase, ?_⟩
      rcases AsyncLogging.load_mainStep h.backend hmain with ⟨rfl, hrest⟩ | hless
      · exact Or.inl ⟨rfl, Or.inr ⟨rfl, hrest⟩⟩
      · exact Or.inr (Nat.add_lt_add_left hless _)
  | release =>
      obtain ⟨⟨halive, -⟩, -⟩ := Option.ite_none_right_eq_some.mp hstep
      exact absurd halive hphase
  | destroy u =>
      obtain ⟨hreleasing, hu, hstreams, hphase', msg, len, happend⟩ := destroy_cases hstep
      refine ⟨hphase' ▸ hphase, Or.inr ?_⟩
      have hload := AsyncLogging.load_append happend
      have hlength := List.length_erase_of_mem hu
      have hpos := List.length_pos_of_mem hu
      unfold load
      rw [hstreams, hphase', hlength]
      omega
  | released =>
      obtain ⟨⟨hreleasing, -⟩, heq⟩ := Option.ite_none_right_eq_some.mp hstep
      cases heq
      refine ⟨nofun, Or.inr ?_⟩
      simp [load, hreleasing, Phase.rank]
  | poll =>
      obtain ⟨hpolling, hmap⟩ := Option.ite_none_right_eq_some.mp hstep
      obtain ⟨buffer, hbuffer, rfl⟩ := Option.map_eq_some_iff.mp hmap
      split
      case isTrue =>
        refine ⟨nofun, Or.inr ?_⟩
        simp [load, hpolling, Phase.rank]
      case isFalse hlength =>
        refine ⟨hphase, Or.inl ⟨rfl, Or.inl ⟨rfl, fun hempty => hlength ?_⟩⟩⟩
        rw [Option.some.inj (hbuffer.symm.trans hempty)]
        rfl
  | clearRunning =>
      obtain ⟨hdrained, heq⟩ := Option.ite_none_right_eq_some.mp hstep
      cases heq
      refine ⟨nofun, Or.inr ?_⟩
      have hload := s.backend.load_clearRunning
      simp only [load, hdrained, Phase.rank]
      omega
  | join =>
      obtain ⟨⟨hjoining, -⟩, heq⟩ := Option.ite_none_right_eq_some.mp hstep
      cases heq
      refine ⟨nofun, Or.inr ?_⟩
      simp [load, hjoining, Phase.rank]

theorem exists_deliver {u : τ} {out : Output}
    (hout : (s.workers u).stream.sent[(s.workers u).delivered]? = some out) (hwhole : out.Whole)
    (hbackend : s.backend.Inv) : ∃ t, s.deliver u = some t := by
  obtain ⟨backend, happend, -⟩ := hbackend.append hwhole.2
  rw [← hwhole.1] at happend
  exact ⟨_, Option.bind_eq_some_iff.mpr
    ⟨out, hout, Option.bind_eq_some_iff.mpr ⟨backend, happend, rfl⟩⟩⟩

/-- The destructor of a stream is not stuck. -/
theorem exists_destroy (h : s.Inv) (hreleasing : s.phase = .releasing) {u : τ}
    (hu : u ∈ s.streams) : ∃ t, s.step (.destroy u) = some t := by
  have hidle := h.idle (by simp [hreleasing]) u
  obtain ⟨hwhole, hflushed⟩ := (h.pending u hu).destroy hidle
  have hdelivered : (s.workers u).delivered + 1 = (s.workers u).stream.destroy.sent.length :=
    hflushed.1.2
  -- the destructor calls `g_output` once more
  obtain ⟨out, hout⟩ : ∃ out, (s.workers u).stream.destroy.sent[(s.workers u).delivered]? = some out :=
    ⟨_, List.getElem?_eq_getElem (by omega)⟩
  have hdeliver : ∃ t, deliver { s with
      workers := Function.update s.workers u
        { s.workers u with stream := (s.workers u).stream.destroy }
      streams := s.streams.erase u } u = some t :=
    exists_deliver (by simpa only [Function.update_self] using hout)
      (hwhole out (List.mem_of_getElem? hout)) h.backend
  obtain ⟨t, ht⟩ := hdeliver
  exact ⟨t, (if_pos ⟨hreleasing, hu⟩).trans ht⟩

/-- Until the join has returned there is something to do that brings it nearer. -/
theorem exists_step (h : s.Inv) (hrun : Running s) (halive : s.phase ≠ .alive)
    (hjoined : s.phase ≠ .joined) : ∃ label t, Step s label t ∧ t.load < s.load := by
  -- the back end has something to do, or its waiting is over
  have hbackend (hpc : s.backend.pc ≠ .done) (hbusy : ¬ s.backend.Resting) :
      ∃ label t, Step s label t ∧ t.load < s.load := by
    obtain ⟨backend, hmain, hless⟩ := AsyncLogging.exists_mainStep h.backend hpc hbusy
    exact ⟨.mainRoutine, _, Option.map_eq_some_iff.mpr ⟨backend, hmain, rfl⟩,
      Nat.add_lt_add_left hless _⟩
  cases hphase : s.phase with
  | alive => exact absurd hphase halive
  | releasing =>
      cases hstreams : s.streams with
      | nil =>
          refine ⟨.released, { s with phase := .polling }, if_pos ⟨hphase, hstreams⟩, ?_⟩
          simp [load, hphase, Phase.rank]
      | cons u streams =>
          obtain ⟨t, ht⟩ := exists_destroy h hphase (u := u) (by simp [hstreams])
          obtain ⟨-, ⟨heq, -⟩ | hless⟩ := load_step h halive ht
          · have herase := (destroy_cases ht).2.2.1
            rw [heq, hstreams, List.erase_cons_head] at herase
            simpa using congrArg List.length herase
          · exact ⟨.destroy u, t, ht, hless⟩
  | polling =>
      have hrunning := hrun.running.mpr (by simp [hphase])
      obtain ⟨-, _, _, _, inCurrent, hpacked⟩ := h.backend
      have hcurrent : s.backend.currentBuffer = some inCurrent.flatten := hpacked.current
      by_cases hempty : inCurrent.flatten = []
      · refine ⟨.poll, { s with phase := .drained }, ?_, ?_⟩
        · rw [hempty] at hcurrent
          simp [Step, LogSystem.step, poll, hphase, hcurrent]
        · simp [load, hphase, Phase.rank]
      · refine hbackend (hrun.done hrunning) fun hrest => hempty ?_
        exact Option.some.inj (hcurrent.symm.trans hrest.current)
  | drained =>
      have hstep : s.step .clearRunning = some _ := if_pos hphase
      obtain ⟨-, ⟨heq, -⟩ | hless⟩ := load_step h halive hstep
      · rw [← heq] at hphase
        cases hphase
      · exact ⟨.clearRunning, _, hstep, hless⟩
  | joining =>
      by_cases hdone : s.backend.pc = .done
      · refine ⟨.join, { s with phase := .joined }, if_pos ⟨hphase, hdone⟩, ?_⟩
        simp [load, hphase, Phase.rank]
      · exact hbackend hdone fun hrest => (hrun.running.mp hrest.running).1 hphase
  | joined => exact absurd hphase hjoined

/-- The destruction has begun. -/
structure Ending (s : LogSystem τ) : Prop where
  inv : s.Inv
  running : Running s
  phase : s.phase ≠ .alive

theorem Ending.moves (h : Ending s) {label : Label τ} (hmoves : Moves s label t) :
    Ending t ∧ t.load < s.load := by
  obtain ⟨hstep, hne⟩ := hmoves
  obtain ⟨hphase, hload⟩ := load_step h.inv h.phase hstep
  refine ⟨⟨h.inv.step (fun u statement heq => ?_) hstep, h.running.step hstep, hphase⟩,
    hload.resolve_left fun hsame => hne hsame.1⟩
  -- no statement starts any more
  subst heq
  obtain ⟨⟨halive, -⟩, -⟩ := Option.ite_none_right_eq_some.mp hstep
  exact absurd halive h.phase

/-- What changes nothing waits. -/
theorem Ending.waits (h : Ending s) {label : Label τ} (hstep : Step s label s) : Waits s label :=
  ((load_step h.inv h.phase hstep).2.resolve_right (Nat.lt_irrefl _)).2

theorem Ending.load_le (h : Ending s) :
    s.load ≤ 7 * s.streams.length + s.backend.buffers.length + s.backend.taken.length + 17 := by
  have hbackend := s.backend.load_le
  have hrank : s.phase.rank ≤ 4 := by
    cases hphase : s.phase with
    | alive => exact absurd hphase h.phase
    | _ => simp [Phase.rank]
  unfold load
  omega

/-- Nothing happens after the join. -/
theorem Ending.not_step (h : Ending s) (hjoined : s.phase = .joined) (label : Label τ) :
    ¬ Step s label t := by
  intro hstep
  cases label with
  | start u statement => simp [Step, LogSystem.step, start, hjoined] at hstep
  | act u => simp [Step, LogSystem.step, act, (h.inv.idle h.phase u).1] at hstep
  | mainRoutine =>
      simp [Step, LogSystem.step, AsyncLogging.mainStep, h.inv.returned hjoined] at hstep
  | deliver u => simp [Step, LogSystem.step, hjoined] at hstep
  | destroy u => simp [Step, LogSystem.step, destroy, hjoined] at hstep
  | poll => simp [Step, LogSystem.step, poll, hjoined] at hstep
  | _ => simp [Step, LogSystem.step, hjoined] at hstep

theorem Ending.joined_iff (h : Ending s) :
    s.phase = .joined ↔ ∀ label t, ¬ Moves s label t := by
  refine ⟨fun hjoined label t hmoves => h.not_step hjoined label hmoves.1, fun hrest => ?_⟩
  by_contra hjoined
  obtain ⟨label, t, hstep, hless⟩ := exists_step h.inv h.running h.phase hjoined
  exact hrest label t ⟨hstep, fun heq => absurd hless (by rw [heq]; exact Nat.lt_irrefl _)⟩

/-- **The destruction of an `AsyncLogInit` comes to an end.** However its steps and those of the
back end are interleaved, only a bounded number of them changes anything, and none is left only when
the join in `stop` has returned. The other steps wait: for an empty `_currentBuffer`, or for
something to write. -/
theorem joined_of_run {clocks : τ → Clock} {rollSize : Int} {labels : List (Label τ)}
    (hrun : Transition.Run Step (new clocks rollSize) labels s)
    (hshort : ∀ u statement, Label.start u statement ∈ labels →
      statement.text.length < kBufferSize)
    (hphase : s.phase ≠ .alive) :
    (∀ labels' t, Transition.Run Moves s labels' t →
      labels'.length ≤
        7 * s.streams.length + s.backend.buffers.length + s.backend.taken.length + 17 ∧
      (t.phase = .joined ↔ ∀ label t', ¬ Moves t label t') ∧
      ∀ label, Step t label t → Waits t label) ∧
    ∃ labels' t, Transition.Run Moves s labels' t ∧ t.phase = .joined := by
  have hstep : ∀ (s : LogSystem τ) (label : Label τ) (s' : LogSystem τ),
      (∀ u statement, label = .start u statement → statement.text.length < kBufferSize) →
      s.Inv ∧ Running s → Step s label s' → s'.Inv ∧ Running s' :=
    fun _ _ _ hshort h hstep => ⟨h.1.step hshort hstep, h.2.step hstep⟩
  obtain ⟨hinv, hrunning⟩ := hrun.invariant_of_labels hstep
    (fun label hmem u statement heq => hshort u statement (heq ▸ hmem))
    ⟨inv_new clocks rollSize, running_new clocks rollSize⟩
  have hending : Ending s := ⟨hinv, hrunning, hphase⟩
  have hmoves : ∀ (s : LogSystem τ) (label : Label τ) (t : LogSystem τ),
      Ending s → Moves s label t → Ending t := fun _ _ _ h hmoves => (h.moves hmoves).1
  have hless : ∀ (s : LogSystem τ) (label : Label τ) (t : LogSystem τ),
      Ending s → True → Moves s label t → t.load < s.load := fun _ _ _ h _ hmoves => (h.moves hmoves).2
  constructor
  · intro labels' t hmore
    have hlength := Transition.Run.length_le_measure hmoves hless
      (hmore.imp fun _ _ _ hmoves => ⟨trivial, hmoves⟩) hending
    have hle := hending.load_le
    have hends := hmore.invariant hmoves hending
    exact ⟨by omega, hends.joined_iff, fun _ hstep => hends.waits hstep⟩
  · obtain ⟨labels', t, hmore, hrest⟩ := Transition.exists_rest hmoves hless s hending
    refine ⟨labels', t, hmore.of_working, ?_⟩
    exact (hmore.of_working.invariant hmoves hending).joined_iff.mpr fun label t' =>
      hrest label t' trivial

/-- A thread logged a line, and its stream is to be destroyed. -/
theorem joined_of_one_line : ∃ s : LogSystem Nat, s.phase = .releasing ∧ s.streams = [0] ∧
    (∀ labels t, Transition.Run Moves s labels t →
      labels.length ≤
        7 * s.streams.length + s.backend.buffers.length + s.backend.taken.length + 17 ∧
      (t.phase = .joined ↔ ∀ label t', ¬ Moves t label t') ∧
      ∀ label, Step t label t → Waits t label) ∧
    ∃ labels t, Transition.Run Moves s labels t ∧ t.phase = .joined := by
  have hreleasing : (([.start 0 (lineAt 1)] ++ List.replicate 13 (.act 0) ++ [.release] :
        List (Label Nat)).foldlM step (new (fun _ => ⟨false, 0⟩) 1000)).map
      (fun s => (s.phase, s.streams)) = some (.releasing, [0]) := by decide +kernel
  obtain ⟨s, hrun, hs⟩ := Option.map_eq_some_iff.mp hreleasing
  obtain ⟨hphase, hstreams⟩ := Prod.mk.inj hs
  refine ⟨s, hphase, hstreams, joined_of_run (.of_foldlM hrun) (fun u statement hmem => ?_)
    (by rw [hphase]; nofun)⟩
  simp only [List.mem_append, List.mem_cons, List.mem_replicate, List.not_mem_nil,
    Label.start.injEq, reduceCtorEq, and_false, or_false] at hmem
  obtain ⟨-, rfl⟩ := hmem
  decide

end LogSystem

end CppUtils
