import CppUtils.LogSystem
import CppUtils.Lib.Interleaving
import CppUtils.Proof.LogStreamRecords
import CppUtils.Proof.AsyncLoggingConservation
import Mathlib.Data.List.Nodup

/-!
# Nothing is stranded at shutdown

What a thread is in the middle of is bound to end with its records whole (`Worker.Pending`); after
its stream was destroyed everything it logged has been handed over (`Worker.Flushed`). Then nobody
appends any more, an empty `_currentBuffer` means that `_buffers` is empty too, and this stays so
until `mainRoutine` has seen that `_running` is cleared, which it does with no batch in its hands.
-/

namespace CppUtils

open Interleaving

/-- The bytes `g_output` is called with, no more than a buffer. -/
def Output.Whole (out : Output) : Prop := out.len = out.msg.length ∧ out.msg.length ≤ kBufferSize

namespace Worker

/-- What remains of the statement completes its record. -/
def Pending (w : Worker) : Prop :=
  ∃ ls, w.todo.foldlM (Action.exec kFullBuffer) w.stream = some ls ∧
    ls.Between (w.history.map Statement.text)

def Flushed (w : Worker) : Prop :=
  w.Idle ∧ ∃ groups : List (List (List Byte)), w.stream.sent = groups.map LogStream.whole ∧
    groups.flatten = w.history.map Statement.text

theorem pending_new (clock : Clock) : (new clock).Pending := ⟨_, rfl, LogStream.between_new clock⟩

theorem flushed_new (clock : Clock) : (new clock).Flushed := ⟨⟨rfl, rfl⟩, [], rfl, rfl⟩

theorem whole_whole {group : List (List Byte)} (h : group.flatten.length ≤ kBufferSize) :
    (LogStream.whole group).Whole := ⟨rfl, h⟩

theorem Pending.whole {w : Worker} (h : w.Pending) : ∀ out ∈ w.stream.sent, out.Whole := by
  obtain ⟨ls, hrun, groups, rest, -, hholds⟩ := h
  intro out hout
  have hmem := (LogStream.sent_prefix_foldlM hrun).subset hout
  rw [hholds.sent] at hmem
  obtain ⟨group, hgroup, rfl⟩ := List.mem_map.mp hmem
  exact whole_whole (hholds.short group hgroup)

theorem Pending.start {w : Worker} (h : w.Pending) (hidle : w.todo = []) {statement : Statement}
    (hshort : statement.text.length < kBufferSize) :
    Pending { w with todo := statement.actions, history := w.history ++ [statement] } := by
  obtain ⟨ls, hrun, hbetween⟩ := h
  rw [hidle] at hrun
  cases hrun
  obtain ⟨ls', hlog, hbetween'⟩ := hbetween.log hshort
  rw [LogStream.log_eq_foldlM] at hlog
  exact ⟨ls', hlog, by rw [List.map_append]; exact hbetween'⟩

theorem Pending.act {w : Worker} (h : w.Pending) {action : Action} {rest : List Action}
    (htodo : w.todo = action :: rest) {stream : LogStream}
    (hexec : action.exec kFullBuffer w.stream = some stream) :
    Pending { w with stream := stream, todo := rest } := by
  obtain ⟨ls, hrun, hbetween⟩ := h
  rw [htodo, List.foldlM_cons, hexec] at hrun
  exact ⟨ls, hrun, hbetween⟩

/-- The destructor of an idle stream calls `g_output` once, and with that all is handed over. -/
theorem Pending.destroy {w : Worker} (h : w.Pending) (hidle : w.Idle) :
    (∀ out ∈ w.stream.destroy.sent, out.Whole) ∧
      Flushed { w with stream := w.stream.destroy, delivered := w.delivered + 1 } := by
  obtain ⟨ls, hrun, groups, rest, hrecords, hholds⟩ := h
  rw [hidle.1] at hrun
  cases hrun
  have hsent := hholds.sent_destroy
  refine ⟨?_, ⟨hidle.1, ?_⟩, groups ++ [rest], hsent, ?_⟩
  · intro out hout
    rw [hsent] at hout
    obtain ⟨group, hgroup, rfl⟩ := List.mem_map.mp hout
    exact whole_whole (hholds.short_concat group hgroup)
  · have hold : w.stream.sent.length = groups.length := by rw [hholds.sent, List.length_map]
    simp only [hsent, hidle.2, hold, List.length_map, List.length_append, List.length_singleton]
  · rw [← hrecords, List.flatten_append, List.flatten_singleton]

end Worker

namespace LogSystem

variable {τ : Type} [DecidableEq τ]

/-! ### Who appended what -/

/-- The messages in the back end are those that came from the threads, from each a prefix of what
went through its `g_output`. -/
structure Ledger (workers : τ → Worker) (backend : AsyncLogging) (order : List (τ × List Byte)) :
    Prop where
  appended : order.map Prod.snd = backend.appended
  sent : ∀ t, ofThread t order =
    ((workers t).stream.sent.take (workers t).delivered).map Output.msg
  delivered : ∀ t, (workers t).delivered ≤ (workers t).stream.sent.length

section Ledger

variable {workers : τ → Worker} {backend : AsyncLogging} {order : List (τ × List Byte)}

theorem Ledger.update (h : Ledger workers backend order) (t : τ) {w : Worker}
    (hsent : (workers t).stream.sent <+: w.stream.sent)
    (hdelivered : w.delivered = (workers t).delivered) :
    Ledger (Function.update workers t w) backend order := by
  refine ⟨h.appended, fun u => ?_, fun u => ?_⟩
  · by_cases hut : u = t
    · obtain ⟨more, hmore⟩ := hsent
      rw [hut, Function.update_self, hdelivered, ← hmore,
        List.take_append_of_le_length (h.delivered t)]
      exact h.sent t
    · rw [Function.update_of_ne hut]
      exact h.sent u
  · by_cases hut : u = t
    · rw [hut, Function.update_self, hdelivered]
      exact Nat.le_trans (h.delivered t) hsent.length_le
    · rw [Function.update_of_ne hut]
      exact h.delivered u

theorem Ledger.backend_step (h : Ledger workers backend order) {backend' : AsyncLogging}
    (happended : backend'.appended = backend.appended) : Ledger workers backend' order :=
  ⟨h.appended.trans happended.symm, h.sent, h.delivered⟩

theorem Ledger.deliver (h : Ledger workers backend order) {t : τ} {out : Output}
    (hout : (workers t).stream.sent[(workers t).delivered]? = some out)
    {backend' : AsyncLogging} (happended : backend'.appended = backend.appended ++ [out.msg]) :
    Ledger (Function.update workers t
      { workers t with delivered := (workers t).delivered + 1 }) backend'
      (order ++ [(t, out.msg)]) := by
  obtain ⟨hlt, -⟩ := List.getElem?_eq_some_iff.mp hout
  refine ⟨?_, fun u => ?_, fun u => ?_⟩
  · rw [List.map_append, h.appended, happended]
    rfl
  · rw [ofThread_append]
    by_cases hut : u = t
    · rw [hut, Function.update_self, ofThread_cons_self, h.sent t, List.take_add_one, hout,
        List.map_append]
      rfl
    · rw [Function.update_of_ne hut, ofThread_cons_of_ne (Ne.symm hut), h.sent u]
      exact List.append_nil _
  · by_cases hut : u = t
    · rw [hut, Function.update_self]
      exact hlt
    · rw [Function.update_of_ne hut]
      exact h.delivered u

end Ledger

theorem deliver_spec {s s' : LogSystem τ} {t : τ} (hbackend : s.backend.Inv)
    (hledger : Ledger s.workers s.backend s.order)
    (hwhole : ∀ out ∈ (s.workers t).stream.sent, out.Whole) (h : s.deliver t = some s') :
    (s.workers t).delivered < (s.workers t).stream.sent.length ∧
      s'.workers = Function.update s.workers t
        { s.workers t with delivered := (s.workers t).delivered + 1 } ∧
      s'.streams = s.streams ∧ s'.phase = s.phase ∧ s'.backend.Inv ∧
      Ledger s'.workers s'.backend s'.order := by
  obtain ⟨out, hout, h⟩ := Option.bind_eq_some_iff.mp h
  obtain ⟨backend, happend, h⟩ := Option.bind_eq_some_iff.mp h
  cases h
  obtain ⟨hlt, hget⟩ := List.getElem?_eq_some_iff.mp hout
  obtain ⟨hlen, hle⟩ := hwhole out (hget ▸ List.getElem_mem hlt)
  rw [hlen] at happend
  obtain ⟨backend', happend', hinv, happended⟩ := hbackend.append hle
  rw [happend] at happend'
  cases happend'
  have htake : out.msg.take out.len.toNat = out.msg := by
    rw [hlen, Int.toNat_natCast, List.take_length]
  refine ⟨hlt, rfl, rfl, rfl, hinv, ?_⟩
  simp only [htake]
  exact hledger.deliver hout happended

/-! ### The invariant of a run -/

structure Inv (s : LogSystem τ) : Prop where
  backend : s.backend.Inv
  ledger : Ledger s.workers s.backend s.order
  nodup : s.streams.Nodup
  pending : ∀ t ∈ s.streams, (s.workers t).Pending
  flushed : ∀ t, t ∉ s.streams → (s.workers t).Flushed
  ready : s.phase = .alive → ∀ t, (s.workers t).Pending
  idle : s.phase ≠ .alive → ∀ t, (s.workers t).Idle
  gone : s.phase ≠ .alive → s.phase ≠ .releasing → s.streams = []
  -- what `stop` saw, and nobody appends after it
  empty : s.phase ≠ .alive → s.phase ≠ .releasing → s.phase ≠ .polling →
    s.backend.currentBuffer = some [] ∧ s.backend.buffers = []
  returned : s.phase = .joined → s.backend.pc = .done

/-- While the `AsyncLogInit` is alive only the threads and the back end matter. -/
theorem inv_of_alive {s : LogSystem τ} (halive : s.phase = .alive) (hbackend : s.backend.Inv)
    (hledger : Ledger s.workers s.backend s.order) (hnodup : s.streams.Nodup)
    (hready : ∀ t, (s.workers t).Pending) (hflushed : ∀ t, t ∉ s.streams → (s.workers t).Flushed) :
    s.Inv where
  backend := hbackend
  ledger := hledger
  nodup := hnodup
  pending := fun t _ => hready t
  flushed := hflushed
  ready := fun _ => hready
  idle := fun hne => absurd halive hne
  gone := fun hne => absurd halive hne
  empty := fun hne => absurd halive hne
  returned := fun hjoined => by
    rw [halive] at hjoined
    cases hjoined

theorem inv_new (clocks : τ → Clock) (rollSize : Int) : (new clocks rollSize).Inv :=
  inv_of_alive rfl (AsyncLogging.inv_new rollSize) ⟨rfl, fun _ => rfl, fun _ => Nat.le_refl 0⟩
    List.nodup_nil (fun t => Worker.pending_new (clocks t)) fun t _ => Worker.flushed_new (clocks t)

section Steps

variable {s s' : LogSystem τ} {t : τ}

theorem mem_streams_start {u : τ} :
    u ∈ (if t ∈ s.streams then s.streams else s.streams ++ [t]) ↔ u ∈ s.streams ∨ u = t := by
  by_cases ht : t ∈ s.streams
  · rw [if_pos ht]
    exact ⟨Or.inl, fun hor => hor.elim id fun hut => hut ▸ ht⟩
  · rw [if_neg ht, List.mem_append, List.mem_singleton]

theorem nodup_streams_start (h : s.streams.Nodup) :
    (if t ∈ s.streams then s.streams else s.streams ++ [t]).Nodup := by
  by_cases ht : t ∈ s.streams
  · rw [if_pos ht]
    exact h
  · rw [if_neg ht]
    refine List.nodup_append.mpr ⟨h, List.nodup_singleton t, fun u hu v hv huv => ht ?_⟩
    rwa [← List.mem_singleton.mp hv, ← huv]

theorem Inv.start (h : s.Inv) {statement : Statement} (hshort : statement.text.length < kBufferSize)
    (hstep : s.start t statement = some s') : s'.Inv := by
  obtain ⟨⟨halive, hidle⟩, heq⟩ := Option.ite_none_right_eq_some.mp hstep
  cases heq
  have hready := h.ready halive
  refine inv_of_alive halive h.backend (h.ledger.update t (List.prefix_refl _) rfl)
    (nodup_streams_start h.nodup)
    ((Function.forall_update_iff s.workers fun _ w => w.Pending).mpr
      ⟨(hready t).start hidle.1 hshort, fun u _ => hready u⟩)
    ((Function.forall_update_iff s.workers fun u w => u ∉ _ → w.Flushed).mpr
      ⟨fun hnot => ?_, fun u hut hnot => ?_⟩)
  · exact absurd (mem_streams_start.mpr (Or.inr rfl)) hnot
  · exact h.flushed u fun hin => hnot (mem_streams_start.mpr (Or.inl hin))

theorem Inv.act (h : s.Inv) (hstep : s.act t = some s') : s'.Inv := by
  unfold LogSystem.act at hstep
  cases htodo : (s.workers t).todo with
  | nil =>
      simp only [htodo] at hstep
      cases hstep
  | cons action rest =>
      simp only [htodo] at hstep
      obtain ⟨-, hmap⟩ := Option.ite_none_right_eq_some.mp hstep
      obtain ⟨stream, hexec, rfl⟩ := Option.map_eq_some_iff.mp hmap
      have hbusy : ¬ (s.workers t).Idle := by
        intro hidle
        rw [hidle.1] at htodo
        cases htodo
      have halive : s.phase = .alive := by
        by_contra hne
        exact hbusy (h.idle hne t)
      have hready := h.ready halive
      refine inv_of_alive halive h.backend
        (h.ledger.update t (LogStream.sent_prefix_exec hexec) rfl) h.nodup
        ((Function.forall_update_iff s.workers fun _ w => w.Pending).mpr
          ⟨(hready t).act htodo hexec, fun u _ => hready u⟩)
        ((Function.forall_update_iff s.workers fun u w => u ∉ _ → w.Flushed).mpr
          ⟨fun hnot => ?_, fun u _ => h.flushed u⟩)
      exact absurd (h.flushed t hnot).1 hbusy

theorem Inv.deliver (h : s.Inv) (halive : s.phase = .alive) (hstep : s.deliver t = some s') :
    s'.Inv := by
  have hready := h.ready halive
  obtain ⟨hlt, hworkers, hstreams, hphase, hbackend, hledger⟩ :=
    deliver_spec h.backend h.ledger (hready t).whole hstep
  refine inv_of_alive (hphase.trans halive) hbackend hledger (hstreams ▸ h.nodup) ?_ ?_
  · rw [hworkers]
    exact (Function.forall_update_iff s.workers fun _ w => w.Pending).mpr
      ⟨hready t, fun u _ => hready u⟩
  · rw [hworkers, hstreams]
    refine (Function.forall_update_iff s.workers fun u w => u ∉ _ → w.Flushed).mpr
      ⟨fun hnot => ?_, fun u _ => h.flushed u⟩
    exact absurd (h.flushed t hnot).1.2 (Nat.ne_of_lt hlt)

theorem Inv.mainRoutine (h : s.Inv) {backend : AsyncLogging}
    (hstep : s.backend.mainStep = some backend) : Inv { s with backend := backend } := by
  have hpc : s.backend.pc ≠ .done := by
    intro hdone
    rw [AsyncLogging.mainStep, hdone] at hstep
    cases hstep
  obtain ⟨backend', hmain, hinv, happended, hempty⟩ := h.backend.mainStep hpc
  rw [hstep] at hmain
  cases hmain
  refine { h with
    backend := hinv
    ledger := h.ledger.backend_step happended
    empty := fun halive hreleasing hpolling => ?_
    returned := fun hjoined => absurd (h.returned hjoined) hpc }
  obtain ⟨hcurrent, hbuffers⟩ := h.empty halive hreleasing hpolling
  exact hempty hcurrent hbuffers

theorem Inv.release (h : s.Inv) (hidle : ∀ t ∈ s.streams, (s.workers t).Idle) :
    Inv { s with phase := .releasing } := by
  refine { h with
    ready := nofun
    idle := fun _ t => ?_
    gone := fun _ hne => absurd rfl hne
    empty := fun _ hne => absurd rfl hne
    returned := nofun }
  by_cases ht : t ∈ s.streams
  · exact hidle t ht
  · exact (h.flushed t ht).1

theorem Inv.destroy (h : s.Inv) (hstep : s.destroy t = some s') : s'.Inv := by
  obtain ⟨⟨hreleasing, ht⟩, hstep⟩ := Option.ite_none_right_eq_some.mp hstep
  have hidle := h.idle (by simp [hreleasing])
  obtain ⟨hwhole, hflushed⟩ := (h.pending t ht).destroy (hidle t)
  let mid : LogSystem τ := { s with
    workers := Function.update s.workers t
      { s.workers t with stream := (s.workers t).stream.destroy }
    streams := s.streams.erase t }
  have hdeliver : mid.deliver t = some s' := hstep
  have hmid : mid.workers t = { s.workers t with stream := (s.workers t).stream.destroy } :=
    Function.update_self ..
  have hledger : Ledger mid.workers mid.backend mid.order :=
    h.ledger.update t (List.prefix_append _ _) rfl
  have hinv : mid.backend.Inv := h.backend
  obtain ⟨-, hworkers, hstreams, hphase, hbackend, hledger'⟩ :=
    deliver_spec hinv hledger (by rw [hmid]; exact hwhole) hdeliver
  rw [hmid, Function.update_idem] at hworkers
  have hphase' : s'.phase = .releasing := hphase.trans hreleasing
  refine
    { backend := hbackend
      ledger := hledger'
      nodup := hstreams ▸ h.nodup.erase t
      pending := ?_
      flushed := ?_
      ready := fun halive => by simp [hphase'] at halive
      idle := fun _ => ?_
      gone := fun _ hne => absurd hphase' hne
      empty := fun _ hne => absurd hphase' hne
      returned := fun hjoined => by simp [hphase'] at hjoined }
  · rw [hworkers, hstreams]
    refine (Function.forall_update_iff s.workers fun u w => u ∈ _ → w.Pending).mpr
      ⟨fun hin => absurd hin h.nodup.not_mem_erase, fun u _ hin => ?_⟩
    exact h.pending u (List.mem_of_mem_erase hin)
  · rw [hworkers, hstreams]
    refine (Function.forall_update_iff s.workers fun u w => u ∉ _ → w.Flushed).mpr
      ⟨fun _ => hflushed, fun u hut hnot => ?_⟩
    exact h.flushed u fun hin => hnot ((List.mem_erase_of_ne hut).mpr hin)
  · rw [hworkers]
    exact (Function.forall_update_iff s.workers fun _ w => w.Idle).mpr
      ⟨hflushed.1, fun u _ => hidle u⟩

theorem Inv.released (h : s.Inv) (hreleasing : s.phase = .releasing) (hstreams : s.streams = []) :
    Inv { s with phase := .polling } :=
  { h with
    ready := nofun
    idle := fun _ => h.idle (by simp [hreleasing])
    gone := fun _ _ => hstreams
    empty := fun _ _ hne => absurd rfl hne
    returned := nofun }

theorem Inv.poll (h : s.Inv) (hstep : s.poll = some s') : s'.Inv := by
  obtain ⟨hpolling, hmap⟩ := Option.ite_none_right_eq_some.mp hstep
  obtain ⟨buffer, hcurrent, rfl⟩ := Option.map_eq_some_iff.mp hmap
  split
  · rename_i hzero
    have hnil : s.backend.currentBuffer = some [] := by
      rw [hcurrent, List.eq_nil_of_length_eq_zero hzero]
    exact { h with
      ready := nofun
      idle := fun _ => h.idle (by simp [hpolling])
      gone := fun _ _ => h.gone (by simp [hpolling]) (by simp [hpolling])
      empty := fun _ _ _ => ⟨hnil, h.backend.buffers_eq_nil hnil⟩
      returned := nofun }
  · exact h

theorem Inv.clearRunning (h : s.Inv) (hdrained : s.phase = .drained) :
    Inv { s with phase := .joining, backend := s.backend.clearRunning } :=
  { h with
    backend := h.backend.clearRunning
    ledger := h.ledger.backend_step rfl
    ready := nofun
    idle := fun _ => h.idle (by simp [hdrained])
    gone := fun _ _ => h.gone (by simp [hdrained]) (by simp [hdrained])
    empty := fun _ _ _ => h.empty (by simp [hdrained]) (by simp [hdrained]) (by simp [hdrained])
    returned := nofun }

theorem Inv.join (h : s.Inv) (hjoining : s.phase = .joining) (hdone : s.backend.pc = .done) :
    Inv { s with phase := .joined } :=
  { h with
    ready := nofun
    idle := fun _ => h.idle (by simp [hjoining])
    gone := fun _ _ => h.gone (by simp [hjoining]) (by simp [hjoining])
    empty := fun _ _ _ => h.empty (by simp [hjoining]) (by simp [hjoining]) (by simp [hjoining])
    returned := fun _ => hdone }

theorem Inv.step {label : Label τ} (h : s.Inv)
    (hshort : ∀ t statement, label = .start t statement → statement.text.length < kBufferSize)
    (hstep : s.step label = some s') : s'.Inv := by
  cases label with
  | start t statement => exact h.start (hshort t statement rfl) hstep
  | act t => exact h.act hstep
  | deliver t =>
      obtain ⟨halive, hdeliver⟩ := Option.ite_none_right_eq_some.mp hstep
      exact h.deliver halive hdeliver
  | mainRoutine =>
      obtain ⟨backend, hmain, rfl⟩ := Option.map_eq_some_iff.mp hstep
      exact h.mainRoutine hmain
  | release =>
      obtain ⟨hcond, heq⟩ := Option.ite_none_right_eq_some.mp hstep
      cases heq
      exact h.release hcond.2
  | destroy t => exact h.destroy hstep
  | released =>
      obtain ⟨hcond, heq⟩ := Option.ite_none_right_eq_some.mp hstep
      cases heq
      exact h.released hcond.1 hcond.2
  | poll => exact h.poll hstep
  | clearRunning =>
      obtain ⟨hdrained, heq⟩ := Option.ite_none_right_eq_some.mp hstep
      cases heq
      exact h.clearRunning hdrained
  | join =>
      obtain ⟨⟨hjoining, hdone⟩, heq⟩ := Option.ite_none_right_eq_some.mp hstep
      cases heq
      exact h.join hjoining hdone

/-! ### The history of a run -/

theorem history_update {workers : τ → Worker} {w : Worker} (h : w.history = (workers t).history)
    (u : τ) : (Function.update workers t w u).history = (workers u).history := by
  by_cases hut : u = t
  · rw [hut, Function.update_self, h]
  · rw [Function.update_of_ne hut]

theorem history_deliver (hstep : s.deliver t = some s') (u : τ) :
    (s'.workers u).history = (s.workers u).history := by
  obtain ⟨out, -, h⟩ := Option.bind_eq_some_iff.mp hstep
  obtain ⟨backend, -, h⟩ := Option.bind_eq_some_iff.mp h
  cases h
  refine history_update ?_ u
  rfl

theorem history_act (hstep : s.act t = some s') (u : τ) :
    (s'.workers u).history = (s.workers u).history := by
  unfold LogSystem.act at hstep
  cases htodo : (s.workers t).todo with
  | nil =>
      simp only [htodo] at hstep
      cases hstep
  | cons action rest =>
      simp only [htodo] at hstep
      obtain ⟨-, hmap⟩ := Option.ite_none_right_eq_some.mp hstep
      obtain ⟨stream, -, rfl⟩ := Option.map_eq_some_iff.mp hmap
      refine history_update ?_ u
      rfl

theorem history_step {label : Label τ} (hstep : s.step label = some s') (u : τ) :
    (s'.workers u).history = (s.workers u).history ++ label.statements u := by
  have hquiet (hnone : label.statements u = [])
      (heq : (s'.workers u).history = (s.workers u).history) :
      (s'.workers u).history = (s.workers u).history ++ label.statements u := by
    rw [hnone, List.append_nil, heq]
  cases label with
  | start t statement =>
      obtain ⟨-, heq⟩ := Option.ite_none_right_eq_some.mp hstep
      cases heq
      by_cases hut : u = t
      · simp [Label.statements, hut]
      · simp [Label.statements, hut, Ne.symm hut]
  | act t => exact hquiet rfl (history_act hstep u)
  | deliver t => exact hquiet rfl (history_deliver (Option.ite_none_right_eq_some.mp hstep).2 u)
  | destroy t =>
      have hdeliver := (Option.ite_none_right_eq_some.mp hstep).2
      refine hquiet rfl ((history_deliver hdeliver u).trans (history_update ?_ u))
      rfl
  | mainRoutine =>
      obtain ⟨backend, -, rfl⟩ := Option.map_eq_some_iff.mp hstep
      exact hquiet rfl rfl
  | poll =>
      obtain ⟨buffer, -, rfl⟩ :=
        Option.map_eq_some_iff.mp (Option.ite_none_right_eq_some.mp hstep).2
      refine hquiet rfl ?_
      split <;> rfl
  | release =>
      cases (Option.ite_none_right_eq_some.mp hstep).2
      exact hquiet rfl rfl
  | released =>
      cases (Option.ite_none_right_eq_some.mp hstep).2
      exact hquiet rfl rfl
  | clearRunning =>
      cases (Option.ite_none_right_eq_some.mp hstep).2
      exact hquiet rfl rfl
  | join =>
      cases (Option.ite_none_right_eq_some.mp hstep).2
      exact hquiet rfl rfl

theorem history_run {labels : List (Label τ)} (hrun : Transition.Run Step s labels s') (u : τ) :
    (s'.workers u).history = (s.workers u).history ++ labels.flatMap (Label.statements u) := by
  induction hrun with
  | nil s => rw [List.flatMap_nil, List.append_nil]
  | cons first _ ih => rw [ih, history_step first u, List.flatMap_cons, List.append_assoc]

end Steps

/-- When everything is handed over and written, the files are the records, thread by thread. -/
theorem Inv.exists_records {s : LogSystem τ} (h : s.Inv) (hjoined : s.phase = .joined) :
    ∃ inFile : List (List (τ × List Byte)),
      s.backend.files = inFile.map (fun records => (records.map Prod.snd).flatten) ∧
      ∀ t, ofThread t inFile.flatten = (s.workers t).history.map Statement.text := by
  have hstreams : s.streams = [] := h.gone (by simp [hjoined]) (by simp [hjoined])
  have hflushed (t : τ) : (s.workers t).Flushed := h.flushed t (by rw [hstreams]; nofun)
  choose hidle groups hsent hrecords using hflushed
  -- each message of a thread is one group of its records
  have hmessages (t : τ) : ofThread t s.order = (groups t).map List.flatten := by
    have hmsg : Output.msg ∘ LogStream.whole = List.flatten := rfl
    rw [h.ledger.sent t, (hidle t).2, List.take_length, hsent t, List.map_map, hmsg]
  obtain ⟨grouped, horder, hgroups⟩ := exists_map_eq hmessages
  -- and each file is a list of messages
  have hcurrent : s.backend.currentBuffer = some [] :=
    (h.empty (by simp [hjoined]) (by simp [hjoined]) (by simp [hjoined])).1
  obtain ⟨inFiles, hfiles, happended⟩ :=
    h.backend.files_of_done (h.returned hjoined) hcurrent
  have hcut : grouped.map (fun item => item.2.flatten) = inFiles.flatten := by
    rw [happended, ← h.ledger.appended, ← horder, List.map_map]
    rfl
  obtain ⟨parts, hparts, hfile⟩ := exists_flatten_eq hcut
  refine ⟨parts.map expand, ?_, fun t => ?_⟩
  · rw [hfiles, ← hfile, List.map_map, List.map_map]
    refine List.map_congr_left fun part _ => ?_
    simp only [Function.comp_apply]
    rw [map_snd_expand, List.flatten_flatten, List.map_map]
    rfl
  · rw [← expand_flatten, hparts, ofThread_expand, hgroups, hrecords]

/-- **Nothing is stranded at shutdown.** When the join in `stop` has returned, every file is a
concatenation of whole records, and over all files the records of each thread are those of its
statements, once each and in order. -/
theorem records_of_joined {clocks : τ → Clock} {rollSize : Int} {labels : List (Label τ)}
    {s : LogSystem τ} (hrun : Transition.Run Step (new clocks rollSize) labels s)
    (hshort : ∀ t statement, Label.start t statement ∈ labels →
      statement.text.length < kBufferSize)
    (hjoined : s.phase = .joined) :
    ∃ inFile : List (List (τ × List Byte)),
      s.backend.files = inFile.map (fun records => (records.map Prod.snd).flatten) ∧
      ∀ t, ofThread t inFile.flatten =
        (labels.flatMap (Label.statements t)).map Statement.text := by
  have hstep : ∀ (s : LogSystem τ) (label : Label τ) (s' : LogSystem τ),
      (∀ t statement, label = .start t statement → statement.text.length < kBufferSize) →
      s.Inv → Step s label s' → s'.Inv := fun _ _ _ hshort h hstep => h.step hshort hstep
  have hinv : s.Inv := hrun.invariant_of_labels hstep
    (fun label hmem t statement heq => hshort t statement (heq ▸ hmem)) (inv_new clocks rollSize)
  obtain ⟨inFile, hfiles, hrecords⟩ := hinv.exists_records hjoined
  refine ⟨inFile, hfiles, fun t => ?_⟩
  rw [hrecords t, history_run hrun t]
  rfl

def lineAt (secs : Int) : Statement :=
  ⟨⟨bytes "a.cc", 7, .WARN, none, secs, bytes "10:00:00", 42⟩, [bytes "x\n"]⟩

/-- Two threads log a line each, and the second stream arrives while the first is written. -/
def shutdown : List (Label Nat) :=
  ([.mainRoutine, .mainRoutine, .start 0 (lineAt 1), .start 1 (lineAt 2)] : List (Label Nat)) ++
    List.replicate 13 (Label.act 0) ++ List.replicate 13 (Label.act 1) ++
    ([.release, .destroy 1, .mainRoutine, .mainRoutine, .destroy 0, .released, .poll,
      .mainRoutine, .mainRoutine, .mainRoutine, .mainRoutine, .mainRoutine, .poll,
      .clearRunning, .mainRoutine, .mainRoutine, .mainRoutine, .join] : List (Label Nat))

theorem records_of_joined_two_threads :
    ∃ s : LogSystem Nat, s.phase = .joined ∧ ∃ inFile : List (List (Nat × List Byte)),
      s.backend.files = inFile.map (fun records => (records.map Prod.snd).flatten) ∧
      ∀ t, ofThread t inFile.flatten =
        (shutdown.flatMap (Label.statements t)).map Statement.text := by
  have hphase : (shutdown.foldlM step (new (fun _ => ⟨false, 0⟩) 1000)).map (fun s => s.phase) =
      some .joined := by decide +kernel
  obtain ⟨s, hrun, hjoined⟩ := Option.map_eq_some_iff.mp hphase
  refine ⟨s, hjoined, records_of_joined (.of_foldlM hrun) (fun t statement hmem => ?_) hjoined⟩
  simp only [shutdown, List.mem_append, List.mem_cons, List.mem_replicate, List.not_mem_nil,
    Label.start.injEq, reduceCtorEq, and_false, false_or, or_false] at hmem
  rcases hmem with ⟨-, rfl⟩ | ⟨-, rfl⟩ <;> decide

end LogSystem

end CppUtils
