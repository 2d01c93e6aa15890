import CppUtils.Logger
import Mathlib.Data.List.Infix
import Mathlib.Data.List.Induction

/-!
# A thread that logs again after the release

`release` makes `instance` null, so that the logger can be used again, and destroys the streams, but
the thread-local pointers to them stay. So `stream` uses a destroyed stream exactly when its thread
has logged before a `release` that found an instance.
-/

namespace CppUtils.Logger

variable {τ : Type} [DecidableEq τ]

/-- What the thread points to is owned by the logger. -/
def Live (s : Logger τ) (t : τ) : Prop :=
  (∃ p ∈ s.streams, s.t_pLogStream t = some p) ∧ ∃ tm ∈ s.tms, s.t_tm t = some tm

instance (s : Logger τ) (t : τ) : Decidable (s.Live t) := inferInstanceAs (Decidable (_ ∧ _))

/-- Every `stream` finds its stream alive. -/
def HandsOutLive (events : List (Event τ)) : Prop :=
  ∀ t before, before ++ [.stream t] <+: events → (run (before ++ [.stream t])).Live t

/-- The thread has logged, and a later `release` has found an instance. -/
def Released (t : τ) (events : List (Event τ)) : Prop :=
  ∃ before, before ++ [.release] <+: events ∧ .stream t ∈ before ∧ (run before).isInstance = true

/-! ### One more event -/

theorem run_concat (events : List (Event τ)) (event : Event τ) :
    run (events ++ [event]) = (run events).step event := by
  rw [run, List.foldl_append]
  rfl

theorem released_concat {t : τ} {events : List (Event τ)} {event : Event τ} :
    Released t (events ++ [event]) ↔
      Released t events ∨
        event = .release ∧ .stream t ∈ events ∧ (run events).isInstance = true := by
  constructor
  · rintro ⟨before, hfront, hmem, hinstance⟩
    rcases List.prefix_concat_iff.mp hfront with heq | hfront
    · obtain ⟨rfl, hevent⟩ := List.append_inj' heq rfl
      exact .inr ⟨(List.singleton_inj.mp hevent).symm, hmem, hinstance⟩
    · exact .inl ⟨before, hfront, hmem, hinstance⟩
  · rintro (⟨before, hfront, hmem, hinstance⟩ | ⟨rfl, hmem, hinstance⟩)
    · exact ⟨before, hfront.trans (List.prefix_append _ _), hmem, hinstance⟩
    · exact ⟨events, List.prefix_rfl, hmem, hinstance⟩

theorem released_concat_of_ne {t : τ} {events : List (Event τ)} {event : Event τ}
    (hne : event ≠ .release) : Released t (events ++ [event]) ↔ Released t events := by
  rw [released_concat, or_iff_left]
  exact fun h => hne h.1

theorem Released.mem {t : τ} {events : List (Event τ)} (h : Released t events) :
    .stream t ∈ events := by
  obtain ⟨before, hfront, hmem, -⟩ := h
  exact hfront.subset (List.mem_append_left _ hmem)

/-! ### What the pointers are -/

/-- The two kinds of objects go together, and a stream is owned until the next release. -/
structure Recorded (s : Logger τ) (events : List (Event τ)) : Prop where
  tms : s.tms = s.streams.map (· + 1)
  tm : ∀ t, s.t_tm t = (s.t_pLogStream t).map (· + 1)
  stream_lt : ∀ p ∈ s.streams, p < s.made
  pointer_lt : ∀ t p, s.t_pLogStream t = some p → p < s.made
  opened : ∀ t, s.t_pLogStream t = none ↔ .stream t ∉ events
  owned : ∀ t p, s.t_pLogStream t = some p → (p ∈ s.streams ↔ ¬ Released t events)

theorem recorded_new : (new : Logger τ).Recorded [] where
  tms := rfl
  tm _ := rfl
  stream_lt p hp := absurd hp List.not_mem_nil
  pointer_lt t p hp := by cases hp
  opened t := by simp [new]
  owned t p hp := by cases hp

section Step

variable {s : Logger τ} {events : List (Event τ)}

theorem Recorded.getInstance (h : s.Recorded events) :
    s.getInstance.Recorded (events ++ [.getInstance]) where
  tms := h.tms
  tm := h.tm
  stream_lt := h.stream_lt
  pointer_lt := h.pointer_lt
  opened t := by
    simpa [Logger.getInstance] using h.opened t
  owned t p hp := by
    rw [released_concat_of_ne (by simp)]
    exact h.owned t p hp

/-- A thread that has its stream keeps it. -/
theorem Recorded.stream_again (h : s.Recorded events) {t : τ} {p : Nat}
    (hp : s.t_pLogStream t = some p) : s.Recorded (events ++ [.stream t]) where
  tms := h.tms
  tm := h.tm
  stream_lt := h.stream_lt
  pointer_lt := h.pointer_lt
  opened u := by
    rw [h.opened u, List.mem_append, not_or, iff_self_and, List.mem_singleton]
    rintro hu heq
    obtain rfl : u = t := by simpa using heq
    rw [(h.opened u).mpr hu] at hp
    cases hp
  owned u q hq := by
    rw [released_concat_of_ne (by simp)]
    exact h.owned u q hq

theorem Recorded.openStream (h : s.Recorded events) {t : τ} (ht : s.t_pLogStream t = none) :
    (s.openStream t).Recorded (events ++ [.stream t]) where
  tms := by
    simp [Logger.openStream, h.tms]
  tm u := by
    by_cases hu : u = t
    · simp [Logger.openStream, hu]
    · simpa [Logger.openStream, hu] using h.tm u
  stream_lt p hp := by
    rcases List.mem_append.mp hp with hp | hp
    · exact (h.stream_lt p hp).trans (Nat.lt_add_of_pos_right Nat.two_pos)
    · obtain rfl := List.mem_singleton.mp hp
      exact Nat.lt_add_of_pos_right Nat.two_pos
  pointer_lt u p hp := by
    by_cases hu : u = t
    · have hp : s.made = p := by simpa [Logger.openStream, hu] using hp
      exact hp ▸ Nat.lt_add_of_pos_right Nat.two_pos
    · have hp : s.t_pLogStream u = some p := by simpa [Logger.openStream, hu] using hp
      exact (h.pointer_lt u p hp).trans (Nat.lt_add_of_pos_right Nat.two_pos)
  opened u := by
    by_cases hu : u = t
    · simp [Logger.openStream, hu]
    · simpa [Logger.openStream, hu] using h.opened u
  owned u p hp := by
    rw [released_concat_of_ne (by simp)]
    by_cases hu : u = t
    · subst hu
      have hnot : ¬ Released u events := fun hreleased => (h.opened u).mp ht hreleased.mem
      obtain rfl : s.made = p := by simpa [Logger.openStream] using hp
      exact iff_of_true (List.mem_append_right _ List.mem_cons_self) hnot
    · have hp : s.t_pLogStream u = some p := by simpa [Logger.openStream, hu] using hp
      have hlt := h.pointer_lt u p hp
      rw [← h.owned u p hp]
      simp [Logger.openStream, hlt.ne]

theorem Recorded.stream (h : s.Recorded events) (t : τ) :
    (s.stream t).Recorded (events ++ [.stream t]) := by
  unfold Logger.stream
  split
  case h_1 ht => exact h.openStream ht
  case h_2 p hp => exact h.stream_again hp

theorem Recorded.release (h : s.Recorded events) (hs : s = run events) :
    s.release.Recorded (events ++ [.release]) := by
  unfold Logger.release
  have hopened : ∀ t, s.t_pLogStream t = none ↔ .stream t ∉ events ++ [.release] := by
    intro t
    simpa using h.opened t
  split
  case isTrue hinstance =>
    refine ⟨rfl, h.tm, fun p hp => absurd hp List.not_mem_nil, h.pointer_lt, hopened, ?_⟩
    intro t p hp
    have hmem : .stream t ∈ events := by
      by_contra hnot
      rw [(h.opened t).mpr hnot] at hp
      cases hp
    have hreleased : Released t (events ++ [.release]) :=
      released_concat.mpr (.inr ⟨rfl, hmem, hs ▸ hinstance⟩)
    simpa using hreleased
  case isFalse hinstance =>
    refine ⟨h.tms, h.tm, h.stream_lt, h.pointer_lt, hopened, ?_⟩
    intro t p hp
    rw [h.owned t p hp, released_concat, or_iff_left]
    rintro ⟨-, -, hrun⟩
    exact hinstance (hs ▸ hrun)

end Step

theorem recorded_run (events : List (Event τ)) : (run events).Recorded events := by
  induction events using List.reverseRecOn with
  | nil => exact recorded_new
  | append_singleton events event ih =>
      rw [run_concat]
      cases event with
      | getInstance => exact ih.getInstance
      | stream t => exact ih.stream t
      | release => exact ih.release rfl

/-- A thread that has logged owns its objects until a `release` finds an instance. -/
theorem live_run_iff {t : τ} {events : List (Event τ)} (ht : .stream t ∈ events) :
    (run events).Live t ↔ ¬ Released t events := by
  have h := recorded_run events
  obtain ⟨p, hp⟩ : ∃ p, (run events).t_pLogStream t = some p :=
    Option.ne_none_iff_exists'.mp fun hnone => (h.opened t).mp hnone ht
  rw [← h.owned t p hp, Live, h.tm t, h.tms, hp]
  simp

/-- **The logger hands out live streams exactly when no thread logs, a `release` finds an instance,
and the same thread logs again.** -/
theorem handsOutLive_iff (events : List (Event τ)) :
    HandsOutLive events ↔
      ∀ t before, before ++ [.stream t] <+: events → ¬ Released t before := by
  refine forall_congr' fun t => forall_congr' fun before => imp_congr_right fun _ => ?_
  rw [live_run_iff (by simp), released_concat_of_ne (by simp)]

theorem not_handsOutLive :
    ¬ ∀ (τ : Type) [DecidableEq τ] (events : List (Event τ)), HandsOutLive events := by
  intro hhandsOut
  have hlive := hhandsOut Unit [.getInstance, .stream (), .release, .getInstance, .stream ()] ()
    [.getInstance, .stream (), .release, .getInstance] List.prefix_rfl
  revert hlive
  decide

end CppUtils.Logger
