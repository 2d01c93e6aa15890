import CppUtils.Proof.AsyncLoggingConservation

/-!
# The back end keeps few buffers

A buffer is replaced when a message does not fit, and a message is no longer than `kBufferSize`. So
every buffer in `_buffers`, and of a batch every one but the last, is full up to `kBufferSize`
bytes, and a backlog of a given number of bytes is kept in about as few buffers as can hold it.
-/

namespace CppUtils.AsyncLogging

variable {s s' : AsyncLogging}

/-- Some message did not fit. -/
def NearlyFull (p : BufferPointer) : Prop := ∃ buf, p = some buf ∧ BUFSIZE ≤ buf.length + kBufferSize

/-- Of what waits to be written only the last buffer of a batch may have room. -/
structure Filled (s : AsyncLogging) : Prop where
  queued : ∀ p ∈ s.buffers, NearlyFull p
  taken : ∀ p ∈ s.taken.dropLast, NearlyFull p

theorem filled_new (rollSize : Int) : (new rollSize).Filled where
  queued := by simp [new]
  taken := by simp [new]

theorem Filled.append (h : s.Filled) (hinv : s.Inv) {logline : List Byte}
    (hlen : logline.length ≤ kBufferSize) (happend : s.append logline logline.length = some s') :
    s'.Filled := by
  obtain ⟨hhands, inFiles, inTaken, inBuffers, inCurrent, hpacked⟩ := hinv
  rcases append_cases hhands.next hlen hpacked.current with ⟨-, hcase⟩ | ⟨hfull, hcase⟩
  · rw [hcase] at happend
    obtain rfl := Option.some.inj happend
    exact ⟨h.queued, h.taken⟩
  · rw [hcase] at happend
    obtain rfl := Option.some.inj happend
    refine ⟨fun p hp => ?_, h.taken⟩
    rcases List.mem_append.mp hp with hp | hp
    · exact h.queued p hp
    · rw [List.mem_singleton.mp hp]
      exact ⟨_, rfl, Nat.le_trans hfull (Nat.add_le_add_left hlen _)⟩

theorem Filled.swap (h : s.Filled) (htaken : s.taken = []) (hswap : s.swap = some s') :
    s'.Filled := by
  obtain ⟨wait, -, hswap⟩ := Option.bind_eq_some_iff.mp hswap
  split at hswap
  · exact Option.some.inj hswap ▸ h
  · obtain rfl := Option.some.inj hswap
    refine ⟨fun p hp => ?_, fun p hp => h.queued p ?_⟩
    · simp [htaken] at hp
    · simpa using hp

theorem Filled.roll (h : s.Filled) (hroll : s.roll = some s') : s'.Filled := by
  obtain ⟨needWrite, -, hroll⟩ := Option.bind_eq_some_iff.mp hroll
  obtain rfl := Option.some.inj hroll
  refine ⟨?_, ?_⟩
  all_goals
    dsimp only
    split
  exacts [h.queued, h.queued, h.taken, h.taken]

theorem Filled.write (h : s.Filled) {needWrite : Int} (hwrite : s.write needWrite = some s') :
    s'.Filled := by
  unfold AsyncLogging.write at hwrite
  split at hwrite
  · obtain rfl := Option.some.inj hwrite
    exact ⟨h.queued, h.taken⟩
  · next pBuf rest htaken =>
      obtain ⟨buf, -, hwrite⟩ := Option.bind_eq_some_iff.mp hwrite
      obtain ⟨file, -, hwrite⟩ := Option.bind_eq_some_iff.mp hwrite
      obtain ⟨file', -, hwrite⟩ := Option.bind_eq_some_iff.mp hwrite
      obtain rfl := Option.some.inj hwrite
      refine ⟨h.queued, fun p hp => h.taken p ?_⟩
      rw [htaken]
      cases rest with
      | nil => cases hp
      | cons q rest => exact List.mem_cons_of_mem _ hp

theorem Filled.mainStep (h : s.Filled) (hinv : s.Inv) (hmain : s.mainStep = some s') :
    s'.Filled := by
  cases hpc : s.pc <;> rw [AsyncLogging.mainStep, hpc] at hmain
  case starting =>
    obtain rfl := Option.some.inj hmain
    exact ⟨h.queued, h.taken⟩
  case test =>
    obtain rfl := Option.some.inj hmain
    unfold test
    split
    · exact ⟨h.queued, by simp⟩
    · exact ⟨h.queued, h.taken⟩
  case lock => exact h.swap (hinv.1.taken (by simp [hpc])) hmain
  case unlocked => exact h.roll hmain
  case writing needWrite => exact h.write hmain
  case done => cases hmain

theorem Filled.step (h : s.Filled) (hinv : s.Inv) {label : Label} (hstep : Step s label s') :
    s'.Filled := by
  cases hstep with
  | append hlen happend => exact h.append hinv hlen happend
  | mainRoutine hmain => exact h.mainStep hinv hmain
  | stop => exact ⟨h.queued, h.taken⟩

theorem length_mul_le_contents {pointers : List BufferPointer}
    (h : ∀ p ∈ pointers, NearlyFull p) :
    pointers.length * (BUFSIZE - kBufferSize) ≤ (contents pointers).length := by
  induction pointers with
  | nil => exact Nat.zero_le _
  | cons p pointers ih =>
      obtain ⟨buf, rfl, hfull⟩ := h p List.mem_cons_self
      have hrest := ih fun q hq => h q (List.mem_cons_of_mem _ hq)
      have hsplit : contents (some buf :: pointers) = buf ++ contents pointers := rfl
      rw [hsplit, List.length_append, List.length_cons, Nat.succ_mul]
      omega

theorem contents_dropLast_le (pointers : List BufferPointer) :
    (contents pointers.dropLast).length ≤ (contents pointers).length := by
  rcases List.eq_nil_or_concat' pointers with rfl | ⟨front, last, rfl⟩
  · exact Nat.le_refl _
  · simp [contents]

/-- **A short queue.** In every reachable state each buffer that waits in `_buffers` or in the
batch, except the last of the batch, is full up to `kBufferSize` bytes. So these buffers are no more
than the bytes that are not yet in the files, by `BUFSIZE - kBufferSize`. -/
theorem backlog_of_reachable {rollSize : Int}
    (hs : Transition.Reachable (· = new rollSize) Step s) :
    (∀ p ∈ s.buffers ++ s.taken.dropLast, NearlyFull p) ∧
      (s.buffers.length + (s.taken.length - 1)) * (BUFSIZE - kBufferSize) + s.files.flatten.length +
        (contents [s.currentBuffer]).length ≤ s.appended.flatten.length := by
  have h : s.Inv ∧ s.Filled :=
    hs.invariant_from ⟨inv_new rollSize, filled_new rollSize⟩
      fun _ _ _ h hstep => ⟨h.1.step hstep, h.2.step h.1 hstep⟩
  obtain ⟨⟨-, inFiles, inTaken, inBuffers, inCurrent, hpacked⟩, hfilled⟩ := h
  refine ⟨fun p hp => (List.mem_append.mp hp).elim (hfilled.queued p) (hfilled.taken p), ?_⟩
  have hbytes := congrArg List.length hpacked.bytes_eq
  have hqueued := length_mul_le_contents hfilled.queued
  have htaken := length_mul_le_contents hfilled.taken
  have hlast := contents_dropLast_le s.taken
  rw [List.length_dropLast] at htaken
  simp only [List.length_append] at hbytes
  rw [Nat.add_mul]
  omega

/-- As many messages of one length as a buffer has room for. -/
theorem exists_run_append {logline : List Byte} (hlen : logline.length ≤ kBufferSize) {n : Nat}
    (hfits : n * logline.length < BUFSIZE) :
    ∃ s, Transition.Run Step (new 10) (List.replicate n (.append logline)) s ∧
      s.nextBuffer = some [] ∧ s.buffers = [] ∧
      ∃ buffer, s.currentBuffer = some buffer ∧ buffer.length = n * logline.length := by
  induction n with
  | zero => exact ⟨new 10, .nil _, rfl, rfl, [], rfl, (Nat.zero_mul _).symm⟩
  | succ n ih =>
      rw [Nat.succ_mul] at hfits
      obtain ⟨s, hrun, hnext, hbuffers, buffer, hcurrent, hlength⟩ := ih (by omega)
      have hspare : s.nextBuffer.getD [] = [] := by rw [hnext]; rfl
      rcases append_cases hspare hlen hcurrent with ⟨-, happend⟩ | ⟨hfull, -⟩
      · rw [List.replicate_succ']
        refine ⟨_, hrun.append (.cons (.append hlen happend) (.nil _)), hnext, hbuffers, _, rfl, ?_⟩
        rw [List.length_append, hlength, Nat.succ_mul]
      · omega

/-- Of forty messages of `kBufferSize` bytes the last does not fit, so that a buffer waits. -/
theorem backlog_of_forty : ∃ s : AsyncLogging, s.buffers.length = 1 ∧
    (∀ p ∈ s.buffers, NearlyFull p) ∧
    (s.buffers.length + (s.taken.length - 1)) * (BUFSIZE - kBufferSize) + s.files.flatten.length +
      (contents [s.currentBuffer]).length ≤ s.appended.flatten.length := by
  obtain ⟨logline, hlogline⟩ : ∃ logline : List Byte, logline.length = kBufferSize :=
    ⟨List.replicate kBufferSize 0x61, List.length_replicate⟩
  have hlen : logline.length ≤ kBufferSize := Nat.le_of_eq hlogline
  obtain ⟨s, hrun, hnext, hbuffers, buffer, hcurrent, hlength⟩ :=
    exists_run_append hlen (n := 39) (by rw [hlogline]; decide)
  have hspare : s.nextBuffer.getD [] = [] := by rw [hnext]; rfl
  rcases append_cases hspare hlen hcurrent with ⟨hroom, -⟩ | ⟨-, happend⟩
  · rw [hlength, hlogline] at hroom
    exact absurd hroom (by decide)
  · obtain ⟨t, ht, hone⟩ : ∃ t, Step s (.append logline) t ∧ t.buffers.length = 1 :=
      ⟨_, .append hlen happend, by simp [hbuffers]⟩
    have hbacklog := backlog_of_reachable ⟨_, _, rfl, hrun.append (.cons ht (.nil t))⟩
    exact ⟨t, hone, fun p hp => hbacklog.1 p (List.mem_append_left _ hp), hbacklog.2⟩

end CppUtils.AsyncLogging
