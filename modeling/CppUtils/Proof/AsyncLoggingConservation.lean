import CppUtils.AsyncLogging

/-!
# The back end loses and reorders nothing

Every file, every buffer to be written and every buffer being filled is a concatenation of messages,
and in this order these are the messages appended so far (`Packed`). The rest of the invariant says
which of the four buffers of the hand-over are there at which point of `mainRoutine`, so that no
null pointer is followed and none becomes `_currentBuffer`.
-/

namespace CppUtils.AsyncLogging

def contents (pointers : List BufferPointer) : List Byte :=
  (pointers.map fun p => p.getD []).flatten

def bufferOf (messages : List (List Byte)) : BufferPointer := some messages.flatten

/-- `inFiles`, `inTaken`, `inBuffers` and `inCurrent` are the messages of each file, of each buffer
that `mainRoutine` has still to write, of each of `_buffers`, and of `_currentBuffer`. -/
structure Packed (s : AsyncLogging) (inFiles inTaken inBuffers : List (List (List Byte)))
    (inCurrent : List (List Byte)) : Prop where
  files : s.files = inFiles.map List.flatten
  taken : s.taken = inTaken.map bufferOf
  buffers : s.buffers = inBuffers.map bufferOf
  current : s.currentBuffer = bufferOf inCurrent
  appended : inFiles.flatten ++ inTaken.flatten ++ inBuffers.flatten ++ inCurrent = s.appended
  small : ∀ messages ∈ inTaken ++ inBuffers ++ [inCurrent], messages.flatten.length < BUFSIZE
  /-- Whatever is in `_buffers` was pushed out by a message that is now in `_currentBuffer`. -/
  pushed : inCurrent.flatten = [] → inBuffers = []

/-- The locals of `mainRoutine` where it stands. -/
structure Hands (s : AsyncLogging) : Prop where
  buffer1 : s.pc ≠ .starting → s.pc ≠ .unlocked → s.buffer1 = some []
  buffer2 : s.pc ≠ .starting → s.pc ≠ .unlocked → s.buffer2 = some []
  spare1 : s.buffer1.getD [] = []
  spare2 : s.buffer2.getD [] = []
  next : s.nextBuffer.getD [] = []
  taken : s.pc = .starting ∨ s.pc = .test ∨ s.pc = .lock ∨ s.pc = .done → s.taken = []
  appender : s.pc ≠ .starting → s.pc ≠ .done → s.appender ≠ none
  starting : s.files = [] ↔ s.pc = .starting

def Inv (s : AsyncLogging) : Prop :=
  s.Hands ∧ ∃ inFiles inTaken inBuffers inCurrent, s.Packed inFiles inTaken inBuffers inCurrent

theorem inv_new (rollSize : Int) : (new rollSize).Inv := by
  have hhands : (new rollSize).Hands :=
    { buffer1 := fun hne => absurd rfl hne
      buffer2 := fun hne => absurd rfl hne
      spare1 := rfl
      spare2 := rfl
      next := rfl
      taken := fun _ => rfl
      appender := fun hne => absurd rfl hne
      starting := iff_of_true rfl rfl }
  have hpacked : (new rollSize).Packed [] [] [] [] :=
    ⟨rfl, rfl, rfl, rfl, rfl, by simp [BUFSIZE], fun _ => rfl⟩
  exact ⟨hhands, [], [], [], [], hpacked⟩

theorem files_ne_nil {s : AsyncLogging} (h : s.appender ≠ none) : s.files ≠ [] := by
  obtain ⟨file, hfile⟩ := Option.ne_none_iff_exists'.mp h
  simp [files, hfile]

section Sections

variable {s s' : AsyncLogging} {inFiles inTaken inBuffers : List (List (List Byte))}
  {inCurrent : List (List Byte)}

/-! ### The critical section of `append` -/

theorem logBuffer_append_of_le {buffer logline : List Byte}
    (hroom : buffer.length + logline.length ≤ BUFSIZE) :
    LogBuffer.append buffer logline logline.length = some (buffer ++ logline) := by
  have hcond : 0 ≤ (logline.length : Int) ∧ (logline.length : Int) ≤ logline.length ∧
      (buffer.length : Int) + logline.length ≤ BUFSIZE := ⟨by omega, by omega, by omega⟩
  rw [LogBuffer.append, if_pos hcond, Int.toNat_natCast, List.take_length]

/-- `append` fills `_currentBuffer` if there is room, and otherwise starts the next. -/
theorem append_cases {logline : List Byte} (hnext : s.nextBuffer.getD [] = [])
    (hlen : logline.length ≤ kBufferSize) {buffer : Buffer}
    (hcurrent : s.currentBuffer = some buffer) :
    (buffer.length + logline.length < BUFSIZE ∧
      s.append logline logline.length = some { s with
        currentBuffer := some (buffer ++ logline)
        appended := s.appended ++ [logline] }) ∨
    (BUFSIZE ≤ buffer.length + logline.length ∧
      s.append logline logline.length = some { s with
        buffers := s.buffers ++ [some buffer]
        currentBuffer := some logline
        nextBuffer := none
        appended := s.appended ++ [logline] }) := by
  have hsize : toSizeT logline.length = logline.length := by
    unfold kBufferSize at hlen
    exact toSizeT_of_lt (by omega)
  have htake : logline.take (logline.length : Int).toNat = logline := by
    rw [Int.toNat_natCast, List.take_length]
  by_cases hroom : LogBuffer.avail buffer > toSizeT logline.length
  · have hlt : buffer.length + logline.length < BUFSIZE := by
      rw [hsize] at hroom
      unfold LogBuffer.avail at hroom
      omega
    refine Or.inl ⟨hlt, ?_⟩
    simp only [append, hcurrent, Option.bind_eq_bind, Option.bind_some, if_pos hroom, htake,
      logBuffer_append_of_le (Nat.le_of_lt hlt)]
  · have hle : BUFSIZE ≤ buffer.length + logline.length := by
      rw [hsize] at hroom
      unfold LogBuffer.avail at hroom
      omega
    have hnew : ([] : List Byte).length + logline.length ≤ BUFSIZE := by
      unfold kBufferSize at hlen
      unfold BUFSIZE
      rw [List.length_nil]
      omega
    refine Or.inr ⟨hle, ?_⟩
    simp only [append, hcurrent, Option.bind_eq_bind, Option.bind_some, if_neg hroom, htake, hnext,
      logBuffer_append_of_le hnew, List.nil_append]

/-- The message joins those in `_currentBuffer`. -/
theorem Packed.fill (h : s.Packed inFiles inTaken inBuffers inCurrent) {logline : List Byte}
    (hroom : inCurrent.flatten.length + logline.length < BUFSIZE) :
    Packed { s with
      currentBuffer := some (inCurrent.flatten ++ logline)
      appended := s.appended ++ [logline] } inFiles inTaken inBuffers (inCurrent ++ [logline]) := by
  have hflatten : (inCurrent ++ [logline]).flatten = inCurrent.flatten ++ logline := by simp
  refine { h with current := by rw [bufferOf, hflatten], appended := ?_, small := ?_, pushed := ?_ }
  · rw [← List.append_assoc, h.appended]
  · intro messages hmessages
    rcases List.mem_append.mp hmessages with hmessages | hmessages
    · exact h.small messages (List.mem_append_left _ hmessages)
    · rw [List.mem_singleton.mp hmessages, hflatten, List.length_append]
      exact hroom
  · intro hnil
    rw [hflatten, List.append_eq_nil_iff] at hnil
    exact h.pushed hnil.1

/-- The message is the first of the next buffer. -/
theorem Packed.push (h : s.Packed inFiles inTaken inBuffers inCurrent) {logline : List Byte}
    (hlen : logline.length ≤ kBufferSize)
    (hfull : BUFSIZE ≤ inCurrent.flatten.length + logline.length) :
    Packed { s with
      buffers := s.buffers ++ [some inCurrent.flatten]
      currentBuffer := some logline
      nextBuffer := none
      appended := s.appended ++ [logline] } inFiles inTaken (inBuffers ++ [inCurrent])
      [logline] := by
  have hold := h.small inCurrent (by simp)
  refine { h with
    buffers := ?_
    current := by simp [bufferOf]
    appended := ?_
    small := ?_
    pushed := ?_ }
  · rw [h.buffers, List.map_append]
    rfl
  · rw [← h.appended]
    simp
  · intro messages hmessages
    rw [← List.append_assoc] at hmessages
    rcases List.mem_append.mp hmessages with hmessages | hmessages
    · exact h.small messages hmessages
    · rw [List.mem_singleton.mp hmessages, List.flatten_singleton]
      unfold kBufferSize at hlen
      unfold BUFSIZE
      omega
  · -- the message that did not fit is not empty
    intro hnil
    rw [List.flatten_singleton] at hnil
    rw [hnil, List.length_nil] at hfull
    omega

theorem Inv.append (h : s.Inv) {logline : List Byte} (hlen : logline.length ≤ kBufferSize) :
    ∃ s', s.append logline logline.length = some s' ∧ s'.Inv ∧
      s'.appended = s.appended ++ [logline] := by
  obtain ⟨hhands, inFiles, inTaken, inBuffers, inCurrent, h⟩ := h
  rcases append_cases hhands.next hlen h.current with ⟨hroom, happend⟩ | ⟨hfull, happend⟩
  · exact ⟨_, happend, ⟨{ hhands with }, _, _, _, _, h.fill hroom⟩, rfl⟩
  · exact ⟨_, happend, ⟨{ hhands with next := rfl }, _, _, _, _, h.push hlen hfull⟩, rfl⟩

/-! ### The sections of `mainRoutine` -/

theorem Inv.enter (h : s.Inv) (hpc : s.pc = .starting) : s.enter.Inv := by
  obtain ⟨hhands, inFiles, inTaken, inBuffers, inCurrent, h⟩ := h
  have hnone : s.files = [] := hhands.starting.mpr hpc
  have hclosed : s.closed = [] := (List.append_eq_nil_iff.mp hnone).1
  have hfiles : inFiles = [] := List.map_eq_nil_iff.mp (h.files.symm.trans hnone)
  have happender : s.enter.appender ≠ none := Option.some_ne_none _
  have hhands' : s.enter.Hands :=
    { hhands with
      buffer1 := fun _ _ => rfl
      buffer2 := fun _ _ => rfl
      spare1 := rfl
      spare2 := rfl
      taken := fun _ => hhands.taken (Or.inl hpc)
      appender := fun _ _ => happender
      starting := iff_of_false (files_ne_nil happender) nofun }
  refine ⟨hhands', [[]], inTaken, inBuffers, inCurrent, { h with files := ?_, appended := ?_ }⟩
  · simp [AsyncLogging.enter, AsyncLogging.files, hclosed]
  · have happended := h.appended
    rw [hfiles] at happended
    exact happended

theorem Inv.test (h : s.Inv) (hpc : s.pc = .test) : s.test.Inv := by
  obtain ⟨hhands, inFiles, inTaken, inBuffers, inCurrent, h⟩ := h
  have hnone : s.taken = [] := hhands.taken (by simp [hpc])
  have hbuffer1 := hhands.buffer1 (by simp [hpc]) (by simp [hpc])
  have hbuffer2 := hhands.buffer2 (by simp [hpc]) (by simp [hpc])
  have happender := hhands.appender (by simp [hpc]) (by simp [hpc])
  unfold AsyncLogging.test
  split
  · refine ⟨?_, inFiles, inTaken, inBuffers, inCurrent, { h with taken := ?_ }⟩
    · exact { hhands with
        buffer1 := fun _ _ => hbuffer1
        buffer2 := fun _ _ => hbuffer2
        taken := fun _ => rfl
        appender := fun _ _ => happender
        starting := iff_of_false (files_ne_nil happender) nofun }
    · rw [← h.taken, hnone]
  · have hfiles : files { s with closed := s.files, appender := none, pc := .done } = s.files :=
      List.append_nil _
    have hopened := files_ne_nil happender
    rw [← hfiles] at hopened
    refine ⟨?_, inFiles, inTaken, inBuffers, inCurrent, { h with files := hfiles.trans h.files }⟩
    exact { hhands with
      buffer1 := fun _ _ => hbuffer1
      buffer2 := fun _ _ => hbuffer2
      taken := fun _ => hnone
      appender := fun _ hne => absurd rfl hne
      starting := iff_of_false hopened nofun }

/-- The buffers change hands: `_buffers` and `_currentBuffer` become the batch, and an empty buffer
becomes `_currentBuffer`. -/
theorem Inv.swap (h : s.Inv) (hpc : s.pc = .lock) :
    ∃ s', s.swap = some s' ∧ s'.Inv ∧ s'.appended = s.appended ∧
      (s' = s ∨ s'.currentBuffer = some [] ∧ s'.buffers = []) := by
  have hinv := h
  obtain ⟨hhands, inFiles, inTaken, inBuffers, inCurrent, h⟩ := h
  have hnone : s.taken = [] := hhands.taken (by simp [hpc])
  have hbuffer1 := hhands.buffer1 (by simp [hpc]) (by simp [hpc])
  have happender := hhands.appender (by simp [hpc]) (by simp [hpc])
  have htaken : inTaken = [] := List.map_eq_nil_iff.mp (h.taken.symm.trans hnone)
  obtain ⟨wait, hwait⟩ : ∃ wait, s.nothingToDo = some wait := by
    unfold nothingToDo
    split
    · exact ⟨_, by rw [h.current]; rfl⟩
    · exact ⟨false, rfl⟩
  cases wait with
  | true =>
      refine ⟨s, ?_, hinv, rfl, Or.inl rfl⟩
      simp only [AsyncLogging.swap, hwait, Option.bind_eq_bind, Option.bind_some, if_true]
  | false =>
      simp only [AsyncLogging.swap, hwait, Option.bind_eq_bind, Option.bind_some,
        Bool.false_eq_true, if_false]
      refine ⟨_, rfl, ⟨?_, inFiles, inBuffers ++ [inCurrent], [], [], ?_⟩, rfl,
        Or.inr ⟨hbuffer1, hnone⟩⟩
      · have hnext := hhands.next
        have hspare2 := hhands.spare2
        exact
          { buffer1 := fun _ hne => absurd rfl hne
            buffer2 := fun _ hne => absurd rfl hne
            spare1 := rfl
            spare2 := by cases hspare : s.nextBuffer <;> simp [hspare2]
            next := by cases hspare : s.nextBuffer <;> simp_all
            taken := fun hpc' => by simp at hpc'
            appender := fun _ _ => happender
            starting := iff_of_false (files_ne_nil happender) nofun }
      · refine ⟨h.files, ?_, hnone, hbuffer1, ?_, ?_, fun _ => rfl⟩
        · rw [h.buffers, h.current, List.map_append]
          rfl
        · rw [← h.appended, htaken]
          simp
        · intro messages hmessages
          rcases List.mem_append.mp hmessages with hmessages | hmessages
          · exact h.small messages (by simpa [htaken] using hmessages)
          · rw [List.mem_singleton.mp hmessages]
            decide

theorem exists_needWrite (batch : List (List (List Byte))) :
    ∃ n, needWrite (batch.map bufferOf) = some n := by
  suffices hsum : ∀ start : Int, ∃ n, (batch.map bufferOf).foldlM
      (fun needWrite pBuf => pBuf.map fun buf => toInt (needWrite + buf.length)) start = some n from
    hsum 0
  induction batch with
  | nil => exact fun start => ⟨start, rfl⟩
  | cons messages batch ih =>
      intro start
      obtain ⟨n, hn⟩ := ih (toInt (start + messages.flatten.length))
      exact ⟨n, by rw [List.map_cons, List.foldlM_cons]; exact hn⟩

/-- The file is closed, and the next one is empty. -/
theorem Packed.openFile (h : s.Packed inFiles inTaken inBuffers inCurrent) :
    Packed { s with closed := s.files, appender := some [], written := 0 } (inFiles ++ [[]]) inTaken
      inBuffers inCurrent := by
  refine { h with files := ?_, appended := ?_ }
  · rw [List.map_append, ← h.files]
    rfl
  · rw [← h.appended, List.flatten_append]
    simp

theorem Inv.roll (h : s.Inv) (hpc : s.pc = .unlocked) :
    ∃ s', s.roll = some s' ∧ s'.Inv ∧ s'.appended = s.appended ∧
      s'.currentBuffer = s.currentBuffer ∧ s'.buffers = s.buffers := by
  obtain ⟨hhands, inFiles, inTaken, inBuffers, inCurrent, h⟩ := h
  obtain ⟨n, hn⟩ := exists_needWrite inTaken
  rw [← h.taken] at hn
  have hready (t : AsyncLogging) (hnext : t.nextBuffer = s.nextBuffer)
      (happender : t.appender ≠ none) :
      Hands { t with buffer1 := some [], buffer2 := some [], pc := .writing n } :=
    { buffer1 := fun _ _ => rfl
      buffer2 := fun _ _ => rfl
      spare1 := rfl
      spare2 := rfl
      next := (congrArg (·.getD []) hnext).trans hhands.next
      taken := fun hpc' => by simp at hpc'
      appender := fun _ _ => happender
      starting := iff_of_false (files_ne_nil happender) nofun }
  simp only [AsyncLogging.roll, hn, Option.bind_eq_bind, Option.bind_some, hhands.spare2]
  by_cases hfull : toInt (s.written + n) > s.rollSize
  · simp only [if_pos hfull]
    exact ⟨_, rfl, ⟨hready { s with closed := s.files, appender := some [], written := 0 } rfl
      (Option.some_ne_none _), _, _, _, _, { h.openFile with }⟩, rfl, rfl, rfl⟩
  · simp only [if_neg hfull]
    exact ⟨_, rfl, ⟨hready s rfl (hhands.appender (by simp [hpc]) (by simp [hpc])), _, _, _, _,
      { h with }⟩, rfl, rfl, rfl⟩

theorem appenderFile_append_of_lt {file buf : List Byte} (hsmall : buf.length < BUFSIZE) :
    AppenderFile.append file buf (toInt buf.length) = some (file ++ buf) := by
  have hlen : toInt buf.length = buf.length := by
    unfold BUFSIZE at hsmall
    exact toInt_of_mem (by omega) (by omega)
  have hcond : 0 ≤ (buf.length : Int) ∧ (buf.length : Int) ≤ buf.length := ⟨by omega, by omega⟩
  rw [AppenderFile.append, hlen, if_pos hcond, Int.toNat_natCast, List.take_length]

theorem write_cons {buf : Buffer} {rest : List BufferPointer} {file : List Byte} (n : Int)
    (htaken : s.taken = some buf :: rest) (hfile : s.appender = some file)
    (hsmall : buf.length < BUFSIZE) :
    s.write n = some { s with appender := some (file ++ buf), taken := rest } := by
  unfold AsyncLogging.write
  rw [htaken]
  refine Option.bind_eq_some_iff.mpr ⟨buf, rfl, ?_⟩
  refine Option.bind_eq_some_iff.mpr ⟨file, hfile, ?_⟩
  exact Option.bind_eq_some_iff.mpr ⟨_, appenderFile_append_of_lt hsmall, rfl⟩

/-- The messages of one buffer go to the end of the open file. -/
theorem Packed.writeOut {messages : List (List Byte)}
    (h : s.Packed inFiles (messages :: inTaken) inBuffers inCurrent) {file : List Byte}
    (hfile : s.appender = some file) :
    ∃ inFiles', Packed { s with
      appender := some (file ++ messages.flatten)
      taken := inTaken.map bufferOf } inFiles' inTaken inBuffers inCurrent := by
  have hfiles : s.closed ++ [file] = inFiles.map List.flatten := by
    rw [← h.files, AsyncLogging.files, hfile, Option.toList_some]
  obtain ⟨front, last, rfl, hfront, hlast⟩ := List.map_eq_append_iff.mp hfiles.symm
  obtain ⟨inLast, rfl, rfl⟩ := List.map_eq_singleton_iff.mp hlast
  refine ⟨front ++ [inLast ++ messages], { h with
    files := ?_
    taken := rfl
    appended := ?_
    small := fun m hm => h.small m (List.mem_cons_of_mem _ hm) }⟩
  · rw [AsyncLogging.files, List.map_append, hfront]
    simp
  · rw [← h.appended]
    simp

theorem Inv.write (h : s.Inv) {n : Int} (hpc : s.pc = .writing n) :
    ∃ s', s.write n = some s' ∧ s'.Inv ∧ s'.appended = s.appended ∧
      s'.currentBuffer = s.currentBuffer ∧ s'.buffers = s.buffers := by
  obtain ⟨hhands, inFiles, inTaken, inBuffers, inCurrent, h⟩ := h
  have hbuffer1 := hhands.buffer1 (by simp [hpc]) (by simp [hpc])
  have hbuffer2 := hhands.buffer2 (by simp [hpc]) (by simp [hpc])
  have happender := hhands.appender (by simp [hpc]) (by simp [hpc])
  cases inTaken with
  | nil =>
      have hnone : s.taken = [] := h.taken
      simp only [AsyncLogging.write, hnone]
      refine ⟨_, rfl, ⟨?_, inFiles, [], inBuffers, inCurrent, { h with taken := rfl }⟩, rfl, rfl,
        rfl⟩
      exact { hhands with
        buffer1 := fun _ _ => hbuffer1
        buffer2 := fun _ _ => hbuffer2
        taken := fun _ => rfl
        appender := fun _ _ => happender
        starting := iff_of_false (files_ne_nil happender) nofun }
  | cons messages inTaken =>
      have hcons : s.taken = some messages.flatten :: inTaken.map bufferOf := h.taken
      obtain ⟨file, hfile⟩ := Option.ne_none_iff_exists'.mp happender
      obtain ⟨inFiles', h'⟩ := h.writeOut hfile
      refine ⟨_, write_cons n hcons hfile (h.small messages (by simp)),
        ⟨?_, inFiles', inTaken, inBuffers, inCurrent, h'⟩, rfl, rfl, rfl⟩
      exact { hhands with
        taken := fun hpc' => by simp [hpc] at hpc'
        appender := fun _ _ => Option.some_ne_none _
        starting := iff_of_false (files_ne_nil (Option.some_ne_none _)) (by simp [hpc]) }

/-- `mainRoutine` never fails, and it moves messages without changing their order. -/
theorem Inv.mainStep (h : s.Inv) (hpc : s.pc ≠ .done) :
    ∃ s', s.mainStep = some s' ∧ s'.Inv ∧ s'.appended = s.appended ∧
      (s.currentBuffer = some [] → s.buffers = [] →
        s'.currentBuffer = some [] ∧ s'.buffers = []) := by
  cases hat : s.pc with
  | starting =>
      exact ⟨s.enter, by rw [AsyncLogging.mainStep, hat], h.enter hat, rfl, And.intro⟩
  | test =>
      refine ⟨s.test, by rw [AsyncLogging.mainStep, hat], h.test hat, ?_, ?_⟩ <;>
        (unfold AsyncLogging.test; split)
      · rfl
      · rfl
      · exact And.intro
      · exact And.intro
  | lock =>
      obtain ⟨s', hswap, hinv, happended, hmove⟩ := h.swap hat
      refine ⟨s', by rw [AsyncLogging.mainStep, hat]; exact hswap, hinv, happended, ?_⟩
      rcases hmove with rfl | hempty
      · exact And.intro
      · exact fun _ _ => hempty
  | unlocked =>
      obtain ⟨s', hroll, hinv, happended, hcurrent, hbuffers⟩ := h.roll hat
      refine ⟨s', by rw [AsyncLogging.mainStep, hat]; exact hroll, hinv, happended, ?_⟩
      rw [hcurrent, hbuffers]
      exact And.intro
  | writing n =>
      obtain ⟨s', hwrite, hinv, happended, hcurrent, hbuffers⟩ := h.write hat
      refine ⟨s', by rw [AsyncLogging.mainStep, hat]; exact hwrite, hinv, happended, ?_⟩
      rw [hcurrent, hbuffers]
      exact And.intro
  | done => exact absurd hat hpc

theorem Inv.clearRunning (h : s.Inv) : s.clearRunning.Inv := by
  obtain ⟨hhands, inFiles, inTaken, inBuffers, inCurrent, h⟩ := h
  exact ⟨{ hhands with }, inFiles, inTaken, inBuffers, inCurrent, { h with }⟩

end Sections

/-! ### Reachable states -/

theorem Inv.step {s s' : AsyncLogging} {label : Label} (h : s.Inv) (hstep : Step s label s') :
    s'.Inv := by
  cases hstep with
  | append hlen happend =>
      obtain ⟨t, ht, hinv, -⟩ := h.append hlen
      rw [ht] at happend
      exact Option.some.inj happend ▸ hinv
  | mainRoutine hmain =>
      have hpc : s.pc ≠ .done := by
        intro hdone
        rw [AsyncLogging.mainStep, hdone] at hmain
        cases hmain
      obtain ⟨t, ht, hinv, -⟩ := h.mainStep hpc
      rw [ht] at hmain
      exact Option.some.inj hmain ▸ hinv
  | stop => exact h.clearRunning

theorem contents_bufferOf (groups : List (List (List Byte))) :
    contents (groups.map bufferOf) = groups.flatten.flatten := by
  have hget : (fun p : BufferPointer => p.getD []) ∘ bufferOf = List.flatten := rfl
  rw [contents, List.map_map, hget, List.flatten_flatten]

theorem Packed.bytes_eq {s : AsyncLogging} {inFiles inTaken inBuffers : List (List (List Byte))}
    {inCurrent : List (List Byte)} (h : s.Packed inFiles inTaken inBuffers inCurrent) :
    s.files.flatten ++ contents s.taken ++ contents s.buffers ++ contents [s.currentBuffer] =
      s.appended.flatten := by
  have hcurrent : contents [s.currentBuffer] = inCurrent.flatten := by
    rw [h.current]
    exact List.append_nil _
  rw [h.files, h.taken, h.buffers, hcurrent, contents_bufferOf, contents_bufferOf,
    ← List.flatten_flatten, ← h.appended]
  simp only [List.flatten_append]

theorem Packed.length_le {s : AsyncLogging} {inFiles inTaken inBuffers : List (List (List Byte))}
    {inCurrent : List (List Byte)} (h : s.Packed inFiles inTaken inBuffers inCurrent) :
    ∀ buf, some buf ∈ s.taken ++ s.buffers ++ [s.currentBuffer] → buf.length ≤ BUFSIZE := by
  intro buf hbuf
  have hgroups : s.taken ++ s.buffers ++ [s.currentBuffer] =
      (inTaken ++ inBuffers ++ [inCurrent]).map bufferOf := by
    rw [h.taken, h.buffers, h.current, List.map_append, List.map_append]
    rfl
  rw [hgroups] at hbuf
  obtain ⟨messages, hmessages, heq⟩ := List.mem_map.mp hbuf
  rw [← Option.some.inj heq]
  exact Nat.le_of_lt (h.small messages hmessages)

/-- Nothing is left in `_buffers` behind an empty `_currentBuffer`. -/
theorem Inv.buffers_eq_nil {s : AsyncLogging} (h : s.Inv) (hcurrent : s.currentBuffer = some []) :
    s.buffers = [] := by
  obtain ⟨-, inFiles, inTaken, inBuffers, inCurrent, h⟩ := h
  have hempty : inCurrent.flatten = [] := Option.some.inj (h.current.symm.trans hcurrent)
  rw [h.buffers, h.pushed hempty]
  rfl

theorem Inv.files_of_done {s : AsyncLogging} (h : s.Inv) (hpc : s.pc = .done)
    (hcurrent : s.currentBuffer = some []) :
    ∃ inFiles : List (List (List Byte)), s.files = inFiles.map List.flatten ∧
      inFiles.flatten = s.appended := by
  have hbuffers := h.buffers_eq_nil hcurrent
  obtain ⟨hhands, inFiles, inTaken, inBuffers, inCurrent, h⟩ := h
  have hnone : s.taken = [] := hhands.taken (by simp [hpc])
  have htaken : inTaken = [] := List.map_eq_nil_iff.mp (h.taken.symm.trans hnone)
  have hpushed : inBuffers = [] := List.map_eq_nil_iff.mp (h.buffers.symm.trans hbuffers)
  have hempty : inCurrent.flatten = [] := Option.some.inj (h.current.symm.trans hcurrent)
  have hopened : inFiles ≠ [] := by
    rintro rfl
    have hstarting := hhands.starting.mp h.files
    rw [hpc] at hstarting
    cases hstarting
  -- empty messages that were never taken are in the last file as well as anywhere
  obtain ⟨front, last, rfl⟩ := (List.eq_nil_or_concat' inFiles).resolve_left hopened
  refine ⟨front ++ [last ++ inCurrent], ?_, ?_⟩
  · rw [h.files]
    simp [hempty]
  · rw [← h.appended, htaken, hpushed]
    simp

/-- **The back end loses and reorders nothing.** In every reachable state the files, the batch that
is being written, `_buffers` and `_currentBuffer` hold all appended messages in the order of their
critical sections, each message inside one file or buffer. No buffer is overfull, `_currentBuffer`
is there, and neither an `append` nor the next part of `mainRoutine` fails. -/
theorem conservation_of_reachable {rollSize : Int} {s : AsyncLogging}
    (hs : Transition.Reachable (· = new rollSize) Step s) :
    s.files.flatten ++ contents s.taken ++ contents s.buffers ++ contents [s.currentBuffer] =
        s.appended.flatten ∧
      (∃ inFiles inTaken inBuffers inCurrent, s.Packed inFiles inTaken inBuffers inCurrent) ∧
      (∀ buf, some buf ∈ s.taken ++ s.buffers ++ [s.currentBuffer] → buf.length ≤ BUFSIZE) ∧
      (∀ buf, some buf ∈ [s.nextBuffer, s.buffer1, s.buffer2] → buf = []) ∧
      s.currentBuffer ≠ none ∧
      (∀ logline, logline.length ≤ kBufferSize →
        ∃ s', s.append logline logline.length = some s') ∧
      (s.pc ≠ .done → ∃ s', s.mainStep = some s') := by
  have hinv : s.Inv := hs.invariant_from (inv_new rollSize) fun s label s' h hstep => h.step hstep
  obtain ⟨hhands, inFiles, inTaken, inBuffers, inCurrent, h⟩ := id hinv
  refine ⟨h.bytes_eq, ⟨inFiles, inTaken, inBuffers, inCurrent, h⟩, h.length_le, ?_, ?_, ?_, ?_⟩
  · intro buf hbuf
    have hspare {p : BufferPointer} (hp : p.getD [] = []) (heq : some buf = p) : buf = [] := by
      rw [← heq] at hp
      exact hp
    simp only [List.mem_cons, List.not_mem_nil, or_false] at hbuf
    rcases hbuf with hbuf | hbuf | hbuf
    · exact hspare hhands.next hbuf
    · exact hspare hhands.spare1 hbuf
    · exact hspare hhands.spare2 hbuf
  · rw [h.current]
    exact Option.some_ne_none _
  · intro logline hlen
    obtain ⟨s', happend, -⟩ := hinv.append hlen
    exact ⟨s', happend⟩
  · intro hpc
    obtain ⟨s', hmain, -⟩ := hinv.mainStep hpc
    exact ⟨s', hmain⟩

/-- One message is in the file and the next in `_currentBuffer`. -/
theorem conservation_while_writing :
    ∃ s : AsyncLogging, s.appended = [bytes "a", bytes "b"] ∧ s.files = [bytes "a"] ∧
      s.files.flatten ++ contents s.taken ++ contents s.buffers ++ contents [s.currentBuffer] =
        s.appended.flatten := by
  let appended := { new 10 with currentBuffer := some (bytes "a"), appended := [bytes "a"] }
  let locked := appended.enter.test
  let swapped := { locked with
    currentBuffer := some []
    buffer1 := none
    taken := [some (bytes "a")]
    pc := .unlocked }
  let rolled := { swapped with buffer1 := some [], pc := .writing 1 }
  let second := { rolled with
    currentBuffer := some (bytes "b")
    appended := [bytes "a", bytes "b"] }
  let written := { second with appender := some (bytes "a"), taken := [] }
  have hrun : Transition.Run Step (new 10)
      [.append (bytes "a"), .mainRoutine, .mainRoutine, .mainRoutine, .mainRoutine,
        .append (bytes "b"), .mainRoutine] written :=
    .cons (m := appended) (.append (by decide) (by decide +kernel)) <|
      .cons (m := appended.enter) (.mainRoutine rfl) <|
      .cons (m := locked) (.mainRoutine rfl) <|
      .cons (m := swapped) (.mainRoutine (by decide +kernel)) <|
      .cons (m := rolled) (.mainRoutine (by decide +kernel)) <|
      .cons (m := second) (.append (by decide) (by decide +kernel)) <|
      .cons (m := written) (.mainRoutine (by decide +kernel)) (.nil _)
  exact ⟨written, rfl, rfl, (conservation_of_reachable ⟨_, _, rfl, hrun⟩).1⟩

end CppUtils.AsyncLogging
