import CppUtils.Proof.LogStreamPointers

/-!
# Lines go out at once in line-buffer mode

After an `append` in line mode the buffer should hold no newline. `flushLine` takes the position
`_buf` for "no newline found", though the scan reports that as one before `_buf`, so a newline that
is the first byte of the buffer and the only one there stays behind. `NewlineInside` says of an
`append` that it does not come to this. In a run whose appends all satisfy it, and where an explicit
`flush` finds no complete record, what was sent and what is left in the buffer are the text in order
(`LinesSent`).
-/

namespace CppUtils

namespace LogStream

/-- In line mode the last newline after the copy is none, or not the first byte. -/
def NewlineInside (ls : LogStream) (p : List Byte) : Prop :=
  ∀ base, ls.target p = some base →
    lastNewline (base.buf ++ copied p) (base.buf ++ copied p).length ≠ 0

/-- The text so far: every piece of it was sent once, in order, with its length, or is still in the
buffer, and the buffer holds no newline. -/
structure LinesSent (ls : LogStream) (text : List Byte) : Prop where
  noNewline : (0x0a : Byte) ∉ ls.buf
  sent : ∃ msgs : List (List Byte), ls.sent = msgs.map (fun msg => ⟨msg.length, msg⟩) ∧
    msgs.flatten ++ ls.buf = text
  room : ls.buf.length ≤ kBufferSize

theorem newlineInside_of_target {ls base : LogStream} {p : List Byte}
    (htarget : ls.target p = some base)
    (hlast : lastNewline (base.buf ++ copied p) (base.buf ++ copied p).length ≠ 0) :
    ls.NewlineInside p := by
  intro base' htarget'
  rw [htarget] at htarget'
  exact Option.some.inj htarget' ▸ hlast

/-! ### The scan -/

theorem getElem?_lastNewline {text : List Byte} {n i : Nat} (h : lastNewline text n = i) :
    text[i]? = some (0x0a : Byte) := by
  induction n with
  | zero => simp [lastNewline] at h
  | succ n ih =>
      unfold lastNewline at h
      split at h
      case isTrue hread =>
        have hi : i = n := by omega
        rw [hi, hread]
      case isFalse => exact ih h

theorem getElem?_ne_of_lastNewline_lt {text : List Byte} {n i : Nat} (hlow : lastNewline text n < i)
    (hhigh : i < n) : text[i]? ≠ some (0x0a : Byte) := by
  induction n with
  | zero => omega
  | succ n ih =>
      unfold lastNewline at hlow
      split at hlow
      case isTrue => omega
      case isFalse hread =>
        by_cases hi : i = n
        · rw [hi]
          exact hread
        · exact ih hlow (by omega)

theorem not_mem_drop_lastNewline {text : List Byte} {q : Nat}
    (hq : lastNewline text text.length + 1 = q) : (0x0a : Byte) ∉ text.drop q := by
  intro hmem
  obtain ⟨i, hi, hread⟩ := List.mem_iff_getElem.mp hmem
  rw [List.length_drop] at hi
  rw [List.getElem_drop] at hread
  have hnot : text[q + i]? ≠ some (0x0a : Byte) :=
    getElem?_ne_of_lastNewline_lt (n := text.length) (by omega) (by omega)
  apply hnot
  rw [List.getElem?_eq_getElem (by omega), hread]

/-! ### One append -/

section Append

variable {ls ls' base : LogStream} {text p : List Byte}

/-- What is sent is a piece of the text, and comes off the buffer. -/
theorem LinesSent.send (h : ls.LinesSent text) {msg rest : List Byte} (hsplit : ls.buf = msg ++ rest)
    {len : Int} (hlen : len = msg.length) (endPos : Int) (clock : Clock) :
    LinesSent ⟨rest, endPos, clock, ls.sent ++ [⟨toInt len, msg⟩]⟩ text := by
  obtain ⟨msgs, hsent, htext⟩ := h.sent
  have hroom := h.room
  have hlength := congrArg List.length hsplit
  rw [List.length_append] at hlength
  have htoInt : toInt len = msg.length := by
    rw [hlen]
    unfold kBufferSize at hroom
    exact toInt_of_mem (by omega) (by omega)
  constructor
  case noNewline =>
    intro hmem
    apply h.noNewline
    rw [hsplit]
    exact List.mem_append_right msg hmem
  case sent =>
    refine ⟨msgs ++ [msg], ?_, ?_⟩
    · rw [hsent, htoInt, List.map_append]
      rfl
    · calc
        (msgs ++ [msg]).flatten ++ rest = msgs.flatten ++ (msg ++ rest) := by simp
        _ = text := by rw [← hsplit, htext]
  case room =>
    change rest.length ≤ kBufferSize
    omega

theorem LinesSent.slide (h : ls.LinesSent text) (hslide : ls.slide = some ls') :
    ls'.LinesSent text := by
  have hrange : 0 ≤ ls.endPos ∧ ls.endPos ≤ ls.buf.length := by
    unfold LogStream.slide at hslide
    split at hslide
    · assumption
    · cases hslide
  rw [slide_spec hslide]
  refine h.send (List.take_append_drop ls.endPos.toNat ls.buf).symm ?_ 0 ls.clock
  rw [List.length_take]
  omega

theorem LinesSent.target (h : ls.LinesSent text) (htarget : ls.target p = some base) :
    base.LinesSent text := by
  unfold LogStream.target at htarget
  split at htarget
  · cases htarget
    exact h
  · exact h.slide htarget

/-- The copy, with the newlines it may bring, before `flushLine`. -/
theorem LinesSent.sent_copy (h : ls.LinesSent text) (p : List Byte) :
    ∃ msgs : List (List Byte), ls.sent = msgs.map (fun msg => ⟨msg.length, msg⟩) ∧
      msgs.flatten ++ (ls.buf ++ p) = text ++ p := by
  obtain ⟨msgs, hsent, htext⟩ := h.sent
  exact ⟨msgs, hsent, by rw [← List.append_assoc, htext]⟩

theorem LinesSent.store (h : ls.LinesSent text) (hroom : (ls.buf ++ p).length ≤ kBufferSize)
    (hinside : lastNewline (ls.buf ++ p) (ls.buf ++ p).length ≠ 0) :
    (ls.store kLineBuffer p).LinesSent (text ++ p) := by
  rcases store_cases kLineBuffer ls p with ⟨hfirst, -⟩ | ⟨q, -, hq, -, hle, hstore⟩
  · exact absurd (hfirst rfl) hinside
  · obtain ⟨msgs, hsent, htext⟩ := h.sent_copy p
    have hlength : ((ls.buf ++ p).take q).length = q := List.length_take_of_le hle
    have htoInt : toInt q = ((ls.buf ++ p).take q).length := by
      unfold kBufferSize at hroom
      rw [hlength]
      exact toInt_of_mem (by omega) (by omega)
    rw [hstore]
    constructor
    case noNewline => exact not_mem_drop_lastNewline hq
    case sent =>
      refine ⟨msgs ++ [(ls.buf ++ p).take q], ?_, ?_⟩
      · simp only [hsent, htoInt, List.map_append, List.map_cons, List.map_nil]
      · calc
          (msgs ++ [(ls.buf ++ p).take q]).flatten ++ (ls.buf ++ p).drop q =
              msgs.flatten ++ ((ls.buf ++ p).take q ++ (ls.buf ++ p).drop q) := by simp
          _ = text ++ p := by rw [List.take_append_drop, htext]
    case room =>
      change ((ls.buf ++ p).drop q).length ≤ kBufferSize
      rw [List.length_drop]
      omega

/-- A newline that is the first byte and the only one stays in the buffer. -/
theorem mem_store_of_first (h : lastNewline (ls.buf ++ p) (ls.buf ++ p).length = 0) :
    (0x0a : Byte) ∈ (ls.store kLineBuffer p).buf := by
  rcases store_cases kLineBuffer ls p with ⟨-, hstore⟩ | ⟨q, -, hq, hne, -⟩
  · rw [hstore]
    exact List.mem_of_getElem? (getElem?_lastNewline (i := 0) h)
  · omega

theorem LinesSent.append (h : ls.LinesSent text) (hinside : ls.NewlineInside p)
    (happend : ls.append kLineBuffer p = some ls') : ls'.LinesSent (text ++ copied p) := by
  obtain ⟨base, htarget, hroom, hlen, rfl⟩ := append_spec happend
  exact (h.target htarget).store (room_of_avail hroom hlen) (hinside base htarget)

/-- An append that returns leaves a newline exactly if that is the first byte and the only one. -/
theorem LinesSent.append_iff (h : ls.LinesSent text)
    (happend : ls.append kLineBuffer p = some ls') :
    (0x0a : Byte) ∉ ls'.buf ↔ ls.NewlineInside p := by
  constructor
  · intro hnone base htarget hfirst
    obtain ⟨base', htarget', -, -, rfl⟩ := append_spec happend
    rw [htarget] at htarget'
    cases htarget'
    exact hnone (mem_store_of_first hfirst)
  · exact fun hinside => (h.append hinside happend).noNewline

end Append

end LogStream

/-! ### Runs -/

/-- The text after the action; `_cur -= 3` takes three bytes back. -/
def Action.write (text : List Byte) : Action → List Byte
  | append p => text ++ LogStream.copied p
  | put arg => text ++ LogStream.copied (arg.text.getD [])
  | backup => text.take (text.length - 3)
  | _ => text

/-- The action leaves no newline behind and sends nothing twice. -/
def Action.Prompt (ls : LogStream) : Action → Prop
  | append p => ls.NewlineInside p
  | put arg => ∀ p, arg.text = some p → ls.NewlineInside p
  | flush => ls.endPos = 0
  | _ => True

/-- So do all the actions, from this state on. -/
def PromptAlong : LogStream → List Action → Prop
  | _, [] => True
  | ls, action :: rest =>
      action.Prompt ls ∧ ∀ ls', action.exec kLineBuffer ls = some ls' → PromptAlong ls' rest

theorem PromptAlong.cons {ls : LogStream} (ls' : LogStream) {action : Action} {rest : List Action}
    (hprompt : action.Prompt ls) (hexec : action.exec kLineBuffer ls = some ls')
    (hrest : PromptAlong ls' rest) : PromptAlong ls (action :: rest) := by
  refine ⟨hprompt, fun mid hmid => ?_⟩
  rw [hexec] at hmid
  exact Option.some.inj hmid ▸ hrest

namespace LogStream

variable {ls ls' : LogStream} {text : List Byte}

theorem linesSent_new (clock : Clock) : (new clock).LinesSent [] where
  noNewline := by simp [new]
  sent := ⟨[], rfl, rfl⟩
  room := Nat.zero_le _

theorem LinesSent.begin (h : ls.LinesSent text) : ls.begin.LinesSent text := by
  by_cases hneed : ls.clock.needFlush
  · have hall : ls.buf = ls.buf.take (ls.buf.length : Int).toNat ++ [] := by simp
    have hlen : (ls.buf.length : Int) = (ls.buf.take (ls.buf.length : Int).toNat).length := by simp
    simp only [LogStream.begin, hneed, if_true]
    exact h.send hall hlen 0 _
  · simp only [LogStream.begin, hneed]
    exact ⟨h.noNewline, h.sent, h.room⟩

theorem LinesSent.formatTime (h : ls.LinesSent text) (secs : Int) :
    (ls.formatTime kLineBuffer secs).LinesSent text := by
  unfold LogStream.formatTime
  split
  · exact ⟨h.noNewline, h.sent, h.room⟩
  · exact h

theorem LinesSent.backup (h : ls.LinesSent text) (hbackup : ls.backup = some ls') :
    ls'.LinesSent (text.take (text.length - 3)) := by
  have hroom := h.room
  obtain ⟨msgs, hsent, htext⟩ := h.sent
  unfold LogStream.backup at hbackup
  split at hbackup
  case isTrue hlength =>
    cases hbackup
    constructor
    case noNewline => exact fun hmem => h.noNewline (List.mem_of_mem_take hmem)
    case sent =>
      refine ⟨msgs, hsent, ?_⟩
      have hsum : text.length - 3 = msgs.flatten.length + (ls.buf.length - 3) := by
        rw [← htext, List.length_append]
        omega
      rw [hsum, ← htext, List.take_length_add_append]
    case room =>
      simp only [List.length_take]
      omega
  case isFalse => cases hbackup

theorem LinesSent.flush (h : ls.LinesSent text) (hend : ls.endPos = 0) :
    ls.flush.LinesSent text := by
  have hnone : ls.buf.take ls.endPos.toNat = [] := by rw [hend]; rfl
  have hsplit : ls.buf = ls.buf.take ls.endPos.toNat ++ ls.buf := by rw [hnone, List.nil_append]
  have hlen : ls.endPos = (ls.buf.take ls.endPos.toNat).length := by rw [hnone, hend]; rfl
  exact h.send hsplit hlen ls.endPos ls.clock

/-- **One step.** -/
theorem LinesSent.exec {action : Action} (h : ls.LinesSent text) (hprompt : action.Prompt ls)
    (hexec : action.exec kLineBuffer ls = some ls') : ls'.LinesSent (action.write text) := by
  cases action with
  | begin =>
      cases hexec
      exact h.begin
  | formatTime secs =>
      cases hexec
      exact h.formatTime secs
  | put arg =>
      obtain ⟨p, htext, happend⟩ := Option.bind_eq_some_iff.mp hexec
      simp only [Action.write, htext, Option.getD_some]
      exact h.append (hprompt p htext) happend
  | append p => exact h.append hprompt hexec
  | backup => exact h.backup hexec
  | flush =>
      cases hexec
      exact h.flush hprompt

theorem LinesSent.run {actions : List Action} (h : ls.LinesSent text)
    (hprompt : PromptAlong ls actions)
    (hrun : actions.foldlM (Action.exec kLineBuffer) ls = some ls') :
    ls'.LinesSent (actions.foldl Action.write text) := by
  induction actions generalizing ls text with
  | nil =>
      cases hrun
      exact h
  | cons action actions ih =>
      obtain ⟨mid, hexec, hrest⟩ := Transition.foldlM_cons_eq_some_iff.mp hrun
      exact ih (h.exec hprompt.1 hexec) (hprompt.2 mid hexec) hrest

/-- **Lines go out at once.** In every run in line mode whose steps are prompt, the buffer holds no
newline and the text before it went out in order and once; and the next append leaves a newline
exactly if it is the first byte of the buffer and the only one there. -/
theorem lines_of_run (clock : Clock) {actions : List Action} {ls : LogStream}
    (hrun : actions.foldlM (Action.exec kLineBuffer) (new clock) = some ls)
    (hprompt : PromptAlong (new clock) actions) :
    ls.LinesSent (actions.foldl Action.write []) ∧
      ∀ p ls', ls.append kLineBuffer p = some ls' →
        ((0x0a : Byte) ∉ ls'.buf ↔ ls.NewlineInside p) := by
  have hlines := (linesSent_new clock).run hprompt hrun
  exact ⟨hlines, fun p ls' => hlines.append_iff⟩

/-- A line that is finished by the next append. -/
theorem lines_of_run_two_lines :
    let actions : List Action := [.append (bytes "ab\nc"), .append (bytes "\n")]
    ∃ ls, actions.foldlM (Action.exec kLineBuffer) (new ⟨false, 0⟩) = some ls ∧
      ls.LinesSent (actions.foldl Action.write []) := by
  intro actions
  let first : LogStream := ⟨bytes "c", -3, ⟨false, 0⟩, [⟨3, bytes "ab\n"⟩]⟩
  let second : LogStream := ⟨[], -5, ⟨false, 0⟩, [⟨3, bytes "ab\n"⟩, ⟨2, bytes "c\n"⟩]⟩
  have hrun : actions.foldlM (Action.exec kLineBuffer) (new ⟨false, 0⟩) = some second := by
    decide +kernel
  have hfirst : (new ⟨false, 0⟩).NewlineInside (bytes "ab\nc") :=
    newlineInside_of_target
      (show (new ⟨false, 0⟩).target (bytes "ab\nc") = some (new ⟨false, 0⟩) by decide +kernel)
      (by decide +kernel)
  have hsecond : first.NewlineInside (bytes "\n") :=
    newlineInside_of_target (show first.target (bytes "\n") = some first by decide +kernel)
      (by decide +kernel)
  have hprompt : PromptAlong (new ⟨false, 0⟩) actions :=
    .cons first hfirst (by decide +kernel) ⟨hsecond, fun _ _ => trivial⟩
  exact ⟨second, hrun, (lines_of_run ⟨false, 0⟩ hrun hprompt).1⟩

/-- A newline that is all a fresh stream was given stays in the buffer. -/
theorem not_lines_of_run :
    ¬ ∀ (clock : Clock) (actions : List Action) (ls : LogStream),
      actions.foldlM (Action.exec kLineBuffer) (new clock) = some ls → (0x0a : Byte) ∉ ls.buf := by
  intro hlines
  have hrun : [Action.append (bytes "\n")].foldlM (Action.exec kLineBuffer) (new ⟨false, 0⟩) =
      some ⟨bytes "\n", 0, ⟨false, 0⟩, []⟩ := by
    decide +kernel
  exact hlines _ _ _ hrun (by decide +kernel)

end LogStream

end CppUtils
