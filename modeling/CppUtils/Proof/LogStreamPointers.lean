import CppUtils.LogStream
import CppUtils.Lib.Transition

/-!
# The pointers of a stream in both buffer levels

`_buf <= _end <= _cur <= _buf + kBufferSize` breaks in one place: in line mode `flushLine` shifts
the text down to the last newline and `_end` with it, also when `_end` was before that newline, and
then `_end` is left before `_buf`. `EndKept` says of an `append` that it does not come to this. A
run whose appends all satisfy it keeps the pointers in order, whatever the buffer level is
meanwhile.
-/

namespace CppUtils

namespace LogStream

structure PointerInv (ls : LogStream) : Prop where
  start : 0 ≤ ls.endPos
  order : ls.endPos ≤ ls.buf.length
  room : ls.buf.length ≤ kBufferSize

/-- Every length that went to `g_output` is one of a piece of the buffer. -/
def InRange (sent : List Output) : Prop := ∀ out ∈ sent, 0 ≤ out.len ∧ out.len ≤ kBufferSize

/-! ### Newlines -/

theorem lastNewline_lt (text : List Byte) (n : Nat) : lastNewline text n < n := by
  induction n with
  | zero => simp [lastNewline]
  | succ n ih =>
      unfold lastNewline
      split <;> omega

theorem neg_one_le_lastNewline (text : List Byte) (n : Nat) : -1 ≤ lastNewline text n := by
  induction n with
  | zero => simp [lastNewline]
  | succ n ih =>
      unfold lastNewline
      split <;> omega

theorem lastNewline_append_lt (text p : List Byte) (hp : (0x0a : Byte) ∉ p) :
    lastNewline (text ++ p) (text ++ p).length < text.length := by
  suffices h : ∀ k ≤ p.length, lastNewline (text ++ p) (text.length + k) < text.length by
    rw [List.length_append]
    exact h p.length (Nat.le_refl _)
  intro k hk
  induction k with
  | zero => exact lastNewline_lt _ _
  | succ k ih =>
      have hread : (text ++ p)[text.length + k]? = p[k]? := by
        rw [List.getElem?_append_right (Nat.le_add_right _ _), Nat.add_sub_cancel_left]
      have hnot : ¬ (text ++ p)[text.length + k]? = some (0x0a : Byte) := by
        rw [hread]
        exact fun hmem => hp (List.mem_of_getElem? hmem)
      rw [Nat.add_succ]
      unfold lastNewline
      rw [if_neg hnot]
      exact ih (by omega)

/-! ### One append -/

def copied (p : List Byte) : List Byte := p.take (toInt p.length).toNat

/-- The stream that `append` copies `p` to: this one, or what a slide makes of it. -/
def target (ls : LogStream) (p : List Byte) : Option LogStream :=
  if ls.avail > toInt p.length then some ls else ls.slide

/-- In line mode the last newline after the copy is none, or the first byte, or before `_end`. -/
def EndKept (level : Int) (ls : LogStream) (p : List Byte) : Prop :=
  ∀ base, ls.target p = some base → level = kLineBuffer →
    let text := base.buf ++ copied p
    lastNewline text text.length ≤ 0 ∨ lastNewline text text.length < base.endPos

section Append

variable {level : Int} {ls ls' base : LogStream} {p : List Byte}

theorem slide_spec (h : ls.slide = some ls') :
    ls' = { ls.flush with buf := ls.buf.drop ls.endPos.toNat, endPos := 0 } := by
  unfold slide at h
  split at h
  · exact (Option.some.inj h).symm
  · cases h

theorem appendFrom_eq_none (hend : ls.endPos = 0) (hfull : ¬ ls.avail > toInt p.length)
    (calls : Nat) : ls.appendFrom level p calls = none := by
  induction calls generalizing ls with
  | zero => rfl
  | succ calls ih =>
      rw [appendFrom, if_neg hfull]
      cases hslide : ls.slide with
      | none => rfl
      | some ls' =>
          have hls' := slide_spec hslide
          refine ih (by rw [hls']) ?_
          rw [hls']
          simpa [avail, hend] using hfull

theorem append_spec (h : ls.append level p = some ls') :
    ∃ base, ls.target p = some base ∧ base.avail > toInt p.length ∧ 0 ≤ toInt p.length ∧
      ls' = base.store level (copied p) := by
  have hstore {ls : LogStream} {calls : Nat} (hroom : ls.avail > toInt p.length)
      (h : ls.appendFrom level p (calls + 1) = some ls') :
      0 ≤ toInt p.length ∧ ls' = ls.store level (copied p) := by
    rw [appendFrom, if_pos hroom] at h
    split at h
    · exact ⟨by assumption, (Option.some.inj h).symm⟩
    · cases h
  unfold target
  by_cases hroom : ls.avail > toInt p.length
  · obtain ⟨hlen, hls'⟩ := hstore hroom h
    exact ⟨ls, if_pos hroom, hroom, hlen, hls'⟩
  · rw [if_neg hroom]
    rw [append, appendFrom, if_neg hroom, Option.bind_eq_some_iff] at h
    obtain ⟨base, hslide, h⟩ := h
    have hend : base.endPos = 0 := by rw [slide_spec hslide]
    by_cases hroom' : base.avail > toInt p.length
    · obtain ⟨hlen, hls'⟩ := hstore hroom' h
      exact ⟨base, hslide, hroom', hlen, hls'⟩
    · rw [appendFrom_eq_none hend hroom'] at h
      cases h

/-! ### What keeps the pointers in order -/

theorem toInt_mem_range {z : Int} (hlow : 0 ≤ z) (hhigh : z ≤ kBufferSize) :
    0 ≤ toInt z ∧ toInt z ≤ kBufferSize := by
  have heq : toInt z = z := by
    unfold kBufferSize at hhigh
    exact toInt_of_mem (by omega) (by omega)
  omega

theorem InRange.concat {sent : List Output} (h : InRange sent) {z : Int} (hlow : 0 ≤ z)
    (hhigh : z ≤ kBufferSize) (msg : List Byte) : InRange (sent ++ [⟨toInt z, msg⟩]) := by
  intro out hout
  rcases List.mem_append.mp hout with hout | hout
  · exact h out hout
  · rw [List.mem_singleton.mp hout]
    exact toInt_mem_range hlow hhigh

theorem PointerInv.flush (h : ls.PointerInv) (hsent : InRange ls.sent) : InRange ls.flush.sent :=
  hsent.concat h.start (Int.le_trans h.order (Int.ofNat_le.mpr h.room)) _

theorem PointerInv.slide (h : ls.PointerInv) (hsent : InRange ls.sent)
    (hslide : ls.slide = some ls') : ls'.PointerInv ∧ InRange ls'.sent := by
  have hroom := h.room
  rw [slide_spec hslide]
  refine ⟨⟨Int.le_refl 0, by simp, ?_⟩, h.flush hsent⟩
  simp only [List.length_drop]
  omega

theorem PointerInv.target (h : ls.PointerInv) (hsent : InRange ls.sent)
    (htarget : ls.target p = some base) : base.PointerInv ∧ InRange base.sent := by
  unfold LogStream.target at htarget
  split at htarget
  · cases htarget
    exact ⟨h, hsent⟩
  · exact h.slide hsent htarget

theorem length_copied_le (hlen : 0 ≤ toInt p.length) :
    ((copied p).length : Int) ≤ toInt p.length := by
  unfold copied
  rw [List.length_take]
  omega

end Append

section Store

variable {level : Int} {ls : LogStream} {p : List Byte}

theorem store_cases (level : Int) (ls : LogStream) (p : List Byte) :
    ((level = kLineBuffer → lastNewline (ls.buf ++ p) (ls.buf ++ p).length = 0) ∧
      ls.store level p = { ls with buf := ls.buf ++ p }) ∨
    ∃ q : Nat, level = kLineBuffer ∧ lastNewline (ls.buf ++ p) (ls.buf ++ p).length + 1 = q ∧
      q ≠ 1 ∧ q ≤ (ls.buf ++ p).length ∧
      ls.store level p = { ls with
        sent := ls.sent ++ [⟨toInt q, (ls.buf ++ p).take q⟩]
        buf := (ls.buf ++ p).drop q
        endPos := ls.endPos - q } := by
  have hlow := neg_one_le_lastNewline (ls.buf ++ p) (ls.buf ++ p).length
  have hhigh := lastNewline_lt (ls.buf ++ p) (ls.buf ++ p).length
  unfold store
  by_cases hlevel : level = kLineBuffer
  · by_cases hfirst : lastNewline (ls.buf ++ p) (ls.buf ++ p).length = 0
    · refine Or.inl ⟨fun _ => hfirst, ?_⟩
      simp only [if_pos hlevel, flushLine, hfirst]
      rfl
    · obtain ⟨q, hq⟩ := Int.eq_ofNat_of_zero_le
        (show 0 ≤ lastNewline (ls.buf ++ p) (ls.buf ++ p).length + 1 by omega)
      refine Or.inr ⟨q, hlevel, hq, by omega, by omega, ?_⟩
      simp only [if_pos hlevel, flushLine, hq, if_pos hfirst, ne_eq, Int.toNat_natCast]
  · exact Or.inl ⟨fun h => absurd h hlevel, by simp only [if_neg hlevel]⟩

theorem PointerInv.store_iff (h : ls.PointerInv) (hroom : (ls.buf ++ p).length ≤ kBufferSize) :
    (ls.store level p).PointerInv ↔
      (level = kLineBuffer → lastNewline (ls.buf ++ p) (ls.buf ++ p).length ≤ 0 ∨
        lastNewline (ls.buf ++ p) (ls.buf ++ p).length < ls.endPos) := by
  have hstart := h.start
  have horder : ls.endPos ≤ (ls.buf ++ p).length := by
    rw [List.length_append]
    have := h.order
    omega
  rcases store_cases level ls p with ⟨hfirst, hstore⟩ | ⟨q, hlevel, hq, hne, hle, hstore⟩
  · rw [hstore]
    exact ⟨fun _ hlevel => Or.inl (Int.le_of_eq (hfirst hlevel)),
      fun _ => ⟨hstart, horder, hroom⟩⟩
  · rw [hstore]
    constructor
    · intro hinv _
      have hend : 0 ≤ ls.endPos - q := hinv.start
      omega
    · intro hkept
      have := hkept hlevel
      refine ⟨?_, ?_, ?_⟩ <;> simp only [List.length_drop] <;> omega

theorem InRange.store (h : InRange ls.sent) (hroom : (ls.buf ++ p).length ≤ kBufferSize) :
    InRange (ls.store level p).sent := by
  rcases store_cases level ls p with ⟨-, hstore⟩ | ⟨q, -, -, -, hle, hstore⟩
  · rw [hstore]
    exact h
  · rw [hstore]
    exact h.concat (by omega) (by omega) _

/-- A text without newline stays behind `_end` as a whole. -/
theorem PointerInv.tail_store (h : ls.PointerInv) (hp : (0x0a : Byte) ∉ p) :
    (ls.store level p).endPos + p.length ≤ (ls.store level p).buf.length := by
  have horder := h.order
  rcases store_cases level ls p with ⟨-, hstore⟩ | ⟨q, -, hq, -, -, hstore⟩
  · rw [hstore]
    simp only [List.length_append]
    omega
  · have hlt := lastNewline_append_lt ls.buf p hp
    rw [hstore]
    simp only [List.length_drop, List.length_append]
    omega

end Store

section Append

variable {level : Int} {ls ls' : LogStream} {p : List Byte}

theorem room_of_avail {base : LogStream} (hroom : base.avail > toInt p.length)
    (hlen : 0 ≤ toInt p.length) : (base.buf ++ copied p).length ≤ kBufferSize := by
  have := length_copied_le hlen
  unfold avail at hroom
  rw [List.length_append]
  omega

/-- **What `append` needs.** From pointers in order `append` leaves them in order exactly if `_end`
is not before the newline it flushes to. -/
theorem PointerInv.append_iff (h : ls.PointerInv) (hsent : InRange ls.sent)
    (happend : ls.append level p = some ls') : ls'.PointerInv ↔ ls.EndKept level p := by
  obtain ⟨base, htarget, hroom, hlen, rfl⟩ := append_spec happend
  have hbase := (h.target hsent htarget).1
  rw [hbase.store_iff (room_of_avail hroom hlen)]
  constructor
  · intro hkept base' hbase' hlevel
    rw [htarget] at hbase'
    cases hbase'
    exact hkept hlevel
  · exact fun hkept => hkept base htarget

theorem InRange.append (h : ls.PointerInv) (hsent : InRange ls.sent)
    (happend : ls.append level p = some ls') : InRange ls'.sent := by
  obtain ⟨base, htarget, hroom, hlen, rfl⟩ := append_spec happend
  exact (h.target hsent htarget).2.store (room_of_avail hroom hlen)

theorem PointerInv.tail_append (h : ls.PointerInv) (hsent : InRange ls.sent)
    (hp : (0x0a : Byte) ∉ p) (hcopied : copied p = p) (happend : ls.append level p = some ls') :
    ls'.endPos + p.length ≤ ls'.buf.length := by
  obtain ⟨base, htarget, -, -, rfl⟩ := append_spec happend
  rw [hcopied]
  exact (h.target hsent htarget).1.tail_store hp

end Append

/-! ### The other parts -/

section Parts

variable {ls ls' : LogStream}

theorem PointerInv.begin (h : ls.PointerInv) (hsent : InRange ls.sent) :
    ls.begin.PointerInv ∧ InRange ls.begin.sent := by
  have hmarked : PointerInv { ls with endPos := ls.buf.length } :=
    ⟨Int.natCast_nonneg _, Int.le_refl _, h.room⟩
  by_cases hneed : ls.clock.needFlush
  · have hflush := hmarked.flush hsent
    simp only [LogStream.begin, hneed, if_true]
    exact ⟨⟨Int.le_refl 0, Int.le_refl 0, Nat.zero_le _⟩, hflush⟩
  · simp only [LogStream.begin, hneed]
    exact ⟨hmarked, hsent⟩

theorem PointerInv.formatTime (h : ls.PointerInv) (hsent : InRange ls.sent) (level secs : Int) :
    (ls.formatTime level secs).PointerInv ∧ InRange (ls.formatTime level secs).sent := by
  unfold LogStream.formatTime
  split
  · exact ⟨⟨h.start, h.order, h.room⟩, hsent⟩
  · exact ⟨h, hsent⟩

theorem PointerInv.backup (h : ls.PointerInv) (hsent : InRange ls.sent)
    (htail : ls.endPos + 3 ≤ ls.buf.length) (hbackup : ls.backup = some ls') :
    ls'.PointerInv ∧ InRange ls'.sent := by
  have hroom := h.room
  unfold LogStream.backup at hbackup
  split at hbackup
  · cases hbackup
    refine ⟨⟨h.start, ?_, ?_⟩, hsent⟩ <;> simp only [List.length_take] <;> omega
  · cases hbackup

end Parts

/-! ### Runs -/

end LogStream

/-- What the event appends keeps `_end`. -/
def Event.EndKept (front : Front) : Event → Prop
  | .act (.append p) => front.stream.EndKept front.level p
  | .act (.put arg) => ∀ p, arg.text = some p → front.stream.EndKept front.level p
  | _ => True

/-- So do all the events, from this state on. -/
def EndKeptAlong : Front → List Event → Prop
  | _, [] => True
  | front, event :: rest =>
      event.EndKept front ∧ ∀ front', event.exec front = some front' → EndKeptAlong front' rest

def dash : Event := .act (.put (.cstr (bytes " - ")))

/-- Every `_cur -= 3` comes right after a `" - "`; `dashed` says whether one was just written. -/
def DashBeforeBackup : Bool → List Event → Prop
  | _, [] => True
  | dashed, event :: rest =>
      (event = .act .backup → dashed = true) ∧ DashBeforeBackup (decide (event = dash)) rest

theorem EndKeptAlong.cons {front : Front} (front' : Front) {event : Event} {rest : List Event}
    (hkept : event.EndKept front) (hexec : event.exec front = some front')
    (hrest : EndKeptAlong front' rest) : EndKeptAlong front (event :: rest) := by
  refine ⟨hkept, fun mid hmid => ?_⟩
  rw [hexec] at hmid
  exact Option.some.inj hmid ▸ hrest

theorem dashBeforeBackup_events (call : Call) {rest : List Event}
    (hrest : ∀ dashed, DashBeforeBackup dashed rest) (dashed : Bool) :
    DashBeforeBackup dashed (call.events ++ rest) := by
  cases call with
  | makeLog site =>
      unfold Call.events Site.actions
      cases hfunc : site.func with
      | none => simp [DashBeforeBackup, Site.header, hfunc, hrest]
      | some func => simp [DashBeforeBackup, Site.header, Site.funcHeader, hfunc, dash, hrest]
  | put arg => simp [Call.events, DashBeforeBackup, hrest]
  | append p => simp [Call.events, DashBeforeBackup, hrest]
  | flush => simp [Call.events, DashBeforeBackup, hrest]
  | setBufferLevel level => simp [Call.events, DashBeforeBackup, hrest]

theorem dashBeforeBackup_calls (calls : List Call) (dashed : Bool) :
    DashBeforeBackup dashed (calls.flatMap Call.events) := by
  induction calls generalizing dashed with
  | nil => trivial
  | cons call calls ih => exact dashBeforeBackup_events call ih dashed

structure Front.Inv (dashed : Bool) (front : Front) : Prop where
  pointers : front.stream.PointerInv
  sent : LogStream.InRange front.stream.sent
  tail : dashed = true → front.stream.endPos + 3 ≤ front.stream.buf.length

theorem Front.inv_new (clock : Clock) : (Front.new clock).Inv false where
  pointers := ⟨Int.le_refl 0, Int.le_refl 0, Nat.zero_le _⟩
  sent := by simp [Front.new, LogStream.new, LogStream.InRange]
  tail := by simp

theorem Front.Inv.append {dashed : Bool} {front : Front} (h : front.Inv dashed) {p : List Byte}
    (hkept : front.stream.EndKept front.level p) {ls' : LogStream}
    (happend : front.stream.append front.level p = some ls') :
    ls'.PointerInv ∧ LogStream.InRange ls'.sent :=
  ⟨(h.pointers.append_iff h.sent happend).mpr hkept, .append h.pointers h.sent happend⟩

theorem Front.Inv.exec {dashed : Bool} {front front' : Front} {event : Event}
    (h : front.Inv dashed) (hdash : event = .act .backup → dashed = true)
    (hkept : event.EndKept front) (hexec : event.exec front = some front') :
    front'.Inv (decide (event = dash)) := by
  have hother {front' : Front} (hne : event ≠ dash)
      (hinv : front'.stream.PointerInv ∧ LogStream.InRange front'.stream.sent) :
      front'.Inv (decide (event = dash)) := ⟨hinv.1, hinv.2, by simp [hne]⟩
  cases event with
  | setBufferLevel level =>
      cases hexec
      exact hother (by simp [dash]) ⟨h.pointers, h.sent⟩
  | act action =>
      obtain ⟨ls', haction, rfl⟩ := Option.map_eq_some_iff.mp hexec
      cases action with
      | begin =>
          cases haction
          exact hother (by simp [dash]) (h.pointers.begin h.sent)
      | formatTime secs =>
          cases haction
          exact hother (by simp [dash]) (h.pointers.formatTime h.sent _ _)
      | append p => exact hother (by simp [dash]) (h.append hkept haction)
      | flush =>
          cases haction
          exact hother (by simp [dash])
            ⟨⟨h.pointers.start, h.pointers.order, h.pointers.room⟩, h.pointers.flush h.sent⟩
      | backup =>
          exact hother (by simp [dash]) (h.pointers.backup h.sent (h.tail (hdash rfl)) haction)
      | put arg =>
          obtain ⟨p, htext, happend⟩ := Option.bind_eq_some_iff.mp haction
          obtain ⟨hpointers, hsent⟩ := h.append (hkept p htext) happend
          refine ⟨hpointers, hsent, fun htrue => ?_⟩
          -- only the `" - "` of a header has to be remembered
          have harg : arg = .cstr (bytes " - ") := by simpa [dash] using htrue
          have hp : p = bytes " - " := by
            rw [harg] at htext
            exact (Option.some.inj htext).symm
          have hno : (0x0a : Byte) ∉ p := by rw [hp]; decide
          have hcopied : LogStream.copied p = p := by rw [hp]; decide +kernel
          have hlen : p.length = 3 := by rw [hp]; decide
          have htail := h.pointers.tail_append h.sent hno hcopied happend
          rw [hlen] at htail
          exact htail

theorem Front.Inv.run {dashed : Bool} {front front' : Front} {executed todo : List Event}
    (h : front.Inv dashed) (hdash : DashBeforeBackup dashed (executed ++ todo))
    (hkept : EndKeptAlong front executed)
    (hrun : executed.foldlM Event.exec front = some front') : ∃ dashed', front'.Inv dashed' := by
  induction executed generalizing front dashed with
  | nil =>
      cases hrun
      exact ⟨dashed, h⟩
  | cons event executed ih =>
      obtain ⟨mid, hexec, hrest⟩ := Transition.foldlM_cons_eq_some_iff.mp hrun
      exact ih (h.exec hdash.1 hkept.1 hexec) hdash.2 (hkept.2 mid hexec) hrest

/-- The states an `append` without room goes through, one recursive call after the other. -/
def LogStream.slides : Nat → LogStream → Option LogStream
  | 0, ls => some ls
  | n + 1, ls => ls.slide.bind (slides n)

theorem LogStream.PointerInv.slides {ls ls' : LogStream} (h : ls.PointerInv)
    (hsent : InRange ls.sent) {n : Nat} (hslides : LogStream.slides n ls = some ls') :
    ls'.PointerInv ∧ InRange ls'.sent := by
  induction n generalizing ls with
  | zero =>
      cases hslides
      exact ⟨h, hsent⟩
  | succ n ih =>
      obtain ⟨mid, hslide, hrest⟩ := Option.bind_eq_some_iff.mp hslides
      obtain ⟨hmid, hmidSent⟩ := h.slide hsent hslide
      exact ih hmid hmidSent hrest

/-- **The pointers stay in order while `_end` is kept.** At every point of a run of calls, also in
the middle of one and inside an append that does not return, as long as the appends so far have kept
`_end`; and the next append loses the order exactly if it does not keep `_end`. -/
theorem pointers_of_run (clock : Clock) {calls : List Call} {executed todo : List Event}
    (hcalls : calls.flatMap Call.events = executed ++ todo) {front : Front}
    (hrun : executed.foldlM Event.exec (Front.new clock) = some front)
    (hkept : EndKeptAlong (Front.new clock) executed) :
    front.stream.PointerInv ∧ LogStream.InRange front.stream.sent ∧
      (∀ n ls, LogStream.slides n front.stream = some ls →
        ls.PointerInv ∧ LogStream.InRange ls.sent) ∧
      ∀ p ls, front.stream.append front.level p = some ls →
        (ls.PointerInv ↔ front.stream.EndKept front.level p) := by
  have hdash : DashBeforeBackup false (executed ++ todo) := hcalls ▸ dashBeforeBackup_calls calls _
  obtain ⟨_, hinv⟩ := (Front.inv_new clock).run hdash hkept hrun
  exact ⟨hinv.pointers, hinv.sent, fun n ls => hinv.pointers.slides hinv.sent,
    fun p ls => hinv.pointers.append_iff hinv.sent⟩

/-- A line written in full mode goes out with the header of the next record, written in line
mode. -/
theorem pointers_of_run_line_before :
    let site : Site := ⟨bytes "a.cc", 7, .WARN, none, 1, bytes "10:00:00", 42⟩
    let calls : List Call := [.append (bytes "a\n"), .setBufferLevel kLineBuffer, .makeLog site]
    ∃ front, ((calls.flatMap Call.events).take 5).foldlM Event.exec (Front.new ⟨false, 1⟩) =
        some front ∧
      front.stream.PointerInv ∧ LogStream.InRange front.stream.sent := by
  intro site calls
  have hfull (p : List Byte) (ls : LogStream) : ls.EndKept kFullBuffer p :=
    fun _ _ hlevel => absurd hlevel (by decide)
  let written : LogStream := { LogStream.new ⟨false, 1⟩ with buf := bytes "a\n" }
  let begun : LogStream := { written with endPos := 2 }
  have hlast : begun.EndKept kLineBuffer (bytes "10:00:00") := by
    intro base htarget _
    have hbase : begun.target (bytes "10:00:00") = some begun := by decide +kernel
    rw [hbase] at htarget
    cases htarget
    decide +kernel
  have hkept : EndKeptAlong (Front.new ⟨false, 1⟩) ((calls.flatMap Call.events).take 5) :=
    .cons ⟨kFullBuffer, written⟩ (hfull _ _) (by decide +kernel) <|
      .cons ⟨kLineBuffer, written⟩ trivial rfl <|
      .cons ⟨kLineBuffer, begun⟩ trivial rfl <|
      .cons ⟨kLineBuffer, begun⟩ trivial rfl <|
      ⟨fun p hp => Option.some.inj hp ▸ hlast, fun _ _ => trivial⟩
  have hrun : ((calls.flatMap Call.events).take 5).foldlM Event.exec (Front.new ⟨false, 1⟩) =
      some ⟨kLineBuffer, ⟨bytes "10:00:00", 0, ⟨false, 1⟩, [⟨2, bytes "a\n"⟩]⟩⟩ := by
    decide +kernel
  obtain ⟨hpointers, hsent, -⟩ :=
    pointers_of_run ⟨false, 1⟩ (List.take_append_drop 5 (calls.flatMap Call.events)).symm hrun hkept
  exact ⟨_, hrun, hpointers, hsent⟩

/-- A line-buffered stream that was given `"a\n"` has `_end` two before `_buf`, and a flush passes
that on as the length. -/
theorem not_pointers_of_line :
    ¬ ∀ (clock : Clock) (calls : List Call) (front : Front),
      (∀ p, Call.append p ∈ calls → p.length < kBufferSize) →
      (calls.flatMap Call.events).foldlM Event.exec (Front.new clock) = some front →
      front.stream.PointerInv ∧ LogStream.InRange front.stream.sent := by
  intro hinOrder
  have hrun : ([Call.setBufferLevel kLineBuffer, .append (bytes "a\n"), .flush].flatMap
      Call.events).foldlM Event.exec (Front.new ⟨false, 0⟩) =
      some ⟨kLineBuffer, ⟨[], -2, ⟨false, 0⟩, [⟨2, bytes "a\n"⟩, ⟨-2, []⟩]⟩⟩ := by
    decide +kernel
  obtain ⟨hpointers, -⟩ := hinOrder _ _ _ (by simp [bytes, kBufferSize]) hrun
  exact absurd hpointers.start (by decide)

end CppUtils
