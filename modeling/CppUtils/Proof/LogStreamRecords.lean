import CppUtils.Proof.LogStreamNumerals
import CppUtils.Lib.Transition

/-!
# Whole records in full-buffer mode

While a record is written, `_end` marks where it starts, so what an overflow sends are the records
before it (`Inside`). Between two statements the text in the buffer is whole records (`Between`).
-/

namespace CppUtils

/-! ### The text of a record -/

/-- The header of a record once `_cur -= 3` has taken back the first `" - "`. -/
def Site.finalHeader (site : Site) : List Arg :=
  site.header.dropLast ++
    match site.func with
    | none => [.cstr (bytes " - ")]
    | some func => Site.funcHeader func

def Arg.texts (args : List Arg) : List (List Byte) := args.filterMap Arg.text

def Statement.text (statement : Statement) : List Byte :=
  (Arg.texts statement.site.finalHeader).flatten ++ statement.body.flatten

theorem exists_formatInteger (n : Nat) : ∃ text, formatInteger n = some text :=
  ⟨_, formatInteger_natCast n⟩

theorem Site.exists_text_of_mem_header (site : Site) : ∀ arg ∈ site.header,
    ∃ text, arg.text = some text := by
  obtain ⟨tid, htid⟩ := exists_formatInteger site.tid
  obtain ⟨line, hline⟩ := exists_formatInteger site.line
  simp [header, Arg.text, htid, hline]

theorem Site.exists_text_of_mem_funcHeader (func : List Byte) : ∀ arg ∈ Site.funcHeader func,
    ∃ text, arg.text = some text := by
  simp [funcHeader, Arg.text]

namespace LogStream

/-! ### Records and the record in progress -/

/-- The call of `g_output` with these records. -/
def whole (records : List (List Byte)) : Output := ⟨records.flatten.length, records.flatten⟩

/-- The calls of `g_output` took `groups`, and the buffer holds `rest` and then `part`. -/
structure Holds (ls : LogStream) (groups : List (List (List Byte))) (rest : List (List Byte))
    (part : List Byte) : Prop where
  sent : ls.sent = groups.map whole
  buf : ls.buf = rest.flatten ++ part
  room : ls.buf.length ≤ kBufferSize
  short : ∀ group ∈ groups, group.flatten.length ≤ kBufferSize

/-- No record is in progress, and these were written. -/
def Between (ls : LogStream) (records : List (List Byte)) : Prop :=
  ∃ groups rest, groups.flatten ++ rest = records ∧ ls.Holds groups rest []

/-- These records are complete, and `part` is what there is of the next. -/
def Inside (ls : LogStream) (records : List (List Byte)) (part : List Byte) : Prop :=
  ∃ groups rest, groups.flatten ++ rest = records ∧ ls.Holds groups rest part ∧
    ls.endPos = rest.flatten.length

theorem between_new (clock : Clock) : (new clock).Between [] :=
  ⟨[], [], rfl, rfl, rfl, Nat.zero_le _, by simp⟩

theorem Inside.between {ls : LogStream} {records : List (List Byte)} {part : List Byte}
    (h : ls.Inside records part) : ls.Between (records ++ [part]) := by
  obtain ⟨groups, rest, hrecords, hholds, -⟩ := h
  refine ⟨groups, rest ++ [part], ?_, hholds.sent, ?_, hholds.room, hholds.short⟩
  · rw [← hrecords, List.append_assoc]
  · rw [hholds.buf]
    simp

section Holds

variable {ls : LogStream} {groups : List (List (List Byte))} {rest : List (List Byte)}
  {part : List Byte}

theorem Holds.rest_le (h : ls.Holds groups rest part) : rest.flatten.length ≤ kBufferSize := by
  have hroom := h.room
  rw [h.buf, List.length_append] at hroom
  omega

theorem Holds.sent_flush (h : ls.Holds groups rest part) (hend : ls.endPos = rest.flatten.length) :
    ls.flush.sent = (groups ++ [rest]).map whole := by
  have hlen : toInt ls.endPos = rest.flatten.length := by
    have hle := h.rest_le
    unfold kBufferSize at hle
    rw [hend]
    exact toInt_of_mem (by omega) (by omega)
  have htake : ls.buf.take ls.endPos.toNat = rest.flatten := by
    rw [hend, h.buf, Int.toNat_natCast, List.take_left]
  simp only [flush, hlen, htake, h.sent, List.map_append, List.map_cons, List.map_nil]
  rfl

theorem Holds.short_concat (h : ls.Holds groups rest part) :
    ∀ group ∈ groups ++ [rest], group.flatten.length ≤ kBufferSize := by
  intro group hgroup
  rcases List.mem_append.mp hgroup with hgroup | hgroup
  · exact h.short group hgroup
  · rw [List.mem_singleton.mp hgroup]
    exact h.rest_le

end Holds

/-! ### Every part of a statement -/

section Steps

variable {ls : LogStream} {records : List (List Byte)} {part : List Byte}

theorem Between.begin (h : ls.Between records) : ls.begin.Inside records [] := by
  obtain ⟨groups, rest, hrecords, hholds⟩ := h
  have hlen : (ls.buf.length : Int) = rest.flatten.length := by rw [hholds.buf, List.append_nil]
  by_cases hneed : ls.clock.needFlush
  · have hmarked : Holds { ls with endPos := ls.buf.length } groups rest [] :=
      ⟨hholds.sent, hholds.buf, hholds.room, hholds.short⟩
    have hsent := hmarked.sent_flush hlen
    refine ⟨groups ++ [rest], [], by simpa using hrecords, ?_⟩
    simp only [LogStream.begin, hneed, if_true]
    exact ⟨⟨hsent, rfl, Nat.zero_le _, hholds.short_concat⟩, rfl⟩
  · refine ⟨groups, rest, hrecords, ?_⟩
    simp only [LogStream.begin, hneed]
    exact ⟨⟨hholds.sent, hholds.buf, hholds.room, hholds.short⟩, hlen⟩

theorem Inside.formatTime (h : ls.Inside records part) (level secs : Int) :
    (ls.formatTime level secs).Inside records part := by
  obtain ⟨groups, rest, hrecords, hholds, hend⟩ := h
  unfold LogStream.formatTime
  split
  · exact ⟨groups, rest, hrecords, ⟨hholds.sent, hholds.buf, hholds.room, hholds.short⟩, hend⟩
  · exact ⟨groups, rest, hrecords, hholds, hend⟩

/-- A slide sends the complete records and leaves the record in progress at the start. -/
theorem Inside.slide (h : ls.Inside records part) :
    ∃ ls', ls.slide = some ls' ∧ ls'.Inside records part ∧ ls'.buf = part := by
  obtain ⟨groups, rest, hrecords, hholds, hend⟩ := h
  have hbuf : ls.buf.drop ls.endPos.toNat = part := by
    rw [hend, hholds.buf, Int.toNat_natCast, List.drop_left]
  have hroom : part.length ≤ kBufferSize := by
    rw [← hbuf, List.length_drop]
    have := hholds.room
    omega
  have hinside : 0 ≤ ls.endPos ∧ ls.endPos ≤ ls.buf.length := by
    rw [hend, hholds.buf, List.length_append]
    omega
  refine ⟨_, if_pos hinside, ⟨groups ++ [rest], [], by simpa using hrecords, ?_, rfl⟩, hbuf⟩
  exact ⟨hholds.sent_flush hend, hbuf, by rw [hbuf]; exact hroom, hholds.short_concat⟩

theorem store_kFullBuffer (ls : LogStream) (p : List Byte) :
    ls.store kFullBuffer p = { ls with buf := ls.buf ++ p } := rfl

theorem Inside.store (h : ls.Inside records part) {p : List Byte}
    (hroom : ls.buf.length + p.length ≤ kBufferSize) :
    (ls.store kFullBuffer p).Inside records (part ++ p) := by
  obtain ⟨groups, rest, hrecords, hholds, hend⟩ := h
  refine ⟨groups, rest, hrecords, ⟨hholds.sent, ?_, ?_, hholds.short⟩, hend⟩
  · rw [store_kFullBuffer, ← List.append_assoc, ← hholds.buf]
  · rw [store_kFullBuffer, List.length_append]
    exact hroom

theorem Inside.append (h : ls.Inside records part) {p : List Byte}
    (hshort : part.length + p.length < kBufferSize) :
    ∃ ls', ls.append kFullBuffer p = some ls' ∧ ls'.Inside records (part ++ p) := by
  have hlen : toInt p.length = p.length := by
    unfold kBufferSize at hshort
    exact toInt_of_mem (by omega) (by omega)
  have htake : p.take (toInt p.length).toNat = p := by
    rw [hlen, Int.toNat_natCast, List.take_length]
  have hnonneg : 0 ≤ toInt p.length := by omega
  by_cases hroom : ls.avail > toInt p.length
  · refine ⟨ls.store kFullBuffer p, ?_, h.store ?_⟩
    · simp only [LogStream.append, appendFrom, if_pos hroom, if_pos hnonneg, htake]
    · rw [hlen] at hroom
      unfold avail at hroom
      omega
  · obtain ⟨ls', hslide, hinside, hbuf⟩ := h.slide
    have hroom' : ls'.avail > toInt p.length := by
      rw [hlen]
      unfold avail
      rw [hbuf]
      omega
    refine ⟨ls'.store kFullBuffer p, ?_, hinside.store ?_⟩
    · simp only [LogStream.append, appendFrom, if_neg hroom, hslide, Option.bind_some,
        if_pos hroom', if_pos hnonneg, htake]
    · rw [hbuf]
      omega

theorem Inside.appends {texts : List (List Byte)} (h : ls.Inside records part)
    (hshort : (part ++ texts.flatten).length < kBufferSize) :
    ∃ ls', texts.foldlM (LogStream.append kFullBuffer) ls = some ls' ∧
      ls'.Inside records (part ++ texts.flatten) := by
  induction texts generalizing ls part with
  | nil => exact ⟨ls, rfl, by simpa using h⟩
  | cons p texts ih =>
      rw [List.flatten_cons, ← List.append_assoc] at hshort ⊢
      have hp : part.length + p.length < kBufferSize := by
        simp only [List.length_append] at hshort
        omega
      obtain ⟨mid, hmid, hinside⟩ := h.append hp
      obtain ⟨ls', hls', hrest⟩ := ih hinside hshort
      exact ⟨ls', by rw [List.foldlM_cons, hmid]; exact hls', hrest⟩

theorem foldlM_put_eq (level : Int) {args : List Arg}
    (htext : ∀ arg ∈ args, ∃ text, arg.text = some text) (ls : LogStream) :
    args.foldlM (put level) ls = (Arg.texts args).foldlM (LogStream.append level) ls := by
  induction args generalizing ls with
  | nil => rfl
  | cons arg args ih =>
      obtain ⟨text, harg⟩ := htext arg List.mem_cons_self
      have htexts : Arg.texts (arg :: args) = text :: Arg.texts args :=
        List.filterMap_cons_some harg
      rw [htexts, List.foldlM_cons, List.foldlM_cons, put, harg, Option.bind_some]
      exact bind_congr fun mid => ih (fun a ha => htext a (List.mem_cons_of_mem _ ha)) mid

theorem Inside.puts {args : List Arg} (h : ls.Inside records part)
    (htext : ∀ arg ∈ args, ∃ text, arg.text = some text)
    (hshort : (part ++ (Arg.texts args).flatten).length < kBufferSize) :
    ∃ ls', args.foldlM (put kFullBuffer) ls = some ls' ∧
      ls'.Inside records (part ++ (Arg.texts args).flatten) := by
  rw [foldlM_put_eq kFullBuffer htext]
  exact h.appends hshort

theorem Inside.backup {p : List Byte} (h : ls.Inside records (part ++ p)) (hp : p.length = 3) :
    ∃ ls', ls.backup = some ls' ∧ ls'.Inside records part := by
  obtain ⟨groups, rest, hrecords, hholds, hend⟩ := h
  have hbuf : ls.buf = (rest.flatten ++ part) ++ p := by rw [hholds.buf, List.append_assoc]
  have hlen : ls.buf.length = (rest.flatten ++ part).length + 3 := by
    rw [hbuf, List.length_append, hp]
  have htake : ls.buf.take (ls.buf.length - 3) = rest.flatten ++ part := by
    rw [hlen, Nat.add_sub_cancel, hbuf, List.take_left]
  have hroom := hholds.room
  refine ⟨_, if_pos (by omega), groups, rest, hrecords, ⟨hholds.sent, htake, ?_, hholds.short⟩,
    hend⟩
  simp only [htake]
  omega

end Steps

/-! ### What was sent stays sent -/

section Sent

variable {level : Int} {ls ls' : LogStream}

theorem sent_prefix_flushLine (ls : LogStream) (ppos : Int) :
    ls.sent <+: (ls.flushLine ppos).sent := by
  unfold flushLine
  split
  · exact List.prefix_append _ _
  · exact List.prefix_refl _

theorem sent_prefix_store (level : Int) (ls : LogStream) (p : List Byte) :
    ls.sent <+: (ls.store level p).sent := by
  by_cases hlevel : level = kLineBuffer
  · simp only [LogStream.store, if_pos hlevel]
    exact sent_prefix_flushLine { ls with buf := ls.buf ++ p } _
  · simp only [LogStream.store, if_neg hlevel]
    exact List.prefix_refl _

theorem sent_prefix_begin (ls : LogStream) : ls.sent <+: ls.begin.sent := by
  by_cases hneed : ls.clock.needFlush
  · simp only [LogStream.begin, hneed, if_true]
    exact List.prefix_append _ _
  · simp only [LogStream.begin, hneed]
    exact List.prefix_refl _

theorem sent_prefix_append {p : List Byte} (h : ls.append level p = some ls') :
    ls.sent <+: ls'.sent := by
  unfold LogStream.append at h
  generalize 2 = calls at h
  induction calls generalizing ls with
  | zero => cases h
  | succ calls ih =>
      rw [appendFrom] at h
      split at h
      · split at h
        · exact Option.some.inj h ▸ sent_prefix_store level ls _
        · cases h
      · obtain ⟨mid, hslide, hrest⟩ := Option.bind_eq_some_iff.mp h
        unfold LogStream.slide at hslide
        split at hslide
        · cases hslide
          exact (List.prefix_append _ _).trans (ih hrest)
        · cases hslide

theorem sent_prefix_exec {action : Action} (h : action.exec level ls = some ls') :
    ls.sent <+: ls'.sent := by
  cases action with
  | begin =>
      cases h
      exact sent_prefix_begin ls
  | formatTime secs =>
      cases h
      unfold LogStream.formatTime
      split <;> exact List.prefix_refl _
  | put arg =>
      obtain ⟨p, -, happend⟩ := Option.bind_eq_some_iff.mp h
      exact sent_prefix_append happend
  | append p => exact sent_prefix_append h
  | backup =>
      have hbackup : ls.backup = some ls' := h
      unfold LogStream.backup at hbackup
      split at hbackup
      · cases hbackup
        exact List.prefix_refl _
      · cases hbackup
  | flush =>
      cases h
      exact List.prefix_append _ _

theorem sent_prefix_foldlM {actions : List Action}
    (h : actions.foldlM (Action.exec level) ls = some ls') : ls.sent <+: ls'.sent := by
  induction actions generalizing ls with
  | nil =>
      cases h
      exact List.prefix_refl _
  | cons action actions ih =>
      obtain ⟨mid, hexec, hrest⟩ := Transition.foldlM_cons_eq_some_iff.mp h
      exact (sent_prefix_exec hexec).trans (ih hrest)

end Sent

/-! ### Whole statements -/

section Statements

variable {ls : LogStream} {records : List (List Byte)}

theorem Between.makeLog (h : ls.Between records) {site : Site}
    (hshort : (Arg.texts site.header).flatten.length < kBufferSize) :
    ∃ ls', ls.makeLog kFullBuffer site = some ls' ∧
      ls'.Inside records (Arg.texts site.header).flatten :=
  (h.begin.formatTime kFullBuffer site.secs).puts site.exists_text_of_mem_header
    (by simpa using hshort)

theorem texts_append (args more : List Arg) :
    Arg.texts (args ++ more) = Arg.texts args ++ Arg.texts more := List.filterMap_append

theorem texts_header (site : Site) :
    (Arg.texts site.header).flatten =
      (Arg.texts site.header.dropLast).flatten ++ bytes " - " := by
  have hsplit : site.header = site.header.dropLast ++ [.cstr (bytes " - ")] := rfl
  have hdash : Arg.texts [.cstr (bytes " - ")] = [bytes " - "] := by decide
  conv_lhs => rw [hsplit, texts_append, hdash, List.flatten_append]
  simp

theorem Between.stream (h : ls.Between records) {site : Site}
    (hshort : (Arg.texts site.finalHeader).flatten.length < kBufferSize) :
    ∃ ls', ls.stream kFullBuffer site = some ls' ∧
      ls'.Inside records (Arg.texts site.finalHeader).flatten := by
  cases hfunc : site.func with
  | none =>
      have hfinal : site.finalHeader = site.header := by simp only [Site.finalHeader, hfunc]; rfl
      rw [hfinal] at hshort ⊢
      simp only [LogStream.stream, hfunc]
      exact h.makeLog hshort
  | some func =>
      have hfinal : (Arg.texts site.finalHeader).flatten =
          (Arg.texts site.header.dropLast).flatten ++
            (Arg.texts (Site.funcHeader func)).flatten := by
        simp only [Site.finalHeader, hfunc, texts_append, List.flatten_append]
      have hdash : (bytes " - ").length = 3 := by decide
      have htail : 3 ≤ (Arg.texts (Site.funcHeader func)).flatten.length := by
        simp [Site.funcHeader, Arg.texts, Arg.text, bytes]
      rw [hfinal] at hshort ⊢
      rw [List.length_append] at hshort
      have hmake : (Arg.texts site.header).flatten.length < kBufferSize := by
        rw [texts_header, List.length_append, hdash]
        omega
      obtain ⟨made, hmade, hinside⟩ := h.makeLog hmake
      rw [texts_header] at hinside
      obtain ⟨mid, hmid, hlead⟩ := hinside.backup hdash
      obtain ⟨ls', hls', hdone⟩ := hlead.puts (Site.exists_text_of_mem_funcHeader func) (by
        rw [List.length_append]
        exact hshort)
      refine ⟨ls', ?_, hdone⟩
      simp only [LogStream.stream, hfunc, makeLogFunc, hmade, hmid, Option.bind_eq_bind,
        Option.bind_some]
      exact hls'

theorem Between.log (h : ls.Between records) {statement : Statement}
    (hshort : statement.text.length < kBufferSize) :
    ∃ ls', ls.log kFullBuffer statement = some ls' ∧
      ls'.Between (records ++ [statement.text]) := by
  have hheader : (Arg.texts statement.site.finalHeader).flatten.length < kBufferSize := by
    unfold Statement.text at hshort
    rw [List.length_append] at hshort
    omega
  obtain ⟨mid, hmid, hinside⟩ := h.stream hheader
  obtain ⟨ls', hls', hdone⟩ := hinside.appends hshort
  refine ⟨ls', ?_, hdone.between⟩
  simp only [LogStream.log, hmid, Option.bind_eq_bind, Option.bind_some]
  exact hls'

theorem Holds.sent_destroy {groups : List (List (List Byte))} {rest : List (List Byte)}
    (h : ls.Holds groups rest []) : ls.destroy.sent = (groups ++ [rest]).map whole := by
  have hmarked : Holds { ls with endPos := ls.buf.length } groups rest [] :=
    ⟨h.sent, h.buf, h.room, h.short⟩
  refine hmarked.sent_flush ?_
  simp only [h.buf, List.append_nil]

end Statements

theorem msgs_whole (groups : List (List (List Byte))) :
    ((groups.map whole).map Output.msg).flatten = groups.flatten.flatten := by
  have hmsg : Output.msg ∘ whole = List.flatten := rfl
  rw [List.map_map, hmsg, List.flatten_flatten]

/-- **A full-buffer stream sends whole records and loses none.** After any statements every call of
`g_output` has taken a concatenation of whole records, these and the text left in the buffer are all
the records in order, and the destructor sends that text. -/
theorem whole_records_of_log (clock : Clock) (statements : List Statement)
    (hshort : ∀ statement ∈ statements, statement.text.length < kBufferSize) :
    ∃ ls, statements.foldlM (log kFullBuffer) (new clock) = some ls ∧
      (∃ groups rest, groups.flatten ++ rest = statements.map Statement.text ∧
        ls.sent = groups.map whole ∧ ls.buf = rest.flatten ∧
        ls.destroy.sent = (groups ++ [rest]).map whole) ∧
      (ls.sent.map Output.msg).flatten ++ ls.buf = (statements.map Statement.text).flatten ∧
      (ls.destroy.sent.map Output.msg).flatten = (statements.map Statement.text).flatten := by
  let Inv (before : List Statement) (ls : LogStream) : Prop :=
    ls.Between (before.map Statement.text)
  have hinit : Inv [] (new clock) := between_new clock
  have hstep : ∀ before statement after ls, statements = before ++ statement :: after →
      Inv before ls → ∃ ls', ls.log kFullBuffer statement = some ls' ∧
        Inv (before ++ [statement]) ls' := by
    intro before statement after ls hcalls hls
    simp only [Inv, List.map_append, List.map_singleton]
    exact Between.log hls (hshort statement (by simp [hcalls]))
  obtain ⟨ls, hrun, groups, rest, hrecords, hholds⟩ := Transition.foldlM_invariant hinit hstep
  have hbuf : ls.buf = rest.flatten := by rw [hholds.buf, List.append_nil]
  refine ⟨ls, hrun, ⟨groups, rest, hrecords, hholds.sent, hbuf, hholds.sent_destroy⟩, ?_, ?_⟩
  · rw [hholds.sent, msgs_whole, hbuf, ← hrecords, List.flatten_append]
  · rw [hholds.sent_destroy, msgs_whole, ← hrecords, List.flatten_append, List.flatten_singleton,
      List.flatten_append]

/-- The clock moves on between the first two records, and the third finds `t_needFlush` set. -/
def secondChange : List Statement :=
  let site : Site := ⟨bytes "a.cc", 7, .WARN, none, 1, bytes "10:00:00", 42⟩
  [⟨site, [bytes "text", bytes "\n"]⟩,
    ⟨{ site with func := some (bytes "main"), secs := 2 }, [bytes "\n"]⟩,
    ⟨{ site with secs := 2 }, [bytes "text"]⟩]

theorem whole_records_of_log_second_change :
    ∃ ls, secondChange.foldlM (log kFullBuffer) (new ⟨false, 0⟩) = some ls ∧
      (ls.sent.map Output.msg).flatten ++ ls.buf = (secondChange.map Statement.text).flatten := by
  obtain ⟨ls, hrun, -, hsent, -⟩ := whole_records_of_log ⟨false, 0⟩ secondChange (by decide)
  exact ⟨ls, hrun, hsent⟩

end LogStream

end CppUtils
