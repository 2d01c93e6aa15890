import CppUtils.Proof.LogStreamPointers

/-!
# Whether `append` comes back

The overflow branch of `append` sends `_buf .. _end`, slides the record under construction to the
front and calls itself again. What one slide leaves is that record, and a further slide changes
nothing, so the room a retry finds is settled by the length of the record alone.
-/

namespace CppUtils.LogStream

/-- `_cur - _end`, the part of the text that no slide removes. -/
def pending (ls : LogStream) : Int := ls.buf.length - ls.endPos

/-- The calls of `append` reach the first branch in none of the retries. -/
def RetriesForever (ls : LogStream) (p : List Byte) : Prop :=
  ∀ n, ∃ ls', slides n ls = some ls' ∧ ¬ ls'.avail > toInt p.length

variable {ls ls' : LogStream} {p : List Byte}

theorem PointerInv.slide_eq (h : ls.PointerInv) :
    ls.slide = some { ls.flush with buf := ls.buf.drop ls.endPos.toNat, endPos := 0 } := by
  rw [LogStream.slide, if_pos ⟨h.start, h.order⟩]

theorem PointerInv.exists_slide (h : ls.PointerInv) :
    ∃ ls', ls.slide = some ls' ∧ ls'.PointerInv ∧ ls'.endPos = 0 ∧ ls'.pending = ls.pending := by
  have hstart := h.start
  have horder := h.order
  have hroom := h.room
  refine ⟨_, h.slide_eq, ⟨Int.le_refl 0, Int.natCast_nonneg _, ?_⟩, rfl, ?_⟩
  · change (ls.buf.drop ls.endPos.toNat).length ≤ kBufferSize
    rw [List.length_drop]
    omega
  · change ((ls.buf.drop ls.endPos.toNat).length : Int) - 0 = ls.buf.length - ls.endPos
    rw [List.length_drop]
    omega

/-- The record under construction is the same after any number of slides. -/
theorem PointerInv.exists_slides (h : ls.PointerInv) (n : Nat) :
    ∃ ls', LogStream.slides n ls = some ls' ∧ ls'.PointerInv ∧ ls'.pending = ls.pending := by
  induction n generalizing ls with
  | zero => exact ⟨ls, rfl, h, rfl⟩
  | succ n ih =>
      obtain ⟨mid, hslide, hmid, -, hpending⟩ := h.exists_slide
      obtain ⟨ls', hslides, hinv, hrest⟩ := ih hmid
      refine ⟨ls', ?_, hinv, hrest.trans hpending⟩
      rw [LogStream.slides, hslide, Option.bind_some, hslides]

theorem PointerInv.avail_le (h : ls.PointerInv) : ls.avail ≤ kBufferSize - ls.pending := by
  have hstart := h.start
  unfold avail pending
  omega

theorem appendFrom_of_avail (level : Int) (hroom : ls.avail > toInt p.length)
    (hlen : 0 ≤ toInt p.length) (calls : Nat) :
    ls.appendFrom level p (calls + 1) = some (ls.store level (copied p)) := by
  rw [appendFrom, if_pos hroom, if_pos hlen]
  rfl

/-- A record under construction that leaves room for the text is at most one slide away from it. -/
theorem PointerInv.append_of_pending (h : ls.PointerInv) (level : Int) (hlen : 0 ≤ toInt p.length)
    (hfits : ls.pending + toInt p.length < kBufferSize) :
    ∃ ls', ls.appendFrom level p 2 = some ls' := by
  by_cases hroom : ls.avail > toInt p.length
  · exact ⟨_, appendFrom_of_avail level hroom hlen 1⟩
  · obtain ⟨mid, hslide, -, hend, hpending⟩ := h.exists_slide
    have hmid : mid.avail > toInt p.length := by
      have havail : mid.avail = kBufferSize - mid.pending := by
        unfold avail pending
        omega
      omega
    refine ⟨mid.store level (copied p), ?_⟩
    rw [appendFrom, if_neg hroom, hslide, Option.bind_some]
    exact appendFrom_of_avail level hmid hlen 0

theorem PointerInv.retriesForever (h : ls.PointerInv)
    (hfull : ¬ ls.pending + toInt p.length < kBufferSize) : ls.RetriesForever p := by
  intro n
  obtain ⟨ls', hslides, hinv, hpending⟩ := h.exists_slides n
  refine ⟨ls', hslides, ?_⟩
  have havail := hinv.avail_le
  omega

theorem RetriesForever.appendFrom_eq_none (h : ls.RetriesForever p) (level : Int) (calls : Nat) :
    ls.appendFrom level p calls = none := by
  induction calls generalizing ls with
  | zero => rfl
  | succ calls ih =>
      obtain ⟨_, hzero, hfull⟩ := h 0
      cases hzero
      obtain ⟨_, hone, -⟩ := h 1
      obtain ⟨mid, hslide, -⟩ := Option.bind_eq_some_iff.mp hone
      have hmid : mid.RetriesForever p := by
        intro n
        obtain ⟨ls', hslides, hfull'⟩ := h (n + 1)
        rw [slides, hslide, Option.bind_some] at hslides
        exact ⟨ls', hslides, hfull'⟩
      rw [appendFrom, if_neg hfull, hslide, Option.bind_some]
      exact ih hmid

/-- **Whether `append` comes back.** From pointers in order `append(p, len)` returns after finitely
many calls exactly if the record under construction and the `len` bytes together are less than the
buffer; otherwise every retry makes another. -/
theorem append_returns_iff (level : Int) (h : ls.PointerInv) (hlen : 0 ≤ toInt p.length) :
    ((∃ calls ls', ls.appendFrom level p calls = some ls') ↔
      ls.pending + toInt p.length < kBufferSize) ∧
    (ls.RetriesForever p ↔ ¬ ls.pending + toInt p.length < kBufferSize) := by
  have hstuck : ls.RetriesForever p → ¬ ∃ calls ls', ls.appendFrom level p calls = some ls' := by
    rintro hforever ⟨calls, ls', hreturns⟩
    rw [hforever.appendFrom_eq_none level calls] at hreturns
    cases hreturns
  have hfits : ls.pending + toInt p.length < kBufferSize →
      ∃ calls ls', ls.appendFrom level p calls = some ls' :=
    fun hfits => ⟨2, h.append_of_pending level hlen hfits⟩
  refine ⟨⟨fun hreturns => ?_, hfits⟩, fun hforever hroom => ?_, h.retriesForever⟩
  · by_contra hfull
    exact hstuck (h.retriesForever hfull) hreturns
  · exact hstuck hforever (hfits hroom)

/-- A buffer full of whole records takes a short text after one slide. -/
theorem append_returns_iff_full :
    let ls : LogStream := { new ⟨false, 1⟩ with
      buf := List.replicate kBufferSize 0x61, endPos := kBufferSize }
    (∃ calls ls', ls.appendFrom kFullBuffer (bytes "ab") calls = some ls') ∧
      ¬ ls.RetriesForever (bytes "ab") := by
  intro ls
  have hlength : ls.buf.length = kBufferSize := List.length_replicate
  have hinv : ls.PointerInv :=
    ⟨Int.natCast_nonneg _, Int.ofNat_le.mpr (Nat.le_of_eq hlength.symm), Nat.le_of_eq hlength⟩
  have hlen : toInt (bytes "ab").length = 2 := by decide +kernel
  have hfits : ls.pending + toInt (bytes "ab").length < kBufferSize := by
    unfold pending
    rw [hlength, hlen]
    decide
  obtain ⟨hreturns, hforever⟩ :=
    append_returns_iff kFullBuffer hinv (p := bytes "ab") (by rw [hlen]; decide)
  exact ⟨hreturns.mpr hfits, fun h => hforever.mp h hfits⟩

/-- A string as long as the buffer, the first thing a stream is given, is retried forever. -/
theorem not_append_returns :
    ¬ ∀ (level : Int) (ls : LogStream) (p : List Byte), ls.PointerInv → 0 ≤ toInt p.length →
      ∃ calls ls', ls.appendFrom level p calls = some ls' := by
  intro hcomesBack
  have hlen : toInt (List.replicate kBufferSize (0x61 : Byte)).length = kBufferSize := by
    rw [List.length_replicate]
    decide
  have hinv : (new ⟨false, 0⟩).PointerInv := ⟨Int.le_refl 0, Int.le_refl 0, Nat.zero_le _⟩
  obtain ⟨calls, ls', hreturns⟩ := hcomesBack kFullBuffer (new ⟨false, 0⟩)
    (List.replicate kBufferSize 0x61) hinv (by rw [hlen]; decide)
  have hfull :
      ¬ (new ⟨false, 0⟩).avail > toInt (List.replicate kBufferSize (0x61 : Byte)).length := by
    rw [hlen]
    decide
  rw [appendFrom_eq_none rfl hfull] at hreturns
  cases hreturns

end CppUtils.LogStream
