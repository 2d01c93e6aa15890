import CppUtils.Deserializer
import CppUtils.Lib.Transition
import Mathlib.Data.List.Infix

/-!
# The cursor of the deserializer

`_readed` counts modulo `2 ^ 32` what a buffer of any length is read by. As long as no read starts
behind the first 4 GiB, what the reads return is what the bytes of the buffer are, in order. A
`reset` that is given bytes forgets everything.
-/

namespace CppUtils.Deserializer

/-- A deserializer with what was done to it since it was last given bytes. -/
structure Session where
  de : Deserializer
  /-- What it was given. -/
  source : List Byte
  /-- What the reads have returned since. -/
  got : List Byte
  /-- No read of a byte started behind the first 4 GiB. -/
  fits : Bool

inductive Call where
  | reset
  | resetWith (bytearray : List Byte)
  | read (len : Nat)

/-- The assert of `read`. -/
def Asserts (s : Deserializer) (len : Nat) : Prop := (len + s.readed) % 2 ^ 64 ≤ s.len

namespace Session

/-- After the construction on a byte string. -/
def IsNew (t : Session) : Prop :=
  Deserializer.new t.source = some t.de ∧ t.source.length < 2 ^ 64 ∧ t.got = [] ∧ t.fits = true

/-- Calls whose asserts pass. Without a buffer there is no byte to read, and `memmove` moves none. -/
inductive Step : Session → Call → Session → Prop
  | reset {t : Session} : Step t .reset { t with de := t.de.reset }
  | resetWith {t : Session} {bytearray : List Byte} (hne : bytearray ≠ [])
      (hlen : bytearray.length < 2 ^ 64) :
      Step t (.resetWith bytearray) ⟨t.de.resetWith bytearray, bytearray, [], true⟩
  | read {t : Session} {len : Nat} {out : List Byte} {de : Deserializer}
      (hread : t.de.read len = some (out, de)) :
      Step t (.read len) { t with
        de
        got := t.got ++ out
        fits := t.fits && decide (len = 0 ∨ t.got.length < 2 ^ 32) }
  | readNull {t : Session} (hnull : t.de.buf = none) : Step t (.read 0) t

structure Inv (t : Session) : Prop where
  source : t.source.length < 2 ^ 64
  null : t.de.buf = none → t.de.len = 0 ∧ t.de.readed = 0
  buf : ∀ bytes ∈ t.de.buf, bytes = t.source ∧ t.de.len = bytes.length
  readed : t.fits = true → t.de.buf ≠ none → t.de.readed = u32 t.got.length
  got : t.fits = true → t.got <+: t.source

theorem new_eq {bytearray : List Byte} (hne : bytearray ≠ []) :
    Deserializer.new bytearray = some ⟨some bytearray, bytearray.length, 0⟩ :=
  if_pos (List.length_pos_of_ne_nil hne)

theorem inv_fresh {bytearray : List Byte} (hlen : bytearray.length < 2 ^ 64) :
    Inv ⟨⟨some bytearray, bytearray.length, 0⟩, bytearray, [], true⟩ where
  source := hlen
  null := nofun
  buf bytes hbytes := by
    obtain rfl := Option.some.inj hbytes
    exact ⟨rfl, rfl⟩
  readed _ _ := rfl
  got _ := List.nil_prefix

theorem IsNew.inv {t : Session} (h : t.IsNew) : t.Inv := by
  obtain ⟨de, source, got, fits⟩ := t
  obtain ⟨hnew, hlen, rfl, rfl⟩ := h
  have hne : source ≠ [] := by
    rintro rfl
    cases hnew
  obtain rfl := Option.some.inj ((new_eq hne).symm.trans hnew)
  exact inv_fresh hlen

/-- `reset` leaves `_readed` alone without a buffer, but it is 0 then. -/
theorem Inv.reset_eq {t : Session} (h : t.Inv) : t.de.reset = ⟨none, 0, 0⟩ := by
  have hnull := h.null
  obtain ⟨⟨buf, len, readed⟩, source, got, fits⟩ := t
  cases buf with
  | none =>
      obtain ⟨rfl, rfl⟩ := hnull rfl
      rfl
  | some bytes => rfl

/-- Whatever was done before, the object is as if it was just built. -/
theorem Inv.resetWith_eq {t : Session} (h : t.Inv) (bytearray : List Byte) :
    t.de.resetWith bytearray = ⟨some bytearray, bytearray.length, 0⟩ := by
  rw [Deserializer.resetWith, h.reset_eq]

theorem Inv.reset {t : Session} (h : t.Inv) : Inv { t with de := t.de.reset } := by
  rw [h.reset_eq]
  exact ⟨h.source, fun _ => ⟨rfl, rfl⟩, nofun, fun _ hne => absurd rfl hne, h.got⟩

theorem read_eq {bytes : List Byte} {readed len : Nat} (hroom : readed + len ≤ bytes.length)
    (hlt : readed + len < 2 ^ 64) :
    Deserializer.read ⟨some bytes, bytes.length, readed⟩ len =
      some ((bytes.drop readed).take len, ⟨some bytes, bytes.length, u32 (readed + len)⟩) := by
  have hasserts : (len + readed) % 2 ^ 64 ≤ bytes.length := by
    rw [Nat.mod_eq_of_lt (by omega)]
    omega
  rw [Deserializer.read, if_pos hasserts]
  exact if_pos hroom

theorem read_cases {s s' : Deserializer} {len : Nat} {out : List Byte}
    (hread : s.read len = some (out, s')) :
    ∃ bytes, s.buf = some bytes ∧ s.readed + len ≤ bytes.length ∧
      out = (bytes.drop s.readed).take len ∧ s' = { s with readed := u32 (s.readed + len) } := by
  unfold Deserializer.read at hread
  split at hread
  · split at hread
    · split at hread
      · cases hread
        exact ⟨_, ‹_›, ‹_›, rfl, rfl⟩
      · cases hread
    · cases hread
  · cases hread

/-- A read that starts inside the first 4 GiB starts where the last one ended. -/
theorem Inv.read {t : Session} (h : t.Inv) {len : Nat} {out : List Byte} {de : Deserializer}
    (hread : t.de.read len = some (out, de)) :
    Inv { t with
      de
      got := t.got ++ out
      fits := t.fits && decide (len = 0 ∨ t.got.length < 2 ^ 32) } := by
  obtain ⟨bytes, hbuf, hroom, rfl, rfl⟩ := read_cases hread
  obtain ⟨rfl, hlen⟩ := h.buf bytes hbuf
  have hsome : t.de.buf ≠ none := by
    rw [hbuf]
    exact Option.some_ne_none _
  have hout : ((t.source.drop t.de.readed).take len).length = len := by
    rw [List.length_take, List.length_drop]
    omega
  refine ⟨h.source, fun hnull => absurd hnull hsome, h.buf, fun hfits _ => ?_, fun hfits => ?_⟩
  · rw [Bool.and_eq_true] at hfits
    have hreaded := h.readed hfits.1 hsome
    change u32 (t.de.readed + len) = u32 (t.got ++ _).length
    rw [List.length_append, hout, hreaded]
    exact Nat.mod_add_mod _ _ _
  · rw [Bool.and_eq_true, decide_eq_true_eq] at hfits
    change t.got ++ _ <+: t.source
    rcases hfits.2 with rfl | hlt
    · rw [List.take_zero, List.append_nil]
      exact h.got hfits.1
    · have hreaded : t.de.readed = t.got.length := by
        rw [h.readed hfits.1 hsome]
        exact u32_of_lt hlt
      have htake : t.got = t.source.take t.got.length := List.prefix_iff_eq_take.mp (h.got hfits.1)
      have hjoin : t.got ++ (t.source.drop t.de.readed).take len =
          t.source.take (t.got.length + len) := by
        rw [List.take_add, ← htake, hreaded]
      rw [hjoin]
      exact List.take_prefix _ _

theorem Inv.step {t t' : Session} {call : Call} (h : t.Inv) (hstep : Step t call t') : t'.Inv := by
  cases hstep with
  | reset => exact h.reset
  | resetWith _ hlen =>
      rw [h.resetWith_eq]
      exact inv_fresh hlen
  | read hread => exact h.read hread
  | readNull => exact h

theorem inv_of_reachable {t : Session} (ht : Transition.Reachable IsNew Step t) : t.Inv :=
  ht.invariant (fun _ => IsNew.inv) fun _ _ _ h hstep => h.step hstep

/-- The assert keeps a read inside the buffer, unless its sum wraps around. -/
def Protects (t : Session) : Prop :=
  ∀ len, t.de.buf ≠ none → t.de.Asserts len → len + t.de.readed < 2 ^ 64 →
    ∃ out de, t.de.read len = some (out, de)

theorem Inv.protects {t : Session} (h : t.Inv) : t.Protects := by
  intro len hsome hasserts hlt
  obtain ⟨⟨buf, n, readed⟩, source, got, fits⟩ := t
  obtain ⟨bytes, rfl⟩ := Option.ne_none_iff_exists'.mp hsome
  obtain ⟨-, rfl⟩ := h.buf bytes rfl
  change len + readed < 2 ^ 64 at hlt
  have hle : len + readed ≤ bytes.length := by
    rw [← Nat.mod_eq_of_lt hlt]
    exact hasserts
  exact ⟨_, _, read_eq (by omega) (by omega)⟩

/-- **The cursor of the deserializer.** After every run, giving it bytes makes the object the one that
is built on them, and a read whose assert passes is inside the buffer unless the sum of the assert
wraps around. If no read of a byte started behind the first 4 GiB, what the reads have returned is a
prefix of what the deserializer was given. -/
theorem cursor_of_run {t : Session} (ht : Transition.Reachable IsNew Step t) :
    (∀ bytearray, bytearray ≠ [] →
      Deserializer.new bytearray = some (t.de.resetWith bytearray)) ∧
    t.Protects ∧ (t.fits = true → t.got <+: t.source) := by
  have h := inv_of_reachable ht
  refine ⟨fun bytearray hne => ?_, h.protects, h.got⟩
  rw [h.resetWith_eq bytearray, new_eq hne]

theorem cursor_after_two_reads :
    ∃ t : Session, t.got = [1, 2, 3] ∧ t.got <+: t.source ∧
      Deserializer.new [7] = some (t.de.resetWith [7]) := by
  have hnew : IsNew ⟨⟨some [1, 2, 3, 4], 4, 0⟩, [1, 2, 3, 4], [], true⟩ :=
    ⟨rfl, by decide, rfl, rfl⟩
  have hrun : Transition.Run Step ⟨⟨some [1, 2, 3, 4], 4, 0⟩, [1, 2, 3, 4], [], true⟩
      [.read 2, .read 1] ⟨⟨some [1, 2, 3, 4], 4, 3⟩, [1, 2, 3, 4], [1, 2, 3], true⟩ :=
    .cons (.read (read_eq (by decide) (by decide))) <|
      .cons (.read (read_eq (by decide) (by decide))) (.nil _)
  obtain ⟨hreset, -, hfront⟩ := cursor_of_run ⟨_, _, hnew, hrun⟩
  exact ⟨_, rfl, hfront rfl, hreset [7] (by decide)⟩

/-- After exactly 4 GiB `_readed` is 0 again, and the next read starts at the front. -/
theorem exists_wrapped {front : List Byte} {first : Byte} (last : Byte)
    (hlength : (first :: front).length = 2 ^ 32) :
    ∃ t, Transition.Reachable IsNew Step t ∧ t.source = first :: front ++ [last] ∧
      t.got = first :: front ++ [first] := by
  obtain ⟨bytes, hbytes⟩ : ∃ bytes, bytes = first :: front ++ [last] := ⟨_, rfl⟩
  have hsource : bytes.length = 2 ^ 32 + 1 := by
    rw [hbytes, List.length_append, hlength, List.length_singleton]
  have hne : bytes ≠ [] := List.ne_nil_of_length_pos (by omega)
  have hlt : bytes.length < 2 ^ 64 := by omega
  have hnew : IsNew ⟨⟨some bytes, bytes.length, 0⟩, bytes, [], true⟩ :=
    ⟨new_eq hne, hlt, rfl, rfl⟩
  have hfirst : Deserializer.read ⟨some bytes, bytes.length, 0⟩ (2 ^ 32) =
      some (first :: front, ⟨some bytes, bytes.length, 0⟩) := by
    have hwrap : u32 (0 + 2 ^ 32) = 0 := by decide
    have htake : bytes.take (2 ^ 32) = first :: front := by
      rw [hbytes, List.take_left' hlength]
    rw [read_eq (by omega) (by omega), hwrap, List.drop_zero, htake]
  have hsecond : Deserializer.read ⟨some bytes, bytes.length, 0⟩ 1 =
      some ([first], ⟨some bytes, bytes.length, 1⟩) := by
    have htake : bytes.take 1 = [first] := by
      rw [hbytes]
      rfl
    have hone : u32 (0 + 1) = 1 := by decide
    rw [read_eq (by omega) (by omega), hone, List.drop_zero, htake]
  exact ⟨_, ⟨_, _, hnew, .cons (.read hfirst) (.cons (.read hsecond) (.nil _))⟩, hbytes, rfl⟩

theorem not_prefix : ¬ ∀ t, Transition.Reachable IsNew Step t → t.got <+: t.source := by
  intro hprefix
  have hlength : ((0 : Byte) :: List.replicate (2 ^ 32 - 1) 0).length = 2 ^ 32 := by
    rw [List.length_cons, List.length_replicate]
    rfl
  obtain ⟨t, ht, hsource, hgot⟩ := exists_wrapped 1 hlength
  have hfront := hprefix t ht
  rw [hsource, hgot, List.prefix_append_right_inj] at hfront
  exact absurd hfront (by decide)

end Session

end CppUtils.Deserializer
