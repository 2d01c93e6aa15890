import CppUtils.Codec
import CppUtils.Lib.Base128
import CppUtils.Lib.Transition

/-!
# What the varint readers make of any input

The loop of `XX(n)` stops at a byte with the high bit clear or after `(n + 6) / 7` bytes, whichever
comes first, and what it returns is the number it has read modulo `2 ^ n`. So it goes wrong in one
place only: at the last byte it may read, if that byte says that another one follows or holds bits
that do not fit.
-/

namespace CppUtils

open Base128

/-- Reading byte by byte from `s` gives these bytes. -/
def Deserializer.Consumes (s : Deserializer) (bytes : List Byte) (t : Deserializer) : Prop :=
  Transition.Run (fun s b t => s.readByte = some (b, t)) s bytes t

namespace Deserializer

variable {s t t' : Deserializer} {bytes bytes' : List Byte} {n : Nat} {out : List Byte}

theorem Consumes.exists_append (h : s.Consumes bytes t) (h' : s.Consumes bytes' t')
    (hle : bytes.length ≤ bytes'.length) : ∃ rest, bytes' = bytes ++ rest ∧ t.Consumes rest t' := by
  refine Transition.Run.exists_append (fun s b b' m m' hb hb' => ?_) h h' hle
  exact Prod.mk.inj (Option.some.inj (hb.symm.trans hb'))

theorem length_of_read (h : s.read n = some (out, t)) : out.length = n := by
  unfold read at h
  split at h
  · split at h
    · split at h
      · cases h
        rw [List.length_take, List.length_drop]
        omega
      · cases h
    · cases h
  · cases h

end Deserializer

section Loop

variable {w n : Nat} {s t : Deserializer} {ret v : BitVec w}

/-- The loop from any shift on: it stops at the end of a number or when its rounds are used up. -/
theorem readVarintFrom_spec {room i : Nat} (hret : ret.toNat < 2 ^ i)
    (hread : readVarintFrom (List.range' i room 7) ret s = some (v, t)) :
    ∃ bytes, s.Consumes bytes t ∧ bytes.length ≤ room ∧
      v.toNat = (ret.toNat + 2 ^ i * value bytes) % 2 ^ w ∧
      (Complete bytes ∨ bytes.length = room ∧ ∀ b ∈ bytes, 0x80 ≤ b.toNat) := by
  induction room generalizing i ret s with
  | zero =>
      cases hread
      refine ⟨[], .nil t, le_rfl, ?_, .inr ⟨rfl, by simp⟩⟩
      rw [value_nil, Nat.mul_zero, Nat.add_zero, Nat.mod_eq_of_lt v.isLt]
  | succ room ih =>
      rw [List.range'_succ, readVarintFrom] at hread
      split at hread
      case h_1 => cases hread
      case h_2 b m hbyte =>
        split at hread
        case isTrue hlast =>
          cases hread
          refine ⟨[b], .cons hbyte (.nil t), Nat.succ_le_succ (Nat.zero_le room), ?_,
            .inl (complete_singleton hlast)⟩
          rw [toNat_or_shiftLeft hret, value_cons, value_nil, digit_of_lt hlast, Nat.mul_zero,
            Nat.add_zero]
        case isFalse hmore =>
          have hmore : 0x80 ≤ b.toNat := Nat.le_of_not_lt hmore
          have hpow : (2 : Nat) ^ (i + 7) = 2 ^ i * 128 := pow_add 2 i 7
          have hacc := toNat_or_shiftLeft hret (b &&& 0x7f#8)
          have hlt : (ret ||| (b &&& 0x7f#8).setWidth w <<< i).toNat < 2 ^ (i + 7) := by
            have hdigit : digit b < 128 := digit_lt b
            rw [hacc, hpow]
            refine (Nat.mod_le _ _).trans_lt ?_
            calc
              ret.toNat + 2 ^ i * digit b < 2 ^ i + 2 ^ i * digit b := Nat.add_lt_add_right hret _
              _ = 2 ^ i * (digit b + 1) := by ring
              _ ≤ 2 ^ i * 128 := Nat.mul_le_mul_left _ hdigit
          obtain ⟨bytes, hbytes, hlength, hvalue, hend⟩ := ih hlt hread
          refine ⟨b :: bytes, .cons hbyte hbytes, Nat.succ_le_succ hlength, ?_, ?_⟩
          · rw [hvalue, hacc, Nat.mod_add_mod, value_cons, hpow]
            congr 1
            rw [digit]
            ring
          · refine hend.imp (fun h => h.cons hmore) fun h => ⟨by simpa using h.1, ?_⟩
            exact List.forall_mem_cons.mpr ⟨hmore, h.2⟩

/-- Once all but the last of its bytes have been read, the loop returns. -/
theorem exists_readVarintFrom {init : List Byte} {last : Byte} (i : Nat)
    (hinit : ∀ b ∈ init, 0x80 ≤ b.toNat) (h : s.Consumes (init ++ [last]) t) :
    ∃ v : BitVec w, readVarintFrom (List.range' i (init.length + 1) 7) ret s = some (v, t) := by
  induction init generalizing i ret s with
  | nil =>
      cases h with
      | cons hbyte hrest =>
          cases hrest
          rw [List.length_nil, List.range'_succ, readVarintFrom, hbyte]
          simp only
          split
          · exact ⟨_, rfl⟩
          · exact ⟨_, rfl⟩
  | cons b init ih =>
      cases h with
      | cons hbyte hrest =>
          obtain ⟨hb, hinit⟩ := List.forall_mem_cons.mp hinit
          rw [List.length_cons, List.range'_succ, readVarintFrom, hbyte]
          simp only
          rw [if_neg (Nat.not_lt.mpr hb)]
          exact ih (i + 7) hinit hrest

end Loop

/-! ### The readers -/

section Readers

variable {n : Nat} {s : Deserializer}

/-- What `read` returns is the number that the bytes it has read stand for. -/
def ReadsNumeral (read : Deserializer → Option (BitVec n × Deserializer)) (s : Deserializer) :
    Prop :=
  ∀ v t, read s = some (v, t) → ∃ bytes, bytes.length ≤ (n + 6) / 7 ∧ s.Consumes bytes t ∧
    Complete bytes ∧ v.toNat = value bytes ∧ value bytes < 2 ^ n

/-- If as many bytes are there as an `n`-bit number can take and all but the last say that another
one follows, then the last has only the bits that are left. -/
def LastFits (n : Nat) (s : Deserializer) : Prop :=
  ∀ init last t, s.Consumes (init ++ [last]) t → init.length + 1 = (n + 6) / 7 →
    (∀ b ∈ init, 0x80 ≤ b.toNat) → last.toNat < 2 ^ (n - 7 * init.length)

theorem readsNumeral_of_lastFits (hn : 0 < n) (h : LastFits n s) :
    ReadsNumeral (readVarint n) s := by
  intro v t hread
  obtain ⟨bytes, hbytes, hlength, hvalue, hend⟩ :=
    readVarintFrom_spec (i := 0) (by rw [BitVec.toNat_ofNat]; simp) hread
  have hsum : v.toNat = value bytes % 2 ^ n := by simpa using hvalue
  rcases hend with ⟨init, last, rfl, hinit, hlast⟩ | ⟨hfull, hall⟩
  · rw [List.length_append, List.length_singleton] at hlength
    have hlt : value (init ++ [last]) < 2 ^ n := by
      rw [value_concat_lt_iff (by omega)]
      by_cases hfull : init.length + 1 = (n + 6) / 7
      · rw [digit_of_lt hlast]
        exact h init last t hbytes hfull hinit
      · calc
          digit last < 2 ^ 7 := digit_lt last
          _ ≤ 2 ^ (n - 7 * init.length) := Nat.pow_le_pow_right (by decide) (by omega)
    refine ⟨init ++ [last], ?_, hbytes, ⟨init, last, rfl, hinit, hlast⟩, ?_, hlt⟩
    · rwa [List.length_append, List.length_singleton]
    · rw [hsum, Nat.mod_eq_of_lt hlt]
  · -- all bytes were read and the last one says that another follows
    have hne : bytes ≠ [] := by
      rintro rfl
      simp at hfull
      omega
    obtain ⟨init, last, rfl⟩ := (List.eq_nil_or_concat' bytes).resolve_left hne
    rw [List.length_append, List.length_singleton] at hfull
    have hlast := h init last t hbytes hfull fun b hb => hall b (List.mem_append_left _ hb)
    have hcontinued := hall last (by simp)
    have hbits : (2 : Nat) ^ (n - 7 * init.length) ≤ 2 ^ 7 :=
      Nat.pow_le_pow_right (by decide) (by omega)
    omega

theorem lastFits_of_readsNumeral (h : ReadsNumeral (readVarint n) s) : LastFits n s := by
  intro init last t hbytes hfull hinit
  obtain ⟨v, hread⟩ : ∃ v : BitVec n,
      readVarintFrom (List.range' 0 (init.length + 1) 7) 0#n s = some (v, t) :=
    exists_readVarintFrom 0 hinit hbytes
  rw [hfull] at hread
  obtain ⟨bytes', hlength', hbytes', ⟨init', last', rfl, -, hlast'⟩, -, hlt⟩ := h v t hread
  obtain ⟨rest, hrest, -⟩ := hbytes'.exists_append hbytes (by
    simp only [List.length_append, List.length_singleton] at hlength' ⊢
    omega)
  rcases List.eq_nil_or_concat' rest with rfl | ⟨more, last'', rfl⟩
  · rw [List.append_nil] at hrest
    obtain ⟨rfl, heq⟩ := List.append_inj' hrest rfl
    obtain rfl := List.singleton_inj.mp heq
    rw [value_concat_lt_iff (by omega), digit_of_lt hlast'] at hlt
    exact hlt
  · -- the reader would have stopped at a byte that continues
    rw [← List.append_assoc] at hrest
    obtain ⟨rfl, -⟩ := List.append_inj' hrest rfl
    have hmem : last' ∈ init' ++ [last'] ++ more := by simp
    exact absurd (hinit last' hmem) (Nat.not_le.mpr hlast')

theorem readsNumeral_iff (hn : 0 < n) (s : Deserializer) :
    ReadsNumeral (readVarint n) s ↔ LastFits n s :=
  ⟨lastFits_of_readsNumeral, readsNumeral_of_lastFits hn⟩

/-- The string that `readString` returns is as long as the number in front of it says. -/
def ReadsLength (s : Deserializer) : Prop :=
  ∀ str t, readString s = some (str, t) → ∃ bytes m, bytes.length ≤ 5 ∧ s.Consumes bytes m ∧
    Complete bytes ∧ str.length = value bytes

theorem ReadsNumeral.readsLength (h : ReadsNumeral readVarUint32 s) : ReadsLength s := by
  intro str t hread
  unfold readString at hread
  split at hread
  case h_1 => cases hread
  case h_2 len m hlen =>
    obtain ⟨bytes, hlength, hbytes, hcomplete, hvalue, -⟩ := h len m hlen
    refine ⟨bytes, m, hlength, hbytes, hcomplete, ?_⟩
    split at hread
    case isTrue hzero =>
      cases hread
      rw [← hvalue, hzero]
      rfl
    case isFalse => rw [Deserializer.length_of_read hread, hvalue]

/-- **Varint input.** A reader returns the number that the bytes it has consumed stand for, whatever
the buffer and the position, exactly if the last byte that the loop may read does not go wrong. -/
theorem readVarUint_iff (s : Deserializer) :
    (ReadsNumeral readVarUint16 s ↔ LastFits 16 s) ∧
    (ReadsNumeral readVarUint32 s ∧ ReadsLength s ↔ LastFits 32 s) ∧
    (ReadsNumeral readVarUint64 s ↔ LastFits 64 s) := by
  refine ⟨readsNumeral_iff (by decide) s, ⟨fun h => ?_, fun h => ?_⟩,
    readsNumeral_iff (by decide) s⟩
  · exact lastFits_of_readsNumeral h.1
  · have hread : ReadsNumeral readVarUint32 s := readsNumeral_of_lastFits (by decide) h
    exact ⟨hread, hread.readsLength⟩

/-- Three bytes that all say that another one follows are read as 0. -/
theorem not_readsNumeral : ¬ ∀ s : Deserializer, ReadsNumeral readVarUint16 s := by
  intro hreads
  have hfits := (readsNumeral_iff (n := 16) (by decide) _).mp
    (hreads ⟨some [0x80#8, 0x80#8, 0x80#8], 3, 0⟩)
  have hlast := hfits [0x80#8, 0x80#8] 0x80#8 _
    (.cons rfl (.cons rfl (.cons rfl (.nil _)))) rfl (by decide)
  exact absurd hlast (by decide)

end Readers

end CppUtils
