import CppUtils.Proof.CodecVarintSize
import CppUtils.Proof.DeserializerCursor

/-!
# Readers on bytes that nobody wrote

No reader looks at a byte that it does not consume (`Forward`). So an encoding that was cut off is
never taken for a value, and no encoding is the front of another one. A reader may consume more
bytes than its writer would have written for what it returns, but never fewer (`Frugal`): whatever
is accepted can be written again, and is read back from there.
-/

namespace CppUtils

open BitBytes

variable {α β : Type} {f : Deserializer → Option (α × Deserializer)}
  {g : α → Deserializer → Option (β × Deserializer)} {bytes bytes' : List Byte} {v v' : α} {u : β}

theorem Deserializer.between_inj {pre rest pre' rest' : List Byte}
    (h : between pre rest = between pre' rest') : pre = pre' ∧ rest = rest' := by
  have hbuf := congrArg Deserializer.buf h
  have hreaded := congrArg Deserializer.readed h
  exact List.append_inj (Option.some.inj hbuf) hreaded

/-- What a reader accepts at some place, it reads at any place. -/
def Forward (f : Deserializer → Option (α × Deserializer)) : Prop :=
  ∀ pre rest, (pre ++ rest).length < 2 ^ 32 → f (.between pre rest) ≠ none →
    ∃ used v, used <+: rest ∧ Decodes f used v

theorem Decodes.at_front (h : Decodes f bytes v) (hfits : bytes.length < 2 ^ 32) :
    f (.between [] bytes) = some (v, .between bytes []) := by
  have hread := h [] [] (by simpa using hfits)
  rwa [List.nil_append, List.append_nil] at hread

/-- **Encodings are prefix-free**, and each has one value. -/
theorem Decodes.eq_of_isPrefix (h : Decodes f bytes v) (h' : Decodes f bytes' v')
    (hfits : bytes'.length < 2 ^ 32) (hfront : bytes <+: bytes') : bytes = bytes' ∧ v = v' := by
  obtain ⟨rest, rfl⟩ := hfront
  have hread := h [] rest (by simpa using hfits)
  rw [h'.at_front hfits] at hread
  obtain ⟨hvalue, hend⟩ := Prod.mk.inj (Option.some.inj hread)
  exact ⟨(Deserializer.between_inj hend).1.symm, hvalue.symm⟩

theorem Forward.spec (hf : Forward f) {pre rest : List Byte} {t : Deserializer}
    (hfits : (pre ++ rest).length < 2 ^ 32) (hread : f (.between pre rest) = some (v, t)) :
    ∃ used left, rest = used ++ left ∧ t = .between (pre ++ used) left ∧ Decodes f used v := by
  obtain ⟨used, v', ⟨left, rfl⟩, hused⟩ := hf pre rest hfits (by simp [hread])
  rw [hused pre left (by simpa using hfits)] at hread
  obtain ⟨rfl, rfl⟩ := Prod.mk.inj (Option.some.inj hread)
  exact ⟨used, left, rfl, rfl, hused⟩

/-- **Nothing is read from a part of an encoding.** -/
theorem Forward.eq_none (hf : Forward f) (h : Decodes f bytes v) {pre front : List Byte}
    (hfits : (pre ++ bytes).length < 2 ^ 32) (hfront : front <+: bytes) (hne : front ≠ bytes) :
    f (.between pre front) = none := by
  by_contra hread
  have hlength := hfront.length_le
  rw [List.length_append] at hfits
  obtain ⟨used, v', hused, hdecodes⟩ :=
    hf pre front (by rw [List.length_append]; omega) hread
  obtain ⟨rfl, -⟩ := hdecodes.eq_of_isPrefix h (by omega) (hused.trans hfront)
  exact hne (hfront.eq_of_length (Nat.le_antisymm hlength hused.length_le))

/-! ### How readers are put together -/

theorem decodes_pure (v : α) : Decodes (fun s => some (v, s)) [] v := by
  intro pre rest _
  rw [List.nil_append, List.append_nil]

theorem forward_pure (v : α) : Forward fun s => some (v, s) :=
  fun _ _ _ _ => ⟨[], v, List.nil_prefix, decodes_pure v⟩

theorem Decodes.bind (hf : Decodes f bytes v) (hg : Decodes (g v) bytes' u) :
    Decodes (fun s => (f s).bind fun r => g r.1 r.2) (bytes ++ bytes') u := by
  intro pre rest hfits
  have hfirst := hf pre (bytes' ++ rest) (by simpa using hfits)
  have hsecond := hg (pre ++ bytes) rest (by simpa using hfits)
  simp only [List.append_assoc] at hfirst hsecond ⊢
  simp only [hfirst, Option.bind_some, hsecond]

theorem Forward.bind (hf : Forward f) (hg : ∀ v, Forward (g v)) :
    Forward fun s => (f s).bind fun r => g r.1 r.2 := by
  intro pre rest hfits hread
  obtain ⟨⟨v, m⟩, hfirst⟩ : ∃ r, f (.between pre rest) = some r := by
    rw [← Option.ne_none_iff_exists']
    exact fun hnone => hread (by simp only [hnone, Option.bind_none])
  obtain ⟨front, left, rfl, rfl, hfront⟩ := hf.spec hfits hfirst
  simp only [hfirst, Option.bind_some] at hread
  obtain ⟨back, u, hleft, hback⟩ := hg v _ left (by simpa using hfits) hread
  exact ⟨front ++ back, u, (List.prefix_append_right_inj front).mpr hleft, hfront.bind hback⟩

theorem Forward.map (hf : Forward f) (h : α → β) :
    Forward fun s => (f s).map fun (v, s) => (h v, s) := by
  intro pre rest hfits hread
  obtain ⟨used, v, hused, hdecodes⟩ := hf pre rest hfits fun hnone => hread (by simp [hnone])
  exact ⟨used, h v, hused, hdecodes.map h⟩

theorem Decodes.of_map (hf : Forward f) {h : α → β} (hfits : bytes.length < 2 ^ 32)
    (hmap : Decodes (fun s => (f s).map fun (v, s) => (h v, s)) bytes u) :
    ∃ v, u = h v ∧ Decodes f bytes v := by
  have hread := hmap.at_front hfits
  obtain ⟨⟨v, t⟩, hv, heq⟩ := Option.map_eq_some_iff.mp hread
  obtain ⟨rfl, rfl⟩ := Prod.mk.inj heq
  obtain ⟨used, left, -, hend, hdecodes⟩ := hf.spec (by simpa using hfits) hv
  obtain ⟨rfl, -⟩ := Deserializer.between_inj hend
  exact ⟨v, rfl, hdecodes⟩

theorem Decodes.of_bind (hf : Forward f) (hg : ∀ v, Forward (g v)) (hfits : bytes.length < 2 ^ 32)
    (hbind : Decodes (fun s => (f s).bind fun r => g r.1 r.2) bytes u) :
    ∃ front back v, bytes = front ++ back ∧ Decodes f front v ∧ Decodes (g v) back u := by
  have hread := hbind.at_front hfits
  obtain ⟨⟨v, m⟩, hfirst, hsecond⟩ := Option.bind_eq_some_iff.mp hread
  obtain ⟨front, left, rfl, rfl, hfront⟩ := hf.spec (by simpa using hfits) hfirst
  obtain ⟨back, left', rfl, hend, hback⟩ := (hg v).spec (by simpa using hfits) hsecond
  obtain ⟨heq, rfl⟩ := Deserializer.between_inj hend
  refine ⟨front, back, v, ?_, hfront, hback⟩
  rw [List.append_nil]

/-! ### The readers of `Serialize` -/

theorem forward_read (n : Nat) : Forward (·.read n) := by
  intro pre rest hfits hread
  obtain ⟨⟨out, t⟩, hout⟩ := Option.ne_none_iff_exists'.mp hread
  obtain ⟨buf, hbuf, hroom, -, -⟩ := Deserializer.Session.read_cases hout
  obtain rfl := Option.some.inj hbuf
  have hlength : (rest.take n).length = n := by
    simp only [Deserializer.between, List.length_append] at hroom
    rw [List.length_take]
    omega
  have hdecodes := decodes_read (rest.take n)
  rw [hlength] at hdecodes
  exact ⟨rest.take n, rest.take n, List.take_prefix n rest, hdecodes⟩

theorem forward_readByte : Forward Deserializer.readByte := by
  intro pre rest hfits hread
  cases rest with
  | cons b rest => exact ⟨[b], b, ⟨rest, rfl⟩, decodes_readByte b⟩
  | nil =>
      exfalso
      apply hread
      have hnone : (Deserializer.between pre []).read 1 = none := by
        by_contra hsome
        obtain ⟨⟨out, t⟩, hout⟩ := Option.ne_none_iff_exists'.mp hsome
        obtain ⟨buf, hbuf, hroom, -, -⟩ := Deserializer.Session.read_cases hout
        obtain rfl := Option.some.inj hbuf
        simp only [Deserializer.between, List.length_append, List.length_nil] at hroom
        omega
      rw [Deserializer.readByte, hnone]

theorem forward_readVarintFrom {w : Nat} (shifts : List Nat) (ret : BitVec w) :
    Forward (readVarintFrom shifts ret) := by
  induction shifts generalizing ret with
  | nil => exact forward_pure ret
  | cons i shifts ih =>
      have hbind : readVarintFrom (i :: shifts) ret = fun s => s.readByte.bind fun r =>
          if r.1.toNat < 0x80 then some (ret ||| r.1.setWidth w <<< i, r.2)
          else readVarintFrom shifts (ret ||| ((r.1 &&& 0x7f#8).setWidth w <<< i)) r.2 := by
        funext s
        rw [readVarintFrom]
        cases s.readByte with
        | none => rfl
        | some r => rfl
      rw [hbind]
      refine forward_readByte.bind (g := fun (b : Byte) s =>
        if b.toNat < 0x80 then some (ret ||| b.setWidth w <<< i, s)
        else readVarintFrom shifts (ret ||| ((b &&& 0x7f#8).setWidth w <<< i)) s) fun b => ?_
      by_cases hlast : b.toNat < 0x80
      · simp only [hlast, if_true]
        exact forward_pure _
      · simp only [hlast, if_false]
        exact ih _

theorem forward_readVarint (n : Nat) : Forward (readVarint n) := forward_readVarintFrom _ _

theorem forward_readBit {w : Nat} (order : ByteOrder) (n : Nat) :
    Forward (readBit order n : Deserializer → Option (BitVec w × Deserializer)) :=
  (forward_read n).map fun bytes => bswap n (order.load bytes)

/-- What `readString` does once it has the length. -/
def readChars (len : BitVec 32) (s : Deserializer) : Option (List Byte × Deserializer) :=
  if len = 0#32 then some ([], s) else s.read len.toNat

theorem readString_eq : readString = fun s => (readVarUint32 s).bind fun r => readChars r.1 r.2 := by
  funext s
  rw [readString]
  cases readVarUint32 s with
  | none => rfl
  | some r => rfl

theorem forward_readChars (len : BitVec 32) : Forward (readChars len) := by
  unfold readChars
  split
  · exact forward_pure []
  · exact forward_read len.toNat

theorem forward_readString : Forward readString := by
  rw [readString_eq]
  exact (forward_readVarint 32).bind forward_readChars

theorem forward_readValue (order : ByteOrder) (k : Kind) : Forward (readValue order · k) := by
  cases k with
  | fixed32 => exact (forward_readBit order 4).map Value.fixed32
  | fixed64 => exact (forward_readBit order 8).map Value.fixed64
  | sFixed32 => exact ((forward_readBit order 4).map decodeZigZag32).map Value.sFixed32
  | sFixed64 => exact ((forward_readBit order 8).map decodeZigZag64).map Value.sFixed64
  | varInt8 => exact forward_readByte.map Value.varInt8
  | varUint8 => exact forward_readByte.map Value.varUint8
  | varInt16 => exact ((forward_readVarint 16).map decodeZigZag16).map Value.varInt16
  | varUint16 => exact (forward_readVarint 16).map Value.varUint16
  | varInt32 => exact ((forward_readVarint 32).map decodeZigZag32).map Value.varInt32
  | varUint32 => exact (forward_readVarint 32).map Value.varUint32
  | varInt64 => exact ((forward_readVarint 64).map decodeZigZag64).map Value.varInt64
  | varUint64 => exact (forward_readVarint 64).map Value.varUint64
  | float => exact (forward_readBit order 4).map Value.float
  | double => exact (forward_readBit order 8).map Value.double
  | string => exact forward_readString.map Value.string

theorem readValues_cons (order : ByteOrder) (k : Kind) (ks : List Kind) :
    (readValues order · (k :: ks)) = fun s => (readValue order s k).bind fun r =>
      (readValues order r.2 ks).map fun (vs, s) => (r.1 :: vs, s) := by
  funext s
  simp only [readValues]
  cases readValue order s k with
  | none => rfl
  | some r => rfl

theorem forward_readValues (order : ByteOrder) (ks : List Kind) :
    Forward (readValues order · ks) := by
  induction ks with
  | nil => exact forward_pure []
  | cons k ks ih =>
      rw [readValues_cons]
      exact (forward_readValue order k).bind fun v => ih.map (v :: ·)

/-- **A message that was cut off is never accepted**, and no message is the front of another one of
the same kinds. -/
theorem readValues_of_truncated {vs : List Value} {blocks : List (List Byte)}
    (hvs : ∀ v ∈ vs, v.Encodable) (hblocks : writeValues .littleEndian vs = some blocks)
    {pre : List Byte} (hfits : (pre ++ blocks.flatten).length < 2 ^ 32) :
    (∀ front, front <+: blocks.flatten → front ≠ blocks.flatten →
      readValues .littleEndian (.between pre front) (vs.map Value.kind) = none) ∧
    ∀ ws others, (∀ w ∈ ws, w.Encodable) → writeValues .littleEndian ws = some others →
      ws.map Value.kind = vs.map Value.kind → others.flatten <+: blocks.flatten → ws = vs := by
  have hdecodes := decodes_readValues hvs hblocks
  refine ⟨fun front hfront hne => (forward_readValues _ _).eq_none hdecodes hfits hfront hne, ?_⟩
  intro ws others hws hothers hkinds hfront
  have hdecodes' := decodes_readValues hws hothers
  rw [hkinds] at hdecodes'
  rw [List.length_append] at hfits
  exact (hdecodes'.eq_of_isPrefix hdecodes (by omega) hfront).2

/-- A string without its last character. -/
theorem readValues_of_half :
    readValues .littleEndian (.between [] [2#8, 0x61#8]) [.string] = none := by
  have hvs : ∀ v ∈ [Value.string [0x61#8, 0x62#8]], v.Encodable := by decide
  have hblocks : writeValues .littleEndian [.string [0x61#8, 0x62#8]] =
      some [[2#8], [0x61#8, 0x62#8]] := rfl
  exact (readValues_of_truncated hvs hblocks (by decide)).1 [2#8, 0x61#8] (by decide) (by decide)

/-! ### Writing again what was read -/

/-- What the reader makes of some bytes is written with no more of them. -/
structure Frugal (write : α → Option (List (List Byte)))
    (f : Deserializer → Option (α × Deserializer)) : Prop where
  forward : Forward f
  shorter : ∀ used v, used.length < 2 ^ 32 → Decodes f used v →
    ∃ blocks, write v = some blocks ∧ blocks.flatten.length ≤ used.length

theorem Deserializer.on_front (hfits : bytes.length < 2 ^ 32) : (between [] bytes).On bytes where
  buf := rfl
  readed_le := Nat.zero_le _
  fits := hfits

theorem length_of_decodes_read {n : Nat} {out : List Byte} (h : Decodes (·.read n) bytes out)
    (hfits : bytes.length < 2 ^ 32) : bytes.length = n ∧ out.length = n := by
  obtain ⟨-, hreaded, hlength⟩ := (Deserializer.on_front hfits).read (h.at_front hfits)
  refine ⟨?_, hlength⟩
  simpa [Deserializer.between] using hreaded

theorem Frugal.map {write : α → Option (List (List Byte))} {write' : β → Option (List (List Byte))}
    (hf : Frugal write f) (h : α → β) (hwrite : ∀ v, write' (h v) = write v) :
    Frugal write' fun s => (f s).map fun (v, s) => (h v, s) where
  forward := hf.forward.map h
  shorter used u hfits hdecodes := by
    obtain ⟨v, rfl, hv⟩ := hdecodes.of_map hf.forward hfits
    rw [hwrite]
    exact hf.shorter used v hfits hv

theorem frugal_readByte : Frugal (fun b => some [[b]]) Deserializer.readByte where
  forward := forward_readByte
  shorter used b hfits hdecodes := by
    obtain ⟨-, hreaded⟩ := (Deserializer.on_front hfits).readByte (hdecodes.at_front hfits)
    refine ⟨[[b]], rfl, ?_⟩
    simpa [Deserializer.between] using hreaded.ge

theorem frugal_readBit (order : ByteOrder) (n : Nat) :
    Frugal (fun v : BitVec (8 * n) => some (writeBit order n v)) (readBit order n) where
  forward := forward_readBit order n
  shorter used v hfits hdecodes := by
    obtain ⟨out, -, hout⟩ :=
      Decodes.of_map (h := fun bytes => bswap n (order.load bytes)) (forward_read n) hfits hdecodes
    obtain ⟨hlength, -⟩ := length_of_decodes_read hout hfits
    refine ⟨_, rfl, ?_⟩
    rw [writeBit_eq, List.flatten_singleton, length_bytesBE, hlength]

theorem frugal_readVarint {n : Nat} (hn : 0 < n) :
    Frugal (writeVarint ((n + 6) / 7)) (readVarint n) where
  forward := forward_readVarint n
  shorter used v hfits hdecodes := by
    obtain ⟨-, k, hk, hreaded, hlt⟩ :=
      (Deserializer.on_front hfits).readVarint hn (hdecodes.at_front hfits)
    have hwidth : 2 ^ n ≤ 128 ^ ((n + 6) / 7) := by
      rw [show (128 : Nat) = 2 ^ 7 from rfl, ← pow_mul]
      exact Nat.pow_le_pow_right (by decide) (by omega)
    have hroom : 0 < (n + 6) / 7 := by omega
    obtain ⟨out, hout⟩ := varintBytes_isSome hroom (v.isLt.trans_le hwidth)
    refine ⟨[out], by rw [writeVarint, hout, Option.map_some], ?_⟩
    rw [List.flatten_singleton]
    simp only [Deserializer.between, List.length_nil, Nat.zero_add] at hreaded
    exact hreaded ▸ length_varintBytes_le hout hk hlt

theorem frugal_readString : Frugal writeString readString where
  forward := forward_readString
  shorter used str hfits hdecodes := by
    rw [readString_eq] at hdecodes
    obtain ⟨front, back, len, rfl, hlen, hchars⟩ :=
      hdecodes.of_bind (forward_readVarint 32) forward_readChars hfits
    rw [List.length_append] at hfits
    obtain ⟨header, hheader, hle⟩ :=
      (frugal_readVarint (by decide : 0 < 32)).shorter front len (by omega) hlen
    by_cases hzero : len = 0#32
    · have hnil : Decodes (fun s => some (([] : List Byte), s)) back str := by
        have hpure : readChars len = fun s => some ([], s) := by
          funext s
          rw [readChars, if_pos hzero]
        rwa [hpure] at hchars
      obtain ⟨-, rfl⟩ := (decodes_pure []).eq_of_isPrefix hnil (by omega) List.nil_prefix
      refine ⟨header, ?_, ?_⟩
      · rw [hzero] at hheader
        simp [writeString, writeVarUint32, hheader]
      · rw [List.length_append]
        omega
    · have hread : readChars len = (·.read len.toNat) := by
        funext s
        rw [readChars, if_neg hzero]
      rw [hread] at hchars
      obtain ⟨hback, hstr⟩ := length_of_decodes_read hchars (by omega)
      have hlength : BitVec.ofNat 32 str.length = len := by
        rw [hstr, BitVec.ofNat_toNat, BitVec.setWidth_eq]
      refine ⟨header ++ [str], ?_, ?_⟩
      · rw [writeString, hlength, writeVarUint32, hheader, Option.map_some, if_neg hzero, ← hstr,
          List.take_length]
      · rw [List.flatten_append, List.flatten_singleton, List.length_append, List.length_append]
        omega

theorem frugal_readValue (order : ByteOrder) (k : Kind) :
    Frugal (writeValue order) (readValue order · k) := by
  have hzigzag : ∀ {w : Nat} (n : Nat) (u : BitVec w),
      some (writeBit order n (encodeZigZag (decodeZigZag u))) = some (writeBit order n u) := by
    intro w n u
    rw [encodeZigZag_decodeZigZag]
  cases k with
  | fixed32 => exact (frugal_readBit order 4).map Value.fixed32 fun _ => rfl
  | fixed64 => exact (frugal_readBit order 8).map Value.fixed64 fun _ => rfl
  | sFixed32 =>
      exact ((frugal_readBit order 4).map decodeZigZag32 (hzigzag 4)).map Value.sFixed32 fun _ => rfl
  | sFixed64 =>
      exact ((frugal_readBit order 8).map decodeZigZag64 (hzigzag 8)).map Value.sFixed64 fun _ => rfl
  | varInt8 => exact frugal_readByte.map Value.varInt8 fun _ => rfl
  | varUint8 => exact frugal_readByte.map Value.varUint8 fun _ => rfl
  | varInt16 =>
      have hmap : Frugal writeVarInt16 readVarInt16 :=
        (frugal_readVarint (by decide : 0 < 16)).map decodeZigZag16 fun u => by
          rw [writeVarInt16, decodeZigZag16_eq, encodeZigZag16_eq, encodeZigZag_decodeZigZag]
          rfl
      exact hmap.map Value.varInt16 fun _ => rfl
  | varUint16 => exact (frugal_readVarint (by decide : 0 < 16)).map Value.varUint16 fun _ => rfl
  | varInt32 =>
      have hmap : Frugal writeVarInt32 readVarInt32 :=
        (frugal_readVarint (by decide : 0 < 32)).map decodeZigZag32 fun u => by
          rw [writeVarInt32, encodeZigZag32, decodeZigZag32, encodeZigZag_decodeZigZag]
          rfl
      exact hmap.map Value.varInt32 fun _ => rfl
  | varUint32 => exact (frugal_readVarint (by decide : 0 < 32)).map Value.varUint32 fun _ => rfl
  | varInt64 =>
      have hmap : Frugal writeVarInt64 readVarInt64 :=
        (frugal_readVarint (by decide : 0 < 64)).map decodeZigZag64 fun u => by
          rw [writeVarInt64, encodeZigZag64, decodeZigZag64, encodeZigZag_decodeZigZag]
          rfl
      exact hmap.map Value.varInt64 fun _ => rfl
  | varUint64 => exact (frugal_readVarint (by decide : 0 < 64)).map Value.varUint64 fun _ => rfl
  | float => exact (frugal_readBit order 4).map Value.float fun _ => rfl
  | double => exact (frugal_readBit order 8).map Value.double fun _ => rfl
  | string => exact frugal_readString.map Value.string fun _ => rfl

theorem frugal_readValues (order : ByteOrder) (ks : List Kind) :
    Frugal (writeValues order) (readValues order · ks) where
  forward := forward_readValues order ks
  shorter used vs hfits hdecodes := by
    induction ks generalizing used vs with
    | nil =>
        obtain ⟨-, rfl⟩ := (decodes_pure []).eq_of_isPrefix hdecodes hfits List.nil_prefix
        exact ⟨[], rfl, Nat.zero_le _⟩
    | cons k ks ih =>
        rw [readValues_cons] at hdecodes
        obtain ⟨front, back, v, rfl, hfront, hback⟩ :=
          hdecodes.of_bind (g := fun v s => (readValues order s ks).map fun (vs, s) => (v :: vs, s))
            (forward_readValue order k) (fun v => (forward_readValues order ks).map (v :: ·)) hfits
        rw [List.length_append] at hfits
        obtain ⟨vs, rfl, hvs⟩ := hback.of_map (forward_readValues order ks) (by omega)
        obtain ⟨blocks, hblocks, hle⟩ :=
          (frugal_readValue order k).shorter front v (by omega) hfront
        obtain ⟨others, hothers, hle'⟩ := ih back vs (by omega) hvs
        refine ⟨blocks ++ others, by simp only [writeValues, hblocks, hothers], ?_⟩
        rw [List.flatten_append, List.length_append, List.length_append]
        exact Nat.add_le_add hle hle'

theorem length_of_readString {str : List Byte} {s t : Deserializer}
    (hread : readString s = some (str, t)) : str.length < 2 ^ 32 := by
  rw [readString_eq] at hread
  obtain ⟨⟨len, m⟩, -, hchars⟩ := Option.bind_eq_some_iff.mp hread
  unfold readChars at hchars
  split at hchars
  · obtain ⟨rfl, -⟩ := Prod.mk.inj (Option.some.inj hchars)
    exact Nat.two_pow_pos 32
  · rw [Deserializer.length_of_read hchars]
    exact len.isLt

theorem kind_of_readValue {order : ByteOrder} {k : Kind} {v : Value} {s t : Deserializer}
    (hread : readValue order s k = some (v, t)) : v.kind = k ∧ v.Encodable := by
  cases k with
  | string =>
      obtain ⟨⟨str, m⟩, hstr, heq⟩ := Option.map_eq_some_iff.mp hread
      obtain ⟨rfl, -⟩ := Prod.mk.inj heq
      exact ⟨rfl, length_of_readString hstr⟩
  | fixed32 | fixed64 | sFixed32 | sFixed64 | varInt8 | varUint8 | varInt16 | varUint16 | varInt32
  | varUint32 | varInt64 | varUint64 | float | double =>
      obtain ⟨⟨u, m⟩, -, heq⟩ := Option.map_eq_some_iff.mp hread
      obtain ⟨rfl, -⟩ := Prod.mk.inj heq
      exact ⟨rfl, trivial⟩

theorem kinds_of_readValues {order : ByteOrder} {ks : List Kind} {vs : List Value}
    {s t : Deserializer} (hread : readValues order s ks = some (vs, t)) :
    vs.map Value.kind = ks ∧ ∀ v ∈ vs, v.Encodable := by
  induction ks generalizing s vs with
  | nil =>
      obtain ⟨rfl, -⟩ := Prod.mk.inj (Option.some.inj hread)
      exact ⟨rfl, by simp⟩
  | cons k ks ih =>
      obtain ⟨⟨v, m⟩, hv, hrest⟩ :=
        Option.bind_eq_some_iff.mp ((congrFun (readValues_cons order k ks) s).symm.trans hread)
      obtain ⟨⟨others, t'⟩, hothers, heq⟩ := Option.map_eq_some_iff.mp hrest
      obtain ⟨rfl, rfl⟩ := Prod.mk.inj heq
      obtain ⟨hkind, hv⟩ := kind_of_readValue hv
      obtain ⟨hkinds, hvs⟩ := ih hothers
      exact ⟨by rw [List.map_cons, hkind, hkinds], List.forall_mem_cons.mpr ⟨hv, hvs⟩⟩

/-- **What is accepted can be written again.** Whatever the bytes are, the values that are read from
them have an encoding, no longer than what was consumed, which is read as the same values. -/
theorem writeValues_of_readValues {pre rest : List Byte} (hfits : (pre ++ rest).length < 2 ^ 32)
    {ks : List Kind} {vs : List Value} {t : Deserializer}
    (hread : readValues .littleEndian (.between pre rest) ks = some (vs, t)) :
    vs.map Value.kind = ks ∧ ∃ used left blocks, rest = used ++ left ∧
      t = .between (pre ++ used) left ∧ writeValues .littleEndian vs = some blocks ∧
      blocks.flatten.length ≤ used.length ∧
      ∀ pre' rest', (pre' ++ blocks.flatten ++ rest').length < 2 ^ 32 →
        readValues .littleEndian (.between pre' (blocks.flatten ++ rest')) ks =
          some (vs, .between (pre' ++ blocks.flatten) rest') := by
  obtain ⟨rfl, hvs⟩ := kinds_of_readValues hread
  have hfrugal := frugal_readValues .littleEndian (vs.map Value.kind)
  obtain ⟨used, left, rfl, rfl, hused⟩ := hfrugal.forward.spec hfits hread
  simp only [List.length_append] at hfits
  obtain ⟨blocks, hblocks, hle⟩ := hfrugal.shorter used vs (by omega) hused
  exact ⟨rfl, used, left, blocks, rfl, rfl, hblocks, hle, decodes_readValues hvs hblocks⟩

/-- A length of two bytes that one would have been enough for. -/
theorem writeValues_of_padded : ∃ blocks, writeValues .littleEndian [.varUint32 1#32] = some blocks ∧
    blocks.flatten.length ≤ 2 := by
  have hread : readValues .littleEndian (.between [] [0x81#8, 0#8]) [.varUint32] =
      some ([.varUint32 1#32], .between [0x81#8, 0#8] []) := by rfl
  obtain ⟨-, used, left, blocks, hused, -, hblocks, hle, -⟩ :=
    writeValues_of_readValues (by decide) hread
  refine ⟨blocks, hblocks, ?_⟩
  have hlength := congrArg List.length hused
  rw [List.length_append] at hlength
  calc
    blocks.flatten.length ≤ used.length := hle
    _ ≤ used.length + left.length := Nat.le_add_right _ _
    _ = 2 := hlength.symm

end CppUtils
