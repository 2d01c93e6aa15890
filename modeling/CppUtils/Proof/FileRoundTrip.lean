import CppUtils.SerializeFile
import CppUtils.Proof.CodecVarintSize
import CppUtils.Proof.SerializerCursor
import Mathlib.Data.List.TakeWhile

/-!
# Serialized data read back from a file

`infile >> ret` reads one word, so a file gives back what was written to it exactly if that has no
whitespace byte. For a `Person` the same holds: what is left of its bytes is too short to be read as
this `Person`, because no shorter input makes the readers return the same values.
-/

namespace CppUtils

/-! ### One word -/

theorem extract_sublist (bytes : List Byte) : (extract bytes).Sublist bytes :=
  (List.takeWhile_sublist _).trans (List.dropWhile_sublist _)

theorem extract_eq_self {bytes : List Byte} (h : ∀ b ∈ bytes, isSpace b = false) :
    extract bytes = bytes := by
  have hdrop : bytes.dropWhile isSpace = bytes := by
    cases bytes with
    | nil => rfl
    | cons b bytes =>
        have hb := h b List.mem_cons_self
        exact List.dropWhile_cons_of_neg (by simp [hb])
  rw [extract, hdrop, List.takeWhile_eq_self_iff]
  intro b hb
  rw [h b hb]
  rfl

theorem not_isSpace_of_mem_extract {bytes : List Byte} {b : Byte} (hb : b ∈ extract bytes) :
    isSpace b = false := by
  have h := List.mem_takeWhile_imp hb
  simpa using h

theorem extract_eq_self_iff {bytes : List Byte} :
    extract bytes = bytes ↔ ∀ b ∈ bytes, isSpace b = false := by
  refine ⟨fun heq b hb => ?_, extract_eq_self⟩
  rw [← heq] at hb
  exact not_isSpace_of_mem_extract hb

/-! ### Files -/

section Files

variable {Path : Type} [DecidableEq Path] {files files' : FileSystem Path} {filepath : Path}

/-- After `toFile` a reader of the file gets its first word. -/
theorem Serialize.fromFile_of_toFile {str : List Byte}
    (hwrite : Serialize.toFile files filepath str = (true, files')) :
    Serialize.fromFile files' filepath =
      if files.readable filepath then extract str else [] := by
  unfold Serialize.toFile at hwrite
  split at hwrite
  · cases hwrite
    simp only [Serialize.fromFile, Function.update_self]
  · cases hwrite

theorem Serialize.writable_of_toFile {str : List Byte}
    (hwrite : Serialize.toFile files filepath str = (true, files')) :
    files.writable filepath = true := by
  unfold Serialize.toFile at hwrite
  split at hwrite
  case isTrue hwritable => exact hwritable
  case isFalse => cases hwrite

theorem Serialize.exists_toFile (str : List Byte) (hwritable : files.writable filepath = true) :
    ∃ files', Serialize.toFile files filepath str = (true, files') :=
  ⟨_, if_pos hwritable⟩

theorem Serialize.fromFile_eq_iff {str : List Byte} (hne : str ≠ [])
    (hwrite : Serialize.toFile files filepath str = (true, files')) :
    Serialize.fromFile files' filepath = str ↔
      files.readable filepath = true ∧ ∀ b ∈ str, isSpace b = false := by
  rw [Serialize.fromFile_of_toFile hwrite]
  by_cases hread : files.readable filepath = true
  · rw [if_pos hread, extract_eq_self_iff]
    exact ⟨fun h => ⟨hread, h⟩, fun h => h.2⟩
  · rw [if_neg hread]
    exact ⟨fun h => absurd h.symm hne, fun h => absurd h.1 hread⟩

end Files

/-! ### What the readers consume -/

section Consume

variable {s s' : Deserializer} {bytes : List Byte}

theorem Deserializer.On.readVarUint32 (h : s.On bytes) {value : BitVec 32}
    (hread : CppUtils.readVarUint32 s = some (value, s')) {blocks : List (List Byte)}
    (hwrite : writeVarUint32 value = some blocks) :
    s'.On bytes ∧ s.readed + blocks.flatten.length ≤ s'.readed := by
  obtain ⟨out, hout, rfl⟩ := Option.map_eq_some_iff.mp hwrite
  obtain ⟨hon, k, hpos, hreaded, hvalue⟩ := h.readVarint (by decide) hread
  have hlength := length_varintBytes_le hout hpos hvalue
  rw [List.flatten_singleton]
  exact ⟨hon, by omega⟩

theorem Deserializer.On.readString (h : s.On bytes) {str : List Byte}
    (hread : CppUtils.readString s = some (str, s')) {blocks : List (List Byte)}
    (hwrite : writeString str = some blocks) :
    s'.On bytes ∧ s.readed + blocks.flatten.length ≤ s'.readed ∧ str.length < 2 ^ 32 := by
  unfold CppUtils.readString at hread
  split at hread
  case h_1 => cases hread
  case h_2 len mid hlen =>
    obtain ⟨header, hheader⟩ := writeVarint_isSome (n := 5) len (by decide) (by decide)
    obtain ⟨hon, hreaded⟩ := h.readVarUint32 hlen hheader
    split at hread
    case isTrue hzero =>
      cases hread
      have hblocks : blocks = header := by
        simp only [writeString, writeVarUint32, List.length_nil, if_true,
          Option.map_id_fun', id_eq] at hwrite
        rw [hzero] at hheader
        exact Option.some.inj (hwrite.symm.trans hheader)
      rw [hblocks]
      exact ⟨hon, hreaded, by decide⟩
    case isFalse hpos =>
      obtain ⟨hon', hreaded', hstr⟩ := hon.read hread
      have hofNat : BitVec.ofNat 32 str.length = len := by rw [hstr, BitVec.ofNat_toNat]; simp
      have hblocks : blocks = header ++ [str] := by
        simp only [writeString, writeVarUint32, hofNat, hheader, Option.map_some, if_neg hpos,
          ← hstr, List.take_length] at hwrite
        exact (Option.some.inj hwrite).symm
      rw [hblocks, List.flatten_append, List.flatten_singleton, List.length_append]
      exact ⟨hon', by omega, by omega⟩

end Consume

/-! ### What the serializer returns -/

namespace Serializer

theorem size_fillNodes {fuel : Nat} {s s' : Serializer} {p rest : List Byte}
    (h : s.fillNodes fuel p = some (s', rest)) :
    s'.size + rest.length ≤ s.size + p.length ∧ (s.size < 2 ^ 32 → s'.size < 2 ^ 32) := by
  induction fuel generalizing s p with
  | zero =>
      rw [fillNodes] at h
      split at h
      · cases h
      · cases h
        exact ⟨le_rfl, id⟩
  | succ fuel ih =>
      rw [fillNodes] at h
      split at h
      case isTrue hlong =>
        obtain ⟨hle, hlt⟩ := ih h
        have hsize : u32 (s.size + s.baseSize) ≤ s.size + s.baseSize := Nat.mod_le _ _
        rw [List.length_drop] at hle
        refine ⟨?_, fun _ => hlt (Nat.mod_lt _ (by decide))⟩
        have hle' : s'.size + rest.length ≤ u32 (s.size + s.baseSize) + (p.length - s.baseSize) :=
          hle
        omega
      case isFalse =>
        cases h
        exact ⟨le_rfl, id⟩

theorem size_write {s s' : Serializer} {buf : List Byte} (h : s.write buf = some s') :
    s'.size ≤ s.size + buf.length ∧ s'.size < 2 ^ 32 := by
  unfold write at h
  split at h
  case isTrue =>
    cases h
    exact ⟨Nat.mod_le _ _, Nat.mod_lt _ (by decide)⟩
  case isFalse hfull =>
    rw [Option.bind_eq_bind, Option.bind_eq_some_iff] at h
    obtain ⟨⟨mid, rest⟩, hfill, h⟩ := h
    cases h
    obtain ⟨hle, -⟩ := size_fillNodes hfill
    rw [List.length_drop] at hle
    have hfirst : u32 (s.size + s.capacity) ≤ s.size + s.capacity := Nat.mod_le _ _
    have hle' : mid.size + rest.length ≤ u32 (s.size + s.capacity) + (buf.length - s.capacity) :=
      hle
    have hlast : u32 (mid.size + rest.length) ≤ mid.size + rest.length := Nat.mod_le _ _
    refine ⟨?_, Nat.mod_lt _ (by decide)⟩
    change u32 (mid.size + rest.length) ≤ _
    omega

theorem size_foldlM_write {blocks : List (List Byte)} {s s' : Serializer}
    (h : blocks.foldlM write s = some s') (hs : s.size < 2 ^ 32) :
    s'.size ≤ s.size + blocks.flatten.length ∧ s'.size < 2 ^ 32 := by
  induction blocks generalizing s with
  | nil =>
      cases h
      exact ⟨le_rfl, hs⟩
  | cons block blocks ih =>
      obtain ⟨mid, hwrite, hrest⟩ := Transition.foldlM_cons_eq_some_iff.mp h
      obtain ⟨hle, hlt⟩ := size_write hwrite
      obtain ⟨hle', hlt'⟩ := ih hrest hlt
      rw [List.flatten_cons, List.length_append]
      exact ⟨by omega, hlt'⟩

theorem length_toStringFrom {baseSize : Nat} {nodes : List Node} {n : Nat}
    {out : List (Option Byte)} (h : toStringFrom baseSize nodes n = some out) : out.length ≤ n := by
  induction nodes generalizing n out with
  | nil => cases h
  | cons node nodes ih =>
      rw [toStringFrom] at h
      split at h
      · obtain ⟨rest, hrest, rfl⟩ := Option.map_eq_some_iff.mp h
        have hle := ih hrest
        rw [List.length_append, List.length_take]
        omega
      · cases h
        rw [List.length_take]
        exact Nat.min_le_left _ _

end Serializer

/-! ### Persons -/

namespace Person

theorem exists_blocks (p : Person) :
    ∃ name sex property, writeString p.name = some name ∧ writeString p.sex = some sex ∧
      writeVarUint32 p.property = some property ∧
      p.blocks = some (name ++ sex ++ writeVarUint8 p.age ++ property) := by
  obtain ⟨name, hname⟩ := writeString_isSome p.name
  obtain ⟨sex, hsex⟩ := writeString_isSome p.sex
  obtain ⟨property, hproperty⟩ := writeVarint_isSome (n := 5) p.property (by decide) (by decide)
  refine ⟨name, sex, property, hname, hsex, hproperty, ?_⟩
  simp only [blocks, hname, hsex, writeVarUint32, hproperty, Option.bind_eq_bind, Option.bind_some]

/-- The string is no longer than the blocks, and its length fits `_size`. -/
theorem length_serializeToString {p : Person} {str : List Byte} {blocks : List (List Byte)}
    (hblocks : p.blocks = some blocks) (hstr : p.serializeToString = some str) :
    str.length ≤ blocks.flatten.length ∧ str.length < 2 ^ 32 := by
  rw [serializeToString, hblocks, Option.bind_some, Serializer.collect_eq_some_iff] at hstr
  obtain ⟨se, hrun, -, hbytes⟩ := hstr
  have hlength := Serializer.length_toStringFrom hbytes
  obtain ⟨hle, hlt⟩ := Serializer.size_foldlM_write hrun (by decide)
  have hnew : (Serializer.new Serialize.defaultBaseSize).size = 0 := rfl
  rw [hnew] at hle
  rw [List.length_map] at hlength
  omega

/-- No input shorter than the blocks of a `Person` is read as this `Person`, and none is read as a
`Person` with a string of 2^32 bytes. -/
theorem length_blocks_le {p : Person} {bytes : List Byte} {blocks : List (List Byte)}
    (hblocks : p.blocks = some blocks) (hfits : bytes.length < 2 ^ 32)
    (hread : deserializeToPerson bytes = some p) :
    blocks.flatten.length ≤ bytes.length ∧ p.name.length < 2 ^ 32 ∧ p.sex.length < 2 ^ 32 := by
  obtain ⟨name, sex, property, hname, hsex, hproperty, hall⟩ := p.exists_blocks
  rw [hblocks] at hall
  obtain rfl := Option.some.inj hall
  rw [deserializeToPerson, Option.bind_eq_bind, Option.bind_eq_some_iff] at hread
  obtain ⟨de, hnew, hread⟩ := hread
  obtain ⟨⟨name', de₁⟩, hreadName, hread⟩ := Option.bind_eq_some_iff.mp hread
  obtain ⟨⟨sex', de₂⟩, hreadSex, hread⟩ := Option.bind_eq_some_iff.mp hread
  obtain ⟨⟨age', de₃⟩, hreadAge, hread⟩ := Option.bind_eq_some_iff.mp hread
  obtain ⟨⟨property', de₄⟩, hreadProperty, hread⟩ := Option.bind_eq_some_iff.mp hread
  cases hread
  obtain ⟨hon, hstart, -⟩ := Deserializer.on_new hnew hfits
  obtain ⟨hon₁, hle₁, hnameFits⟩ := hon.readString hreadName hname
  obtain ⟨hon₂, hle₂, hsexFits⟩ := hon₁.readString hreadSex hsex
  obtain ⟨hon₃, hle₃⟩ := hon₂.readByte hreadAge
  obtain ⟨hon₄, hle₄⟩ := hon₃.readVarUint32 hreadProperty hproperty
  have hend := hon₄.readed_le
  refine ⟨?_, hnameFits, hsexFits⟩
  simp only [List.flatten_append, List.length_append, writeVarUint8, List.flatten_singleton,
    List.length_singleton]
  omega

/-- What a `Person` needs to come back from memory: its strings have lengths that `writeString` can
write, its blocks have a total that `_size` can hold, and none of them is put where the cursor is
wrong. -/
structure Fits (p : Person) (blocks : List (List Byte)) : Prop where
  name : p.name.length < 2 ^ 32
  sex : p.sex.length < 2 ^ 32
  total : blocks.flatten.length < 2 ^ 32
  valid : Serializer.CursorValid Serialize.defaultBaseSize blocks

theorem serializeToString_of_fits {p : Person} {blocks : List (List Byte)}
    (hblocks : p.blocks = some blocks) (hfits : p.Fits blocks) :
    p.serializeToString = some blocks.flatten := by
  rw [serializeToString, hblocks, Option.bind_some]
  exact Serializer.collect_of_cursorValid (by decide) (by decide) hfits.total hfits.valid

theorem deserializeToPerson_of_fits {p : Person} {blocks : List (List Byte)}
    (hblocks : p.blocks = some blocks) (hfits : p.Fits blocks) :
    deserializeToPerson blocks.flatten = some p := by
  obtain ⟨name, sex, property, hwriteName, hwriteSex, hwriteProperty, hall⟩ := p.exists_blocks
  rw [hblocks] at hall
  obtain rfl := Option.some.inj hall
  have hflatten : (name ++ sex ++ writeVarUint8 p.age ++ property).flatten =
      name.flatten ++ (sex.flatten ++ ([p.age] ++ property.flatten)) := by
    simp [writeVarUint8]
  have htotal := hfits.total
  rw [hflatten] at htotal ⊢
  have hreadName := decodes_readString hfits.name hwriteName []
    (sex.flatten ++ ([p.age] ++ property.flatten)) (by simpa using htotal)
  have hreadSex := decodes_readString hfits.sex hwriteSex name.flatten
    ([p.age] ++ property.flatten) (by simpa using htotal)
  have hreadAge := decodes_readByte p.age (name.flatten ++ sex.flatten)
    property.flatten (by simpa [Nat.add_assoc] using htotal)
  have hreadProperty := decodes_writeVarint (n := 32) hwriteProperty
    (name.flatten ++ sex.flatten ++ [p.age]) [] (by simpa [Nat.add_assoc] using htotal)
  have hpos : 0 < (name.flatten ++ (sex.flatten ++ ([p.age] ++ property.flatten))).length := by
    simp only [List.length_append, List.length_singleton]
    omega
  have hnew : Deserializer.new (name.flatten ++ (sex.flatten ++ ([p.age] ++ property.flatten))) =
      some (.between [] (name.flatten ++ (sex.flatten ++ ([p.age] ++ property.flatten)))) :=
    if_pos hpos
  rw [List.append_nil] at hreadProperty
  rw [List.nil_append] at hreadName
  simp only [deserializeToPerson, hnew, Option.bind_eq_bind, Option.bind_some, hreadName,
    hreadSex, readVarUint8, hreadAge, readVarUint32, hreadProperty]

/-- The first word of its string is read as the `Person` only if that word is the whole string, and
the string the whole encoding: any less would be shorter than the blocks. -/
theorem fits_of_deserializeToPerson_extract {p : Person} {str : List Byte}
    {blocks : List (List Byte)} (hblocks : p.blocks = some blocks)
    (hstr : p.serializeToString = some str) (hread : deserializeToPerson (extract str) = some p) :
    p.Fits blocks ∧ ∀ b ∈ blocks.flatten, isSpace b = false := by
  obtain ⟨hle, hlt⟩ := length_serializeToString hblocks hstr
  have hsub := extract_sublist str
  have hshort := hsub.length_le
  obtain ⟨hlong, hname, hsex⟩ := length_blocks_le hblocks (hshort.trans_lt hlt) hread
  have htotal : blocks.flatten.length < 2 ^ 32 := by omega
  have hvalid : Serializer.CursorValid Serialize.defaultBaseSize blocks := by
    by_contra hinvalid
    rw [serializeToString, hblocks, Option.bind_some,
      Serializer.collect_of_not_cursorValid (by decide) (by decide) htotal hinvalid] at hstr
    cases hstr
  have hfits : p.Fits blocks := ⟨hname, hsex, htotal, hvalid⟩
  obtain rfl := Option.some.inj (hstr.symm.trans (serializeToString_of_fits hblocks hfits))
  exact ⟨hfits, extract_eq_self_iff.mp (hsub.eq_of_length (by omega))⟩

variable {Path : Type} [DecidableEq Path] {files files' : FileSystem Path} {filepath : Path}

theorem serializeToFile_eq_some_iff {p : Person} :
    p.serializeToFile files filepath = some (true, files') ↔
      ∃ str, p.serializeToString = some str ∧
        Serialize.toFile files filepath str = (true, files') := by
  rw [serializeToFile, Option.map_eq_some_iff]

theorem comes_back_iff {p : Person} {blocks : List (List Byte)} (hblocks : p.blocks = some blocks) :
    (∃ files', p.serializeToFile files filepath = some (true, files') ∧
      deserializeFromFile files' filepath = some p) ↔
      files.writable filepath = true ∧ files.readable filepath = true ∧
        p.Fits blocks ∧ ∀ b ∈ blocks.flatten, isSpace b = false := by
  constructor
  · rintro ⟨files', hwrite, hread⟩
    obtain ⟨str, hstr, hfile⟩ := serializeToFile_eq_some_iff.mp hwrite
    rw [deserializeFromFile, Serialize.fromFile_of_toFile hfile] at hread
    split at hread
    case isTrue hreadable =>
      exact ⟨Serialize.writable_of_toFile hfile, hreadable,
        fits_of_deserializeToPerson_extract hblocks hstr hread⟩
    case isFalse => cases hread
  · rintro ⟨hwritable, hreadable, hfits, hspace⟩
    obtain ⟨files', hfile⟩ := Serialize.exists_toFile blocks.flatten hwritable
    refine ⟨files', serializeToFile_eq_some_iff.mpr
      ⟨_, serializeToString_of_fits hblocks hfits, hfile⟩, ?_⟩
    rw [deserializeFromFile, Serialize.fromFile_of_toFile hfile, if_pos hreadable,
      extract_eq_self hspace, deserializeToPerson_of_fits hblocks hfits]

end Person

/-- **The file round trip.** What `toFile` has written comes back exactly if the file can be opened
for reading and no byte is whitespace. A `Person` comes back exactly if moreover it fits: its
encoding is short enough to count, and no block of it is put where the cursor is wrong. -/
theorem file_round_trip_iff {Path : Type} [DecidableEq Path] (files : FileSystem Path)
    (filepath : Path) :
    (∀ str files', str ≠ [] → Serialize.toFile files filepath str = (true, files') →
      (Serialize.fromFile files' filepath = str ↔
        files.readable filepath = true ∧ ∀ b ∈ str, isSpace b = false)) ∧
    ∀ p : Person, ∃ blocks, p.blocks = some blocks ∧
      ((∃ files', p.serializeToFile files filepath = some (true, files') ∧
          Person.deserializeFromFile files' filepath = some p) ↔
        files.writable filepath = true ∧ files.readable filepath = true ∧
          p.Fits blocks ∧ ∀ b ∈ blocks.flatten, isSpace b = false) := by
  refine ⟨fun _ _ hne hwrite => Serialize.fromFile_eq_iff hne hwrite, fun p => ?_⟩
  obtain ⟨_, _, _, -, -, -, hblocks⟩ := p.exists_blocks
  exact ⟨_, hblocks, Person.comes_back_iff hblocks⟩

/-- The `Person` of the test comes back, and one whose age is the byte of a space does not. -/
theorem file_round_trip_codroc :
    let files : FileSystem Unit := ⟨fun _ => none, fun _ => true, fun _ => true⟩
    let p : Person := ⟨bytes "codroc", bytes "male", 24#8, 10000000#32⟩
    let q : Person := ⟨bytes "codroc", bytes "male", 32#8, 1#32⟩
    (∃ files', Serialize.toFile files () (bytes "abc") = (true, files') ∧
      Serialize.fromFile files' () = bytes "abc") ∧
    (∃ files', p.serializeToFile files () = some (true, files') ∧
      Person.deserializeFromFile files' () = some p) ∧
    ¬ ∃ files', q.serializeToFile files () = some (true, files') ∧
      Person.deserializeFromFile files' () = some q := by
  intro files p q
  obtain ⟨files₁, habc⟩ : ∃ files₁, Serialize.toFile files () (bytes "abc") = (true, files₁) :=
    ⟨_, rfl⟩
  refine ⟨⟨files₁, habc, ?_⟩, ?_, ?_⟩
  · exact ((file_round_trip_iff files ()).1 _ _ (by decide +kernel) habc).mpr
      ⟨rfl, by decide +kernel⟩
  · obtain ⟨blocks, hblocks, hback⟩ := (file_round_trip_iff files ()).2 p
    obtain rfl : [[6#8], bytes "codroc", [4#8], bytes "male", [24#8],
        [128#8, 173#8, 226#8, 4#8]] = blocks :=
      Option.some.inj (.trans (by decide +kernel) hblocks)
    refine hback.mpr ⟨rfl, rfl, ⟨by decide +kernel, by decide +kernel, by decide +kernel, ?_⟩, ?_⟩
    · exact Serializer.cursorValid_of_le (by decide +kernel)
    · decide +kernel
  · obtain ⟨blocks, hblocks, hback⟩ := (file_round_trip_iff files ()).2 q
    obtain rfl : [[6#8], bytes "codroc", [4#8], bytes "male", [32#8], [1#8]] = blocks :=
      Option.some.inj (.trans (by decide +kernel) hblocks)
    rw [hback]
    rintro ⟨-, -, -, hspace⟩
    exact absurd (hspace 32#8 (by decide +kernel)) (by decide)

/-- Of `"a b"` the file gives back `"a"`. -/
theorem not_file_round_trip :
    ¬ ∀ (files files' : FileSystem Unit) (str : List Byte), str ≠ [] →
      Serialize.toFile files () str = (true, files') → Serialize.fromFile files' () = str := by
  intro hback
  let files : FileSystem Unit := ⟨fun _ => none, fun _ => true, fun _ => true⟩
  have hword := hback files _ (bytes "a b") (by decide +kernel) rfl
  have hread : extract (bytes "a b") = bytes "a" := by decide +kernel
  change extract (bytes "a b") = bytes "a b" at hword
  rw [hread] at hword
  exact absurd hword (by decide +kernel)

end CppUtils
