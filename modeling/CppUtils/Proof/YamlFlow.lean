import CppUtils.LexicalCast

/-!
# The flow style of YAML

Sequences and maps in brackets, as yaml-cpp writes and reads a node that grows out of `Load("[]")`,
for scalars of letters, digits and minus signs. Reading undoes writing, so there is something that
does what the conversions assume.
-/

namespace CppUtils

namespace YamlFlow

def isScalarByte (b : Byte) : Bool :=
  (0x30 ≤ b && b ≤ 0x39) || (0x41 ≤ b && b ≤ 0x5a) || (0x61 ≤ b && b ≤ 0x7a) || b = minus

mutual

def emit : Node → Str
  | .null => bytes "~"
  | .scalar value => value
  | .sequence [] => bytes "[]"
  | .sequence (item :: items) => bytes "[" ++ emit item ++ emitItems items
  | .map [] => bytes "\x7b\x7d"
  | .map ((key, value) :: entries) =>
      bytes "\x7b" ++ key ++ bytes ": " ++ emit value ++ emitEntries entries

def emitItems : List Node → Str
  | [] => bytes "]"
  | item :: items => bytes ", " ++ emit item ++ emitItems items

def emitEntries : List (Str × Node) → Str
  | [] => bytes "\x7d"
  | (key, value) :: entries =>
      bytes ", " ++ key ++ bytes ": " ++ emit value ++ emitEntries entries

end

def expect (first s : Str) : Option Str :=
  if s.take first.length = first then some (s.drop first.length) else none

mutual

def parse : Nat → Str → Option (Node × Str)
  | 0, _ => none
  | fuel + 1, s =>
      match expect (bytes "~") s, expect (bytes "[") s, expect (bytes "\x7b") s with
      | some s, _, _ => some (.null, s)
      | none, some s, _ =>
          match expect (bytes "]") s with
          | some s => some (.sequence [], s)
          | none => do
              let (item, s) ← parse fuel s
              let (items, s) ← parseItems fuel s
              some (.sequence (item :: items), s)
      | none, none, some s =>
          match expect (bytes "\x7d") s with
          | some s => some (.map [], s)
          | none => do
              let (entry, s) ← parseEntry fuel s
              let (entries, s) ← parseEntries fuel s
              some (.map (entry :: entries), s)
      | none, none, none =>
          some (.scalar (s.takeWhile isScalarByte), s.dropWhile isScalarByte)

def parseItems : Nat → Str → Option (List Node × Str)
  | 0, _ => none
  | fuel + 1, s =>
      match expect (bytes "]") s with
      | some s => some ([], s)
      | none => do
          let (item, s) ← parse fuel (← expect (bytes ", ") s)
          let (items, s) ← parseItems fuel s
          some (item :: items, s)

def parseEntry : Nat → Str → Option ((Str × Node) × Str)
  | 0, _ => none
  | fuel + 1, s => do
      let s' ← expect (bytes ": ") (s.dropWhile isScalarByte)
      let (value, s') ← parse fuel s'
      some ((s.takeWhile isScalarByte, value), s')

def parseEntries : Nat → Str → Option (List (Str × Node) × Str)
  | 0, _ => none
  | fuel + 1, s =>
      match expect (bytes "\x7d") s with
      | some s => some ([], s)
      | none => do
          let (entry, s) ← parseEntry fuel (← expect (bytes ", ") s)
          let (entries, s) ← parseEntries fuel s
          some (entry :: entries, s)

end

def load (s : Str) : Option Node :=
  match parse (s.length + 1) s with
  | some (node, []) => some node
  | _ => none

/-! ### Reading what was written -/

theorem expect_append (first s : Str) : expect first (first ++ s) = some s := by
  rw [expect, List.take_left, if_pos rfl, List.drop_left]

theorem expect_of_head?_ne {first s : Str} (hfirst : first ≠ []) (h : s.head? ≠ first.head?) :
    expect first s = none := by
  apply if_neg
  intro htake
  obtain ⟨b, first, rfl⟩ := List.exists_cons_of_ne_nil hfirst
  rw [← htake] at h
  exact h (by rw [List.length_cons, List.head?_take, if_neg (Nat.succ_ne_zero _)])

/-- A scalar ends before this text. -/
def Stops (s : Str) : Prop := ∀ b ∈ s.head?, isScalarByte b = false

theorem takeWhile_append {value s : Str} (hvalue : ∀ b ∈ value, isScalarByte b = true)
    (hs : Stops s) : (value ++ s).takeWhile isScalarByte = value := by
  rw [List.takeWhile_append_of_pos hvalue]
  cases s with
  | nil => simp
  | cons b s =>
      have hb : ¬ isScalarByte b = true := by simp [hs b rfl]
      rw [List.takeWhile_cons_of_neg hb, List.append_nil]

theorem dropWhile_append {value s : Str} (hvalue : ∀ b ∈ value, isScalarByte b = true)
    (hs : Stops s) : (value ++ s).dropWhile isScalarByte = s := by
  have hsplit := List.takeWhile_append_dropWhile (p := isScalarByte) (l := value ++ s)
  rw [takeWhile_append hvalue hs] at hsplit
  exact List.append_cancel_left hsplit

theorem scalarByte_of_plain {value : Str} (h : IsPlain value) :
    value ≠ [] ∧ ∀ b ∈ value, isScalarByte b = true := by
  obtain ⟨l, v, rfl⟩ := h
  cases l with
  | int =>
      refine ⟨Numeral.writeSigned_ne_nil _ _ _ _, fun b hb => ?_⟩
      have hdecimal : ∀ c ∈ decimal, isScalarByte c = true := by decide +kernel
      rcases Numeral.mem_of_mem_writeSigned (by decide +kernel) hb with rfl | hmem
      · decide +kernel
      · exact hdecimal b hmem
  | string =>
      refine ⟨v.isWord.1, fun b hb => ?_⟩
      simp only [isScalarByte, Bool.or_eq_true, Bool.and_eq_true, decide_eq_true_eq]
      rcases v.isWord.2.1 b hb with hletter | hletter
      · exact .inl (.inl (.inr hletter))
      · exact .inl (.inr hletter)

theorem stops_cons {b : Byte} (h : isScalarByte b = false) (s : Str) : Stops (b :: s) := by
  rintro c ⟨⟩
  exact h

theorem stops_emitItems (items : List Node) (s : Str) : Stops (emitItems items ++ s) := by
  cases items with
  | nil => exact stops_cons (b := 0x5d) (by decide +kernel) s
  | cons item items => exact stops_cons (b := 0x2c) (by decide +kernel) _

theorem stops_emitEntries (entries : List (Str × Node)) (s : Str) :
    Stops (emitEntries entries ++ s) := by
  cases entries with
  | nil => exact stops_cons (b := 0x7d) (by decide +kernel) s
  | cons entry entries => exact stops_cons (b := 0x2c) (by decide +kernel) _

/-- No text of a node begins like the end of a sequence or a map. -/
theorem head?_emit {node : Node} (h : node.Plain) (s : Str) :
    (emit node ++ s).head? ≠ some 0x5d ∧ (emit node ++ s).head? ≠ some 0x7d := by
  cases h with
  | null => exact ⟨nofun, nofun⟩
  | scalar hplain =>
      obtain ⟨hne, hbytes⟩ := scalarByte_of_plain hplain
      obtain ⟨b, value, rfl⟩ := List.exists_cons_of_ne_nil hne
      have hb := hbytes b List.mem_cons_self
      constructor
      · rintro ⟨⟩
        revert hb
        decide +kernel
      · rintro ⟨⟩
        revert hb
        decide +kernel
  | @sequence items _ =>
      cases items with
      | nil => exact ⟨nofun, nofun⟩
      | cons => exact ⟨nofun, nofun⟩
  | @map entries _ _ =>
      cases entries with
      | nil => exact ⟨nofun, nofun⟩
      | cons => exact ⟨nofun, nofun⟩

theorem parseEntry_emit {key s : Str} {value : Node} {fuel : Nat} (hkey : IsPlain key)
    (hvalue : parse fuel (emit value ++ s) = some (value, s)) :
    parseEntry (fuel + 1) (key ++ bytes ": " ++ emit value ++ s) = some ((key, value), s) := by
  have hbytes := (scalarByte_of_plain hkey).2
  have hstops : Stops (bytes ": " ++ (emit value ++ s)) :=
    stops_cons (b := 0x3a) (by decide +kernel) _
  rw [List.append_assoc, List.append_assoc, parseEntry, takeWhile_append hbytes hstops,
    dropWhile_append hbytes hstops, expect_append, Option.bind_eq_bind, Option.bind_some, hvalue]
  rfl

theorem expect_close {node : Node} (h : node.Plain) (s : Str) :
    expect (bytes "]") (emit node ++ s) = none ∧ expect (bytes "\x7d") (emit node ++ s) = none :=
  ⟨expect_of_head?_ne (by decide) (head?_emit h s).1,
    expect_of_head?_ne (by decide) (head?_emit h s).2⟩

/-- The text of a leaf does not begin like anything else. -/
theorem expect_scalar {first value : Str} (h : IsPlain value) (hfirst : first ≠ [])
    (hstops : Stops first) (s : Str) : expect first (value ++ s) = none := by
  apply expect_of_head?_ne hfirst
  obtain ⟨hne, hbytes⟩ := scalarByte_of_plain h
  obtain ⟨b, value, rfl⟩ := List.exists_cons_of_ne_nil hne
  intro heq
  have hb := hstops b heq.symm
  rw [hbytes b List.mem_cons_self] at hb
  cases hb

theorem parse_scalar {value s : Str} (h : IsPlain value) (hs : Stops s) (fuel : Nat) :
    parse (fuel + 1) (value ++ s) = some (.scalar value, s) := by
  have hbytes := (scalarByte_of_plain h).2
  have htilde : Stops (bytes "~") := stops_cons (b := 0x7e) (by decide +kernel) []
  have hbracket : Stops (bytes "[") := stops_cons (b := 0x5b) (by decide +kernel) []
  have hbrace : Stops (bytes "\x7b") := stops_cons (b := 0x7b) (by decide +kernel) []
  rw [parse, expect_scalar h (by decide) htilde, expect_scalar h (by decide) hbracket,
    expect_scalar h (by decide) hbrace]
  simp only [takeWhile_append hbytes hs, dropWhile_append hbytes hs]

theorem length_punctuation : (bytes "[").length = 1 ∧ (bytes "\x7b").length = 1 ∧
    (bytes ", ").length = 2 ∧ (bytes ": ").length = 2 := by decide

/-! The induction is on the node; the fuel lasts as long as the text. -/

mutual

theorem parse_emit {node : Node} (h : node.Plain) {fuel : Nat} {s : Str}
    (hfuel : (emit node).length < fuel) (hs : Stops s) :
    parse fuel (emit node ++ s) = some (node, s) := by
  obtain ⟨fuel, rfl⟩ := Nat.exists_eq_add_one_of_ne_zero (Nat.ne_zero_of_lt hfuel)
  obtain ⟨hbracket, hbrace, -, hcolon⟩ := length_punctuation
  match node with
  | .null => rfl
  | .scalar value =>
      cases h with
      | scalar hplain => exact parse_scalar hplain hs fuel
  | .sequence [] => rfl
  | .sequence (item :: items) =>
      cases h with
      | sequence h =>
      have hplain := h item List.mem_cons_self
      have htext : emit (.sequence (item :: items)) ++ s =
          bytes "[" ++ (emit item ++ (emitItems items ++ s)) := by
        simp only [emit, List.append_assoc]
      simp only [emit, List.length_append] at hfuel
      have hfirst : (emit item).length < fuel := by omega
      have hrest : (emitItems items).length < fuel := by omega
      have hitem := parse_emit hplain hfirst (stops_emitItems items s)
      have hitems := parseItems_emit (fun i hi => h i (List.mem_cons_of_mem _ hi)) hrest (s := s)
      have hclose := (expect_close hplain (emitItems items ++ s)).1
      have htilde : expect (bytes "~") (bytes "[" ++ (emit item ++ (emitItems items ++ s))) = none :=
        expect_of_head?_ne (by decide) nofun
      rw [htext, parse, htilde, expect_append]
      simp only [hclose, Option.bind_eq_bind, Option.bind_some, hitem, hitems]
  | .map [] => rfl
  | .map ((key, value) :: entries) =>
      cases h with
      | map hkeys hvalues =>
      have hkey : IsPlain key := hkeys _ List.mem_cons_self
      have hplain : value.Plain := hvalues _ List.mem_cons_self
      have htext : emit (.map ((key, value) :: entries)) ++ s = bytes "\x7b" ++
          (key ++ bytes ": " ++ emit value ++ (emitEntries entries ++ s)) := by
        simp only [emit, List.append_assoc]
      simp only [emit, List.length_append] at hfuel
      obtain ⟨fuel, rfl⟩ := Nat.exists_eq_add_one_of_ne_zero (show fuel ≠ 0 by omega)
      have hfirst : (emit value).length < fuel := by omega
      have hrest : (emitEntries entries).length < fuel + 1 := by omega
      have hvalue := parse_emit hplain hfirst (stops_emitEntries entries s)
      have hentry := parseEntry_emit hkey hvalue
      have hentries := parseEntries_emit (fun e he => hkeys e (List.mem_cons_of_mem _ he))
        (fun e he => hvalues e (List.mem_cons_of_mem _ he)) hrest (s := s)
      have hclose : expect (bytes "\x7d")
          (key ++ bytes ": " ++ emit value ++ (emitEntries entries ++ s)) = none := by
        rw [List.append_assoc, List.append_assoc]
        exact expect_scalar hkey (by decide) (stops_cons (b := 0x7d) (by decide +kernel) []) _
      have hother : ∀ text, expect (bytes "~") (bytes "\x7b" ++ text) = none ∧
          expect (bytes "[") (bytes "\x7b" ++ text) = none := fun text =>
        ⟨expect_of_head?_ne (by decide) nofun, expect_of_head?_ne (by decide) nofun⟩
      rw [htext, parse, (hother _).1, (hother _).2, expect_append]
      simp only [hclose, Option.bind_eq_bind, Option.bind_some, hentry, hentries]

theorem parseItems_emit {items : List Node} (h : ∀ item ∈ items, item.Plain) {fuel : Nat} {s : Str}
    (hfuel : (emitItems items).length < fuel) :
    parseItems fuel (emitItems items ++ s) = some (items, s) := by
  obtain ⟨fuel, rfl⟩ := Nat.exists_eq_add_one_of_ne_zero (Nat.ne_zero_of_lt hfuel)
  obtain ⟨-, -, hcomma, -⟩ := length_punctuation
  match items with
  | [] => rw [emitItems, parseItems, expect_append]
  | item :: items =>
      have htext : emitItems (item :: items) ++ s =
          bytes ", " ++ (emit item ++ (emitItems items ++ s)) := by
        simp only [emitItems, List.append_assoc]
      simp only [emitItems, List.length_append] at hfuel
      have hfirst : (emit item).length < fuel := by omega
      have hrest : (emitItems items).length < fuel := by omega
      have hitem := parse_emit (h item List.mem_cons_self) hfirst (stops_emitItems items s)
      have hitems := parseItems_emit (fun i hi => h i (List.mem_cons_of_mem _ hi)) hrest (s := s)
      have hclose : expect (bytes "]") (bytes ", " ++ (emit item ++ (emitItems items ++ s))) = none :=
        expect_of_head?_ne (by decide) nofun
      rw [htext, parseItems, hclose, expect_append]
      simp only [Option.bind_eq_bind, Option.bind_some, hitem, hitems]

theorem parseEntries_emit {entries : List (Str × Node)} (hkeys : ∀ entry ∈ entries, IsPlain entry.1)
    (hvalues : ∀ entry ∈ entries, entry.2.Plain) {fuel : Nat} {s : Str}
    (hfuel : (emitEntries entries).length < fuel) :
    parseEntries fuel (emitEntries entries ++ s) = some (entries, s) := by
  obtain ⟨fuel, rfl⟩ := Nat.exists_eq_add_one_of_ne_zero (Nat.ne_zero_of_lt hfuel)
  obtain ⟨-, -, hcomma, hcolon⟩ := length_punctuation
  match entries with
  | [] => rw [emitEntries, parseEntries, expect_append]
  | (key, value) :: entries =>
      have hkey : IsPlain key := hkeys _ List.mem_cons_self
      have hplain : value.Plain := hvalues _ List.mem_cons_self
      have htext : emitEntries ((key, value) :: entries) ++ s = bytes ", " ++
          (key ++ bytes ": " ++ emit value ++ (emitEntries entries ++ s)) := by
        simp only [emitEntries, List.append_assoc]
      simp only [emitEntries, List.length_append] at hfuel
      obtain ⟨fuel, rfl⟩ := Nat.exists_eq_add_one_of_ne_zero (show fuel ≠ 0 by omega)
      have hfirst : (emit value).length < fuel := by omega
      have hrest : (emitEntries entries).length < fuel + 1 := by omega
      have hvalue := parse_emit hplain hfirst (stops_emitEntries entries s)
      have hentry := parseEntry_emit hkey hvalue
      have hentries := parseEntries_emit (fun e he => hkeys e (List.mem_cons_of_mem _ he))
        (fun e he => hvalues e (List.mem_cons_of_mem _ he)) hrest (s := s)
      have hclose : ∀ text, expect (bytes "\x7d") (bytes ", " ++ text) = none :=
        fun text => expect_of_head?_ne (by decide) nofun
      rw [htext, parseEntries, hclose, expect_append]
      simp only [Option.bind_eq_bind, Option.bind_some, hentry, hentries]

end

end YamlFlow

def yamlFlow : Yaml where
  load := YamlFlow.load
  emit := YamlFlow.emit

theorem lawful_yamlFlow : yamlFlow.Lawful where
  load_emit := by
    intro node h
    have hparse := YamlFlow.parse_emit h (Nat.lt_succ_self _) (s := []) nofun
    rw [List.append_nil] at hparse
    show YamlFlow.load (YamlFlow.emit node) = _
    rw [YamlFlow.load, hparse]
  emit_scalar _ _ := rfl
  load_brackets := rfl

example : yamlFlow.load (bytes "[[1, 2], [], \x7ba: ~\x7d]") =
    some (.sequence [.sequence [.scalar (bytes "1"), .scalar (bytes "2")], .sequence [],
      .map [(bytes "a", .null)]]) := by
  rfl

end CppUtils
