import CppUtils.Proof.ConfigAllOrNothing
import CppUtils.Proof.YamlFlow

/-!
# Containers from the text of a scalar

None of the six conversions looks at the kind of the node. A scalar has no items and no entries, so
its text is converted to the empty container, and `fromString` stores that.
-/

namespace CppUtils

open Associative LexicalCast

/-- The conversions from text to a container, with the empty container. -/
inductive FromText (yaml : Yaml) : {C : Type} → (Str → Option C) → C → Prop
  | vector {T : Type} (cast : LexicalCast T) : FromText yaml (vector yaml cast).fromStr []
  | list {T : Type} (cast : LexicalCast T) : FromText yaml (list yaml cast).fromStr []
  | set {T : Type} [LinearOrder T] (cast : LexicalCast T) :
      FromText yaml (set yaml cast).fromStr Tree.empty
  | unordered_set {T : Type} [DecidableEq T] (cast : LexicalCast T) :
      FromText yaml (unordered_set yaml cast).fromStr HashTable.empty
  | map {K V : Type} [LinearOrder K] (key : LexicalCast K) (cast : LexicalCast V) :
      FromText yaml (mapFromStr yaml key cast) Tree.empty
  | unordered_map {K V : Type} [DecidableEq K] (key : LexicalCast K) (cast : LexicalCast V) :
      FromText yaml (unordered_mapFromStr yaml key cast) HashTable.empty

section Scalar

variable {yaml : Yaml} {T C : Type} {str value : Str}

theorem fromItems_scalar (hload : yaml.load str = some (.scalar value)) (cast : LexicalCast T)
    (add : C → T → C) (vec : C) : fromItems yaml cast add vec str = some vec := by
  simp [fromItems, hload, Node.items]

theorem fromEntriesOf_scalar {K : Type} (hload : yaml.load str = some (.scalar value))
    (key : LexicalCast K) (cast : LexicalCast T) (insert : C → K × T → C) (mp : C) :
    fromEntriesOf yaml key cast insert mp str = some mp := by
  simp [fromEntriesOf, hload, Node.entries]

/-- A scalar is converted to the empty container. -/
theorem FromText.scalar {FromStr : Str → Option C} {empty : C} (h : FromText yaml FromStr empty)
    (hload : yaml.load str = some (.scalar value)) : FromStr str = some empty := by
  cases h with
  | vector cast => exact fromItems_scalar hload cast _ _
  | list cast => exact fromItems_scalar hload cast _ _
  | set cast => exact fromItems_scalar hload cast _ _
  | unordered_set cast => exact fromItems_scalar hload cast _ _
  | map key cast => exact fromEntriesOf_scalar hload key cast _ _
  | unordered_map key cast => exact fromEntriesOf_scalar hload key cast _ _

end Scalar

namespace Callback.ConfigVar

variable {C W : Type}

/-- `fromString` returns false, and the value is the old one. -/
def Rejects (p : ConfigVar C W) (val : Str) (world : W) : Prop :=
  (p.fromString val world).result = false ∧ (p.fromString val world).var._val = p._val

/-- The change to `v` is one, and its callback throws and has put the old value back. -/
def Reverts (p : ConfigVar C W) (v : C) (world : W) : Prop :=
  p.eq v p._val = false ∧ ∃ cb ∈ p._cb,
    (cb p._val v v world).thrown = true ∧ (cb p._val v v world).val = p._val

theorem rejects_iff_of_some {p : ConfigVar C W} {val : Str} {v : C} (h : p.FromStr val = some v)
    (world : W) : p.Rejects val world ↔ p.Reverts v world := by
  rw [Rejects, Reverts, fromString_of_some h]
  by_cases heq : p.eq v p._val = true
  · simp [setValue_of_eq heq, heq]
  · rw [setValue_of_ne (Bool.eq_false_iff.mpr heq)]
    cases hcb : p._cb with
    | none => simp
    | some cb => simp [heq]

/-- **Scalars for containers.** Whatever the container and its value, the text of a scalar is rejected
only if the callback throws and has put the old value back, and so never without a callback. -/
theorem rejects_scalar_iff {yaml : Yaml} {p : ConfigVar C W} {empty : C}
    (h : FromText yaml p.FromStr empty) {val value : Str}
    (hload : yaml.load val = some (.scalar value)) (world : W) :
    p.Rejects val world ↔ p.Reverts empty world :=
  rejects_iff_of_some (h.scalar hload) world

/-- A list of two numbers without a callback. -/
def twoNumbers : ConfigVar (List Int) Unit where
  eq := fun x y => x == y
  FromStr := (vector yamlFlow (Leaf.cast .int)).fromStr
  _val := [1, 2]
  _cb := none

/-- A callback that does not take an empty list: it puts the old one back and throws. -/
def notEmpty : ConfigVar (List Int) Unit :=
  { twoNumbers with
    _cb := some fun oldVal newVal val world =>
      if newVal = [] then ⟨true, oldVal, world, [(newVal, oldVal)]⟩ else ⟨false, val, world, []⟩ }

theorem load_word : yamlFlow.load (bytes "abc") = some (.scalar (bytes "abc")) := rfl

theorem rejects_word_iff :
    notEmpty.Rejects (bytes "abc") () ∧ ¬ twoNumbers.Rejects (bytes "abc") () := by
  constructor
  · have hconv : FromText yamlFlow notEmpty.FromStr [] := .vector (Leaf.cast .int)
    rw [rejects_scalar_iff hconv load_word]
    exact ⟨rfl, _, rfl, rfl, rfl⟩
  · have hconv : FromText yamlFlow twoNumbers.FromStr [] := .vector (Leaf.cast .int)
    rw [rejects_scalar_iff hconv load_word]
    rintro ⟨-, cb, hcb, -⟩
    cases hcb

/-- The text `abc` gives true, and the two numbers are gone. -/
theorem not_rejects_scalar :
    ¬ ∀ (yaml : Yaml) (p : ConfigVar (List Int) Unit) (empty : List Int) (val value : Str),
      FromText yaml p.FromStr empty → yaml.load val = some (.scalar value) → p.Rejects val () := by
  intro hrejects
  have hreject := hrejects yamlFlow twoNumbers [] _ _ (.vector (Leaf.cast .int)) load_word
  exact absurd hreject.1 (by decide +kernel)

end Callback.ConfigVar

end CppUtils
