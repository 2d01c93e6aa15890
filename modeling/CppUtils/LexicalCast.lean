import CppUtils.Config
import CppUtils.Lib.Associative
import CppUtils.Lib.Numeral

/-!
# The conversions of `config/config.h`

Every container of conversions is a template here too: it takes the conversions of its elements. The
types they are instantiated with are codes, those with an `operator<`, which a `std::set` needs,
apart. An exception is a missing result. The last part says what the conversions assume of yaml-cpp
and of Boost.
-/

namespace CppUtils

open Associative

/-! ### Leaves -/

/-- A string that YAML reads as a plain string: letters, and not one of the words for null. -/
def IsWord (s : Str) : Prop :=
  s ≠ [] ∧ (∀ b ∈ s, (0x41 ≤ b ∧ b ≤ 0x5a) ∨ (0x61 ≤ b ∧ b ≤ 0x7a)) ∧
    s ∉ [bytes "null", bytes "Null", bytes "NULL"]

instance (s : Str) : Decidable (IsWord s) := inferInstanceAs (Decidable (_ ∧ _ ∧ _))

structure Word where
  val : Str
  isWord : IsWord val
deriving DecidableEq

instance : LinearOrder Word :=
  LinearOrder.lift' (fun w => w.val.map BitVec.toNat) fun w w' h => by
    cases w
    cases w'
    cases List.map_injective_iff.mpr (fun _ _ => BitVec.eq_of_toNat_eq) h
    rfl

inductive Leaf where
  | int
  | string

def Leaf.Val : Leaf → Type
  | .int => Int
  | .string => Word

instance : (l : Leaf) → LinearOrder l.Val
  | .int => inferInstanceAs (LinearOrder Int)
  | .string => inferInstanceAs (LinearOrder Word)

def minus : Byte := 0x2d

def decimal : List Byte := bytes "0123456789"

def Leaf.text : (l : Leaf) → l.Val → Str
  | .int => fun v => Numeral.writeSigned decimal 0 minus v
  | .string => Word.val

/-! ### Templates -/

structure LexicalCast (T : Type) where
  toStr : T → Option Str
  fromStr : Str → Option T

/-- `boost::lexical_cast` from and to strings. -/
abbrev Boost := (l : Leaf) → LexicalCast l.Val

def Node.push_back (node item : Node) : Option Node :=
  match node with
  | .null => some (.sequence [item])
  | .sequence items => some (.sequence (items ++ [item]))
  | .scalar _ | .map _ => none

/-- `node.force_insert(key, value)`, for a node that is null or a map. -/
def Node.force_insert (node : Node) (key : Str) (value : Node) : Option Node :=
  match node with
  | .null => some (.map [(key, value)])
  | .map entries => some (.map (entries ++ [(key, value)]))
  | .scalar _ | .sequence _ => none

/-- `node[0]`, `node[1]`, … up to `node.size()`; a map would be indexed by its keys, and is left
out. -/
def Node.items : Node → Option (List Node)
  | .null | .scalar _ => some []
  | .sequence items => some items
  | .map _ => none

/-- What `it->first` and `it->second` pass; the items of a sequence have no key. -/
def Node.entries : Node → Option (List (Str × Node))
  | .null | .scalar _ | .sequence [] => some []
  | .map entries => some entries
  | .sequence (_ :: _) => none

namespace LexicalCast

variable (yaml : Yaml) (boost : Boost) {T C : Type}

def pushItem (cast : LexicalCast T) (node : Node) (v : T) : Option Node := do
  node.push_back (← yaml.load (← cast.toStr v))

/-- The conversion of the elements of a container to the text of a sequence. -/
def toItems (cast : LexicalCast T) (vec : List T) : Option Str := do
  let node ← vec.foldlM (pushItem yaml cast) (← yaml.load (bytes "[]"))
  some (yaml.emit node)

def addItem (cast : LexicalCast T) (add : C → T → C) (vec : C) (item : Node) : Option C := do
  some (add vec (← cast.fromStr (yaml.emit item)))

/-- The conversion of the text of a sequence to a container, with its way to add an element. -/
def fromItems (cast : LexicalCast T) (add : C → T → C) (vec : C) (str : Str) : Option C := do
  let node ← yaml.load str
  (← node.items).foldlM (addItem yaml cast add) vec

def vector (cast : LexicalCast T) : LexicalCast (List T) where
  toStr := toItems yaml cast
  fromStr := fromItems yaml cast (fun vec v => vec ++ [v]) []

def list (cast : LexicalCast T) : LexicalCast (List T) where
  toStr := toItems yaml cast
  fromStr := fromItems yaml cast (fun vec v => vec ++ [v]) []

def set [LinearOrder T] (cast : LexicalCast T) : LexicalCast (Tree (id : T → T)) where
  toStr st := toItems yaml cast st.elems
  fromStr := fromItems yaml cast Tree.insert Tree.empty

def unordered_set [DecidableEq T] (cast : LexicalCast T) : LexicalCast (HashTable (id : T → T)) where
  toStr st := toItems yaml cast st.elems
  fromStr := fromItems yaml cast HashTable.insert HashTable.empty

def insertNode (k : Leaf) (valueNode : T → Option Node) (node : Node) (entry : k.Val × T) :
    Option Node := do
  node.force_insert (k.text entry.1) (← valueNode entry.2)

/-- The conversion of the entries of a container to the text of a map, with its way to get the node
of a value. -/
def toEntries (k : Leaf) (valueNode : T → Option Node) (mp : List (k.Val × T)) : Option Str := do
  let node ← mp.foldlM (insertNode k valueNode) .null
  some (yaml.emit node)

def insertEntry (k : Leaf) (cast : LexicalCast T) (insert : C → k.Val × T → C) (mp : C)
    (entry : Str × Node) : Option C := do
  some (insert mp (← (boost k).fromStr entry.1, ← cast.fromStr (yaml.emit entry.2)))

def fromEntries (k : Leaf) (cast : LexicalCast T) (insert : C → k.Val × T → C) (mp : C)
    (str : Str) : Option C := do
  let node ← yaml.load str
  (← node.entries).foldlM (insertEntry yaml boost k cast insert) mp

def map (k : Leaf) (cast : LexicalCast T) :
    LexicalCast (Tree (Prod.fst : k.Val × T → k.Val)) where
  toStr mp := toEntries yaml k (fun v => do yaml.load (← cast.toStr v)) mp.elems
  fromStr := fromEntries yaml boost k cast Tree.insert Tree.empty

/-- The values go into the node as they are. -/
def unordered_map (k v : Leaf) :
    LexicalCast (HashTable (Prod.fst : k.Val × v.Val → k.Val)) where
  toStr mp := toEntries yaml k (fun value => some (.scalar (v.text value))) mp.elems
  fromStr := fromEntries yaml boost k (boost v) HashTable.insert HashTable.empty

/-! Texts of maps whose keys are of any type. -/

section Keys

variable {K : Type}

def insertEntryOf (key : LexicalCast K) (cast : LexicalCast T) (insert : C → K × T → C) (mp : C)
    (entry : Str × Node) : Option C := do
  some (insert mp (← key.fromStr entry.1, ← cast.fromStr (yaml.emit entry.2)))

def fromEntriesOf (key : LexicalCast K) (cast : LexicalCast T) (insert : C → K × T → C) (mp : C)
    (str : Str) : Option C := do
  let node ← yaml.load str
  (← node.entries).foldlM (insertEntryOf yaml key cast insert) mp

/-- `LexicalCast<std::string, std::map<K, V>>` -/
def mapFromStr [LinearOrder K] (key : LexicalCast K) (cast : LexicalCast T) :
    Str → Option (Tree (Prod.fst : K × T → K)) :=
  fromEntriesOf yaml key cast Tree.insert Tree.empty

/-- `LexicalCast<std::string, std::unordered_map<K, V>>` -/
def unordered_mapFromStr [DecidableEq K] (key : LexicalCast K) (cast : LexicalCast T) :
    Str → Option (HashTable (Prod.fst : K × T → K)) :=
  fromEntriesOf yaml key cast HashTable.insert HashTable.empty

theorem map_fromStr (k : Leaf) (cast : LexicalCast T) :
    (map yaml boost k cast).fromStr = mapFromStr yaml (boost k) cast := rfl

theorem unordered_map_fromStr (k v : Leaf) :
    (unordered_map yaml boost k v).fromStr = unordered_mapFromStr yaml (boost k) (boost v) :=
  rfl

end Keys

end LexicalCast

/-! ### Instances -/

inductive OrderedTy where
  | leaf (l : Leaf)
  | vector (t : OrderedTy)
  | list (t : OrderedTy)
  | set (t : OrderedTy)
  | map (k : Leaf) (t : OrderedTy)

/-- A type and its `operator<`, which compares containers like the sequences of their elements. -/
structure Ordered where
  T : Type
  order : LinearOrder T

def OrderedTy.interp : OrderedTy → Ordered
  | .leaf l => ⟨l.Val, inferInstance⟩
  | .vector t | .list t => ⟨List t.interp.T, letI := t.interp.order; inferInstance⟩
  | .set t =>
      letI := t.interp.order
      ⟨Tree (id : t.interp.T → t.interp.T), Tree.linearOrder id Function.injective_id⟩
  | .map k t =>
      letI := t.interp.order
      ⟨Tree (Prod.fst : k.Val × t.interp.T → k.Val), Tree.linearOrder toLex toLex.injective⟩

abbrev OrderedTy.Val (t : OrderedTy) : Type := t.interp.T

instance (t : OrderedTy) : LinearOrder t.Val := t.interp.order

def OrderedTy.cast (yaml : Yaml) (boost : Boost) : (t : OrderedTy) → LexicalCast t.Val
  | .leaf l => boost l
  | .vector t => LexicalCast.vector yaml (t.cast yaml boost)
  | .list t => LexicalCast.list yaml (t.cast yaml boost)
  | .set t => LexicalCast.set yaml (t.cast yaml boost)
  | .map k t => LexicalCast.map yaml boost k (t.cast yaml boost)

inductive Ty where
  | ordered (t : OrderedTy)
  | vector (t : Ty)
  | list (t : Ty)
  | map (k : Leaf) (t : Ty)
  | unordered_set (k : Leaf)
  | unordered_map (k v : Leaf)

def Ty.Val : Ty → Type
  | .ordered t => t.Val
  | .vector t | .list t => List t.Val
  | .map k t => Tree (Prod.fst : k.Val × t.Val → k.Val)
  | .unordered_set k => HashTable (id : k.Val → k.Val)
  | .unordered_map k v => HashTable (Prod.fst : k.Val × v.Val → k.Val)

/-- `operator==`, which does not see the order of a hash table. -/
def Ty.eq : (t : Ty) → t.Val → t.Val → Bool
  | .ordered t => fun x y : t.Val => decide (x = y)
  | .vector t | .list t => fun x y => List.isEqv x y t.eq
  | .map _ t => fun x y => List.isEqv x.elems y.elems fun a b => a.1 = b.1 && t.eq a.2 b.2
  | .unordered_set _ => fun x y => x.elems.isPerm y.elems
  | .unordered_map _ _ => fun x y => x.elems.isPerm y.elems

def Ty.cast (yaml : Yaml) (boost : Boost) : (t : Ty) → LexicalCast t.Val
  | .ordered t => t.cast yaml boost
  | .vector t => LexicalCast.vector yaml (t.cast yaml boost)
  | .list t => LexicalCast.list yaml (t.cast yaml boost)
  | .map k t => LexicalCast.map yaml boost k (t.cast yaml boost)
  | .unordered_set k => LexicalCast.unordered_set yaml (boost k)
  | .unordered_map k v => LexicalCast.unordered_map yaml boost k v

def ConfigVar.ofTy {W : Type} (yaml : Yaml) (boost : Boost) (t : Ty) (val : t.Val)
    (_cb : Option (t.Val → t.Val → t.Val → W → t.Val × W)) : ConfigVar W where
  T := t.Val
  eq := t.eq
  ToStr := (t.cast yaml boost).toStr
  FromStr := (t.cast yaml boost).fromStr
  _val := val
  _cb := _cb

/-! ### What is assumed of yaml-cpp and Boost -/

def IsPlain (s : Str) : Prop := ∃ (l : Leaf) (v : l.Val), s = l.text v

/-- A tree whose scalars and keys are texts of leaves. -/
inductive Node.Plain : Node → Prop
  | null : Plain .null
  | scalar {value : Str} (h : IsPlain value) : Plain (.scalar value)
  | sequence {items : List Node} (h : ∀ item ∈ items, Plain item) : Plain (.sequence items)
  | map {entries : List (Str × Node)} (hkeys : ∀ entry ∈ entries, IsPlain entry.1)
      (hvalues : ∀ entry ∈ entries, Plain entry.2) : Plain (.map entries)

structure Yaml.Lawful (yaml : Yaml) : Prop where
  load_emit : ∀ node, node.Plain → yaml.load (yaml.emit node) = some node
  emit_scalar : ∀ value, IsPlain value → yaml.emit (.scalar value) = value
  load_brackets : yaml.load (bytes "[]") = some (.sequence [])

/-- `boost::lexical_cast` is exact on the leaves. -/
structure Boost.Lawful (boost : Boost) : Prop where
  toStr_eq : ∀ l v, (boost l).toStr v = some (l.text v)
  fromStr_text : ∀ (l : Leaf) v, (boost l).fromStr (l.text v) = some v

/-- A `boost::lexical_cast` that takes no other strings. -/
def Leaf.cast : Boost
  | .int => ⟨fun v => some (Leaf.text .int v), Numeral.readSigned decimal minus⟩
  | .string => ⟨fun w => some w.val, fun s => if h : IsWord s then some ⟨s, h⟩ else none⟩

end CppUtils
