import CppUtils.Proof.YamlFlow

/-!
# The conversions of containers are inverse

A template is followed once, for whatever conversion its elements have: if an element comes back
through the node its text stands for, then so does the container. What comes back is the list of the
elements, added one by one to an empty container, and that is the container again, since it passes
its elements in the order of their keys, or in an order that `==` does not see. An induction over
the types then gives every instance.
-/

namespace CppUtils

open Associative

/-! ### Leaves -/

/-- Whatever is converted comes back, up to `eq`, through a plain node. -/
def LexicalCast.Inverse {T : Type} (yaml : Yaml) (cast : LexicalCast T) (eq : T → T → Prop) :
    Prop :=
  ∀ v, ∃ node, node.Plain ∧ cast.toStr v = some (yaml.emit node) ∧
    ∃ v', cast.fromStr (yaml.emit node) = some v' ∧ eq v' v

theorem LexicalCast.Inverse.imp {T : Type} {yaml : Yaml} {cast : LexicalCast T}
    {eq eq' : T → T → Prop} (h : cast.Inverse yaml eq) (himp : ∀ x y, eq x y → eq' x y) :
    cast.Inverse yaml eq' := by
  intro v
  obtain ⟨node, hplain, hto, v', hfrom, heq⟩ := h v
  exact ⟨node, hplain, hto, v', hfrom, himp v' v heq⟩

theorem Leaf.lawful_cast : Boost.Lawful Leaf.cast where
  toStr_eq l v := by
    cases l <;> rfl
  fromStr_text l v := by
    cases l with
    | int =>
        exact Numeral.readSigned_writeSigned (by decide +kernel) (by decide +kernel) 0
          (by decide +kernel) v
    | string => exact dif_pos v.isWord

theorem Boost.Lawful.inverse {yaml : Yaml} {boost : Boost} (hboost : boost.Lawful)
    (h : yaml.Lawful) (l : Leaf) : (boost l).Inverse yaml (· = ·) := by
  intro v
  have hplain : IsPlain (l.text v) := ⟨l, v, rfl⟩
  refine ⟨.scalar (l.text v), .scalar hplain, ?_, v, ?_, rfl⟩
  · rw [h.emit_scalar _ hplain, hboost.toStr_eq]
  · rw [h.emit_scalar _ hplain, hboost.fromStr_text]

/-! ### Sequences -/

section Items

variable {yaml : Yaml} {T C : Type} {cast : LexicalCast T} {eq : T → T → Prop}

/-- The loop that builds a sequence, and the one that takes it apart. -/
theorem LexicalCast.foldlM_items (h : yaml.Lawful) (hcast : cast.Inverse yaml eq) (vec : List T)
    (items : List Node) : ∃ nodes, (∀ item ∈ nodes, item.Plain) ∧
      vec.foldlM (pushItem yaml cast) (.sequence items) = some (.sequence (items ++ nodes)) ∧
      ∃ vec', List.Forall₂ eq vec' vec ∧ ∀ (add : C → T → C) (c : C),
        nodes.foldlM (addItem yaml cast add) c = some (vec'.foldl add c) := by
  induction vec generalizing items with
  | nil => exact ⟨[], nofun, by simp, [], .nil, fun _ _ => rfl⟩
  | cons v vec ih =>
      obtain ⟨node, hplain, hto, v', hfrom, heq⟩ := hcast v
      obtain ⟨nodes, hnodes, hpush, vec', hvec, hadd⟩ := ih (items ++ [node])
      have hitem : pushItem yaml cast (.sequence items) v = some (.sequence (items ++ [node])) := by
        rw [pushItem, hto, Option.bind_eq_bind, Option.bind_some, h.load_emit node hplain]
        rfl
      refine ⟨node :: nodes, ?_, ?_, v' :: vec', .cons heq hvec, ?_⟩
      · exact List.forall_mem_cons.mpr ⟨hplain, hnodes⟩
      · rw [List.foldlM_cons, hitem, Option.bind_eq_bind, Option.bind_some, hpush,
          List.append_assoc]
        rfl
      · intro add c
        have hitem' : addItem yaml cast add c node = some (add c v') := by
          rw [addItem, hfrom]
          rfl
        rw [List.foldlM_cons, hitem', Option.bind_eq_bind, Option.bind_some, hadd]
        rfl

/-- The text of a sequence is that of a plain node, and brings the elements back one by one. -/
theorem LexicalCast.toItems_spec (h : yaml.Lawful) (hcast : cast.Inverse yaml eq) (vec : List T) :
    ∃ node, node.Plain ∧ toItems yaml cast vec = some (yaml.emit node) ∧
      ∃ vec', List.Forall₂ eq vec' vec ∧ ∀ (add : C → T → C) (c : C),
        fromItems yaml cast add c (yaml.emit node) = some (vec'.foldl add c) := by
  obtain ⟨nodes, hnodes, hpush, vec', hvec, hadd⟩ := foldlM_items (C := C) h hcast vec []
  refine ⟨.sequence nodes, .sequence hnodes, ?_, vec', hvec, fun add c => ?_⟩
  · rw [toItems, h.load_brackets, Option.bind_eq_bind, Option.bind_some, hpush]
    rfl
  · rw [fromItems, h.load_emit _ (.sequence hnodes)]
    exact hadd add c

theorem foldl_append_singleton (vec vec' : List T) :
    vec'.foldl (fun vec v => vec ++ [v]) vec = vec ++ vec' := by
  induction vec' generalizing vec with
  | nil => simp
  | cons v vec' ih => rw [List.foldl_cons, ih, List.append_assoc, List.singleton_append]

theorem LexicalCast.vector_inverse (h : yaml.Lawful) (hcast : cast.Inverse yaml eq) :
    (vector yaml cast).Inverse yaml (List.Forall₂ eq) := by
  intro vec
  obtain ⟨node, hplain, hto, vec', hvec, hfrom⟩ := toItems_spec (C := List T) h hcast vec
  refine ⟨node, hplain, hto, vec', ?_, hvec⟩
  exact (hfrom _ []).trans (congrArg some (foldl_append_singleton [] vec'))

theorem LexicalCast.list_inverse (h : yaml.Lawful) (hcast : cast.Inverse yaml eq) :
    (list yaml cast).Inverse yaml (List.Forall₂ eq) :=
  vector_inverse h hcast

theorem LexicalCast.set_inverse [LinearOrder T] (h : yaml.Lawful)
    (hcast : cast.Inverse yaml (· = ·)) : (set yaml cast).Inverse yaml (· = ·) := by
  intro st
  obtain ⟨node, hplain, hto, vec', hvec, hfrom⟩ := toItems_spec (C := Tree (id : T → T)) h hcast st.elems
  rw [List.forall₂_eq_eq_eq] at hvec
  subst hvec
  refine ⟨node, hplain, hto, _, hfrom _ Tree.empty, ?_⟩
  exact Tree.ext (Tree.foldl_insert st.sorted)

theorem LexicalCast.unordered_set_inverse [DecidableEq T] (h : yaml.Lawful)
    (hcast : cast.Inverse yaml (· = ·)) :
    (unordered_set yaml cast).Inverse yaml fun s s' => s.elems.Perm s'.elems := by
  intro st
  obtain ⟨node, hplain, hto, vec', hvec, hfrom⟩ :=
    toItems_spec (C := HashTable (id : T → T)) h hcast st.elems
  rw [List.forall₂_eq_eq_eq] at hvec
  subst hvec
  exact ⟨node, hplain, hto, _, hfrom _ HashTable.empty, HashTable.foldl_insert st.nodup⟩

end Items

/-! ### Maps -/

def ofEntries (entries : List (Str × Node)) : Node :=
  if entries.isEmpty then .null else .map entries

theorem force_insert_ofEntries (entries : List (Str × Node)) (key : Str) (value : Node) :
    (ofEntries entries).force_insert key value = some (ofEntries (entries ++ [(key, value)])) := by
  cases entries with
  | nil => rfl
  | cons entry entries => rfl

theorem entries_ofEntries (entries : List (Str × Node)) :
    (ofEntries entries).entries = some entries := by
  cases entries with
  | nil => rfl
  | cons entry entries => rfl

theorem plain_ofEntries {entries : List (Str × Node)}
    (h : ∀ entry ∈ entries, IsPlain entry.1 ∧ entry.2.Plain) : (ofEntries entries).Plain := by
  cases entries with
  | nil => exact .null
  | cons entry entries => exact .map (fun e he => (h e he).1) fun e he => (h e he).2

section Entries

variable {yaml : Yaml} {boost : Boost} {T C : Type} {k : Leaf} {cast : LexicalCast T} {eq : T → T → Prop}
  {valueNode : T → Option Node}

def EntryEq (k : Leaf) (eq : T → T → Prop) (a b : k.Val × T) : Prop := a.1 = b.1 ∧ eq a.2 b.2

theorem EntryEq.ext {a b : k.Val × T} (h : EntryEq k (· = ·) a b) : a = b :=
  Prod.ext h.1 h.2

theorem map_fst_of_forall₂ {mp mp' : List (k.Val × T)} (h : List.Forall₂ (EntryEq k eq) mp mp') :
    mp.map Prod.fst = mp'.map Prod.fst := by
  induction h with
  | nil => rfl
  | cons hentry _ ih => rw [List.map_cons, List.map_cons, hentry.1, ih]

/-- A value's node, from which the value comes back. -/
def NodeInverse (yaml : Yaml) (valueNode : T → Option Node) (cast : LexicalCast T)
    (eq : T → T → Prop) : Prop :=
  ∀ v, ∃ node, node.Plain ∧ valueNode v = some node ∧
    ∃ v', cast.fromStr (yaml.emit node) = some v' ∧ eq v' v

theorem LexicalCast.foldlM_entries (hboost : boost.Lawful) (hvalue : NodeInverse yaml valueNode cast eq)
    (mp : List (k.Val × T)) (entries : List (Str × Node)) :
    ∃ nodes, (∀ entry ∈ nodes, IsPlain entry.1 ∧ entry.2.Plain) ∧
      mp.foldlM (insertNode k valueNode) (ofEntries entries) =
        some (ofEntries (entries ++ nodes)) ∧
      ∃ mp', List.Forall₂ (EntryEq k eq) mp' mp ∧ ∀ (insert : C → k.Val × T → C) (c : C),
        nodes.foldlM (insertEntry yaml boost k cast insert) c = some (mp'.foldl insert c) := by
  induction mp generalizing entries with
  | nil => exact ⟨[], nofun, by simp, [], .nil, fun _ _ => rfl⟩
  | cons entry mp ih =>
      obtain ⟨key, v⟩ := entry
      obtain ⟨node, hplain, hnode, v', hfrom, heq⟩ := hvalue v
      obtain ⟨nodes, hnodes, hinsert, mp', hmp, hadd⟩ := ih (entries ++ [(k.text key, node)])
      have hentry : insertNode k valueNode (ofEntries entries) (key, v) =
          some (ofEntries (entries ++ [(k.text key, node)])) := by
        rw [insertNode, hnode, Option.bind_eq_bind, Option.bind_some, force_insert_ofEntries]
      refine ⟨(k.text key, node) :: nodes, ?_, ?_, (key, v') :: mp', .cons ⟨rfl, heq⟩ hmp, ?_⟩
      · exact List.forall_mem_cons.mpr ⟨⟨⟨k, key, rfl⟩, hplain⟩, hnodes⟩
      · rw [List.foldlM_cons, hentry, Option.bind_eq_bind, Option.bind_some, hinsert,
          List.append_assoc]
        rfl
      · intro insert c
        have hentry' : insertEntry yaml boost k cast insert c (k.text key, node) =
            some (insert c (key, v')) := by
          rw [insertEntry, hboost.fromStr_text, hfrom]
          rfl
        rw [List.foldlM_cons, hentry', Option.bind_eq_bind, Option.bind_some, hadd]
        rfl

theorem LexicalCast.toEntries_spec (h : yaml.Lawful) (hboost : boost.Lawful)
    (hvalue : NodeInverse yaml valueNode cast eq)
    (mp : List (k.Val × T)) :
    ∃ node, node.Plain ∧ toEntries yaml k valueNode mp = some (yaml.emit node) ∧
      ∃ mp', List.Forall₂ (EntryEq k eq) mp' mp ∧ ∀ (insert : C → k.Val × T → C) (c : C),
        fromEntries yaml boost k cast insert c (yaml.emit node) = some (mp'.foldl insert c) := by
  obtain ⟨nodes, hnodes, hinsert, mp', hmp, hadd⟩ := foldlM_entries (C := C) hboost hvalue mp []
  have hplain := plain_ofEntries hnodes
  refine ⟨ofEntries nodes, hplain, ?_, mp', hmp, fun insert c => ?_⟩
  · rw [toEntries, show Node.null = ofEntries [] from rfl, hinsert]
    rfl
  · rw [fromEntries, h.load_emit _ hplain, Option.bind_eq_bind, Option.bind_some,
      entries_ofEntries]
    exact hadd insert c

theorem LexicalCast.map_inverse (h : yaml.Lawful) (hboost : boost.Lawful)
    (hcast : cast.Inverse yaml eq) :
    (map yaml boost k cast).Inverse yaml fun m m' =>
      List.Forall₂ (EntryEq k eq) m.elems m'.elems := by
  intro mp
  have hvalue : NodeInverse yaml (fun v => do yaml.load (← cast.toStr v)) cast eq := by
    intro v
    obtain ⟨node, hplain, hto, hfrom⟩ := hcast v
    refine ⟨node, hplain, ?_, hfrom⟩
    beta_reduce
    rw [hto]
    exact h.load_emit node hplain
  obtain ⟨node, hplain, hto, mp', hmp, hfrom⟩ :=
    toEntries_spec (C := Tree (Prod.fst : k.Val × T → k.Val)) h hboost hvalue mp.elems
  have hsorted : SortedKeys.Sorted Prod.fst mp' := by
    have hkeys := map_fst_of_forall₂ hmp
    have hmap := List.pairwise_map.mpr mp.sorted
    rw [← hkeys] at hmap
    exact List.pairwise_map.mp hmap
  refine ⟨node, hplain, hto, _, hfrom _ Tree.empty, ?_⟩
  beta_reduce
  rw [Tree.foldl_insert hsorted]
  exact hmp

theorem LexicalCast.unordered_map_inverse (h : yaml.Lawful) (hboost : boost.Lawful) (k v : Leaf) :
    (unordered_map yaml boost k v).Inverse yaml fun m m' => m.elems.Perm m'.elems := by
  intro mp
  have hvalue : NodeInverse yaml (fun value => some (.scalar (v.text value))) (boost v)
      (· = ·) := by
    intro value
    have hplain : IsPlain (v.text value) := ⟨v, value, rfl⟩
    refine ⟨_, .scalar hplain, rfl, value, ?_, rfl⟩
    rw [h.emit_scalar _ hplain, hboost.fromStr_text]
  obtain ⟨node, hplain, hto, mp', hmp, hfrom⟩ :=
    toEntries_spec (C := HashTable (Prod.fst : k.Val × v.Val → k.Val)) h hboost hvalue mp.elems
  have hentries := hmp.imp fun a b => EntryEq.ext
  rw [List.forall₂_eq_eq_eq] at hentries
  subst hentries
  exact ⟨node, hplain, hto, _, hfrom _ HashTable.empty, HashTable.foldl_insert mp.nodup⟩

end Entries

/-! ### All types -/

theorem OrderedTy.inverse {yaml : Yaml} {boost : Boost} (h : yaml.Lawful) (hboost : boost.Lawful)
    (t : OrderedTy) : (t.cast yaml boost).Inverse yaml (· = ·) := by
  induction t with
  | leaf l => exact hboost.inverse h l
  | vector t ih =>
      apply (LexicalCast.vector_inverse h ih).imp
      exact fun vec vec' hvec => List.forall₂_eq_eq_eq ▸ hvec
  | list t ih =>
      apply (LexicalCast.list_inverse h ih).imp
      exact fun vec vec' hvec => List.forall₂_eq_eq_eq ▸ hvec
  | set t ih => exact LexicalCast.set_inverse h ih
  | map k t ih =>
      apply (LexicalCast.map_inverse h hboost ih).imp
      intro m m' hmp
      have helems := hmp.imp fun a b => EntryEq.ext
      rw [List.forall₂_eq_eq_eq] at helems
      exact Tree.ext helems

theorem isEqv_of_forall₂ {α : Type} {r : α → α → Bool} {l l' : List α}
    (h : List.Forall₂ (fun a b => r a b = true) l l') : l.isEqv l' r = true := by
  induction h with
  | nil => rfl
  | cons hab _ ih => rw [List.isEqv, hab, ih, Bool.and_self]

theorem Ty.eq_ordered {t : OrderedTy} {x y : t.Val} (h : x = y) :
    Ty.eq (.ordered t) x y = true :=
  decide_eq_true h

theorem Ty.inverse {yaml : Yaml} {boost : Boost} (h : yaml.Lawful) (hboost : boost.Lawful)
    (t : Ty) : (t.cast yaml boost).Inverse yaml fun x y => t.eq x y = true := by
  induction t with
  | ordered t =>
      apply (t.inverse h hboost).imp
      exact fun x y => Ty.eq_ordered
  | vector t ih =>
      apply (LexicalCast.vector_inverse h ih).imp
      exact fun vec vec' => isEqv_of_forall₂
  | list t ih =>
      apply (LexicalCast.list_inverse h ih).imp
      exact fun vec vec' => isEqv_of_forall₂
  | map k t ih =>
      apply (LexicalCast.map_inverse h hboost ih).imp
      intro m m' hmp
      apply isEqv_of_forall₂
      refine hmp.imp fun a b hab => ?_
      rw [Bool.and_eq_true, decide_eq_true_eq]
      exact hab
  | unordered_set k =>
      apply (LexicalCast.unordered_set_inverse h (hboost.inverse h k)).imp
      exact fun s s' => List.isPerm_iff.mpr
  | unordered_map k v =>
      apply (LexicalCast.unordered_map_inverse h hboost k v).imp
      exact fun m m' => List.isPerm_iff.mpr

/-- **The conversions are inverse.** A value of any of the types comes back equal, and a variable
that is set from its own text stays as it is. -/
theorem lexicalCast_round_trip {yaml : Yaml} {boost : Boost} (h : yaml.Lawful)
    (hboost : boost.Lawful) (t : Ty) (c : t.Val) :
    (∃ str c', (t.cast yaml boost).toStr c = some str ∧
      (t.cast yaml boost).fromStr str = some c' ∧ t.eq c' c = true) ∧
    ∀ (W : Type) (_cb : Option (t.Val → t.Val → t.Val → W → t.Val × W)) (world : W),
      let p := ConfigVar.ofTy yaml boost t c _cb
      p.fromString p.toString world = (true, p, world) := by
  obtain ⟨node, -, hto, c', hfrom, heq⟩ := t.inverse h hboost c
  refine ⟨⟨_, c', hto, hfrom, heq⟩, fun W _cb world => ?_⟩
  intro p
  have hto' : p.ToStr p._val = some (yaml.emit node) := hto
  have hfrom' : p.FromStr (yaml.emit node) = some c' := hfrom
  have heq' : p.eq c' p._val = true := heq
  have htext : p.toString = yaml.emit node := by
    rw [ConfigVar.toString, hto']
  have hset : p.setValue c' world = (p, world) := if_pos heq'
  rw [htext, ConfigVar.fromString, hfrom']
  exact congrArg (Prod.mk true) hset

theorem lexicalCast_round_trip_vectors :
    let t : Ty := .vector (.vector (.ordered (.leaf .int)))
    let c : t.Val := [[(1 : Int), (2 : Int)], []]
    (t.cast yamlFlow Leaf.cast).toStr c = some (bytes "[[1, 2], []]") ∧
    (∃ str c', (t.cast yamlFlow Leaf.cast).toStr c = some str ∧
      (t.cast yamlFlow Leaf.cast).fromStr str = some c' ∧ t.eq c' c = true) ∧
    (ConfigVar.ofTy (W := Unit) yamlFlow Leaf.cast t c none).fromString
      (bytes "[[1, 2], []]") () = (true, ConfigVar.ofTy yamlFlow Leaf.cast t c none, ()) := by
  intro t c
  have htext : (t.cast yamlFlow Leaf.cast).toStr c = some (bytes "[[1, 2], []]") := by decide +kernel
  obtain ⟨hround, hvar⟩ := lexicalCast_round_trip lawful_yamlFlow Leaf.lawful_cast t c
  refine ⟨htext, hround, ?_⟩
  have hstring : (ConfigVar.ofTy (W := Unit) yamlFlow Leaf.cast t c none).toString =
      bytes "[[1, 2], []]" := by decide +kernel
  rw [← hstring]
  exact hvar Unit none ()

end CppUtils
