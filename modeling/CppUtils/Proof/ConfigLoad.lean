import CppUtils.Proof.YamlFlow
import Mathlib.Data.List.Nodup

/-!
# Loading a document sets the variables it names

`listAllNodes` lists the nodes under the paths of keys, each with the keys joined by dots. Keys
without dots can be read back from the joined name, so a name stands for one path and, the keys of
a map being distinct, for one node. The loop therefore gives every variable at most one text,
whatever else the document holds. A callback that sets its own variable has the last word there.
-/

namespace CppUtils

/-! ### Paths -/

inductive Node.At : Node → List Str → Node → Prop
  | root (node : Node) : At node [] node
  | key {entries : List (Str × Node)} {key : Str} {value node : Node} {path : List Str}
      (hentry : (key, value) ∈ entries) (rest : At value path node) :
      At (.map entries) (key :: path) node

/-- The keys of every map that a path leads to are distinct, not empty and free of dots. -/
inductive Node.WellKeyed : Node → Prop
  | null : WellKeyed .null
  | scalar (value : Str) : WellKeyed (.scalar value)
  | sequence (items : List Node) : WellKeyed (.sequence items)
  | map {entries : List (Str × Node)} (hnodup : (entries.map Prod.fst).Nodup)
      (hkeys : ∀ entry ∈ entries, entry.1 ≠ [] ∧ dot ∉ entry.1)
      (hvalues : ∀ entry ∈ entries, WellKeyed entry.2) : WellKeyed (.map entries)

def dottedName (path : List Str) : Str := [dot].intercalate path

theorem Node.WellKeyed.keys_of_at {root node : Node} {path : List Str} (hroot : root.WellKeyed)
    (h : root.At path node) : ∀ key ∈ path, key ≠ [] ∧ dot ∉ key := by
  induction h with
  | root => exact nofun
  | key hentry _ ih =>
      cases hroot with
      | map _ hkeys hvalues =>
          intro key hkey
          rcases List.mem_cons.mp hkey with rfl | hkey
          · exact hkeys _ hentry
          · exact ih (hvalues _ hentry) key hkey

theorem Node.WellKeyed.at_unique {root node node' : Node} {path : List Str}
    (hroot : root.WellKeyed) (h : root.At path node) (h' : root.At path node') : node = node' := by
  induction h with
  | root =>
      cases h'
      rfl
  | key hentry _ ih =>
      cases hroot with
      | map hnodup _ hvalues =>
          cases h' with
          | key hentry' rest' =>
              cases List.inj_on_of_nodup_map hnodup hentry hentry' rfl
              exact ih (hvalues _ hentry) rest'

theorem dottedName_cons (key : Str) (path : List Str) :
    dottedName (key :: path) = key ++ path.flatMap (dot :: ·) := by
  induction path generalizing key with
  | nil => simp [dottedName, List.intercalate]
  | cons next path ih =>
      have hnext := ih next
      rw [dottedName, List.intercalate] at hnext ⊢
      simp only [List.intersperse_cons_cons, List.flatten_cons, List.flatMap_cons] at hnext ⊢
      rw [hnext]
      rfl

theorem foldl_childName {name : Str} (hname : name ≠ []) (path : List Str) :
    path.foldl childName name = name ++ path.flatMap (dot :: ·) := by
  induction path generalizing name with
  | nil => simp
  | cons key path ih =>
      have hempty : name.isEmpty = false := by simpa using hname
      rw [List.foldl_cons, childName, hempty, if_neg Bool.false_ne_true, ih (by simp)]
      simp

/-- The names that `listAllNodes` builds from the empty one. -/
theorem foldl_childName_nil {path : List Str} (hkeys : ∀ key ∈ path, key ≠ [] ∧ dot ∉ key) :
    path.foldl childName [] = dottedName path := by
  cases path with
  | nil => rfl
  | cons key path =>
      have hkey := (hkeys key List.mem_cons_self).1
      rw [dottedName_cons, ← foldl_childName hkey]
      rfl

theorem dottedName_ne_nil {path : List Str} (hne : path ≠ [])
    (hkeys : ∀ key ∈ path, key ≠ [] ∧ dot ∉ key) : dottedName path ≠ [] := by
  obtain ⟨key, path, rfl⟩ := List.exists_cons_of_ne_nil hne
  rw [dottedName_cons]
  exact fun h => (hkeys key List.mem_cons_self).1 (List.append_eq_nil_iff.mp h).1

theorem dottedName_inj {path path' : List Str} (hne : path ≠ []) (hne' : path' ≠ [])
    (hkeys : ∀ key ∈ path, key ≠ [] ∧ dot ∉ key) (hkeys' : ∀ key ∈ path', key ≠ [] ∧ dot ∉ key)
    (h : dottedName path = dottedName path') : path = path' := by
  calc path = (dottedName path).splitOn dot :=
        (List.splitOn_intercalate dot (fun key hkey => (hkeys key hkey).2) hne).symm
    _ = (dottedName path').splitOn dot := congrArg _ h
    _ = path' := List.splitOn_intercalate dot (fun key hkey => (hkeys' key hkey).2) hne'

/-! ### The list of all nodes -/

def ListedFrom (name : Str) (entries : List (Str × Node)) (nm : Str) (n : Node) : Prop :=
  ∃ entry ∈ entries, ∃ path, entry.2.At path n ∧
    nm = path.foldl childName (childName name entry.1)

theorem at_iff_of_not_map {node n : Node} {path : List Str}
    (hnode : ∀ entries, node ≠ .map entries) : node.At path n ↔ path = [] ∧ n = node := by
  constructor
  · rintro (_ | ⟨hentry, rest⟩)
    · exact ⟨rfl, rfl⟩
    · exact absurd rfl (hnode _)
  · rintro ⟨rfl, rfl⟩
    exact .root n

theorem at_map_iff {entries : List (Str × Node)} {n : Node} {name nm : Str} :
    (∃ path, (Node.map entries).At path n ∧ nm = path.foldl childName name) ↔
      (nm, n) = (name, .map entries) ∨ ListedFrom name entries nm n := by
  constructor
  · rintro ⟨path, _ | ⟨hentry, rest⟩, hnm⟩
    · exact .inl (by rw [hnm]; rfl)
    · exact .inr ⟨_, hentry, _, rest, hnm⟩
  · rintro (heq | ⟨⟨key, value⟩, hentry, path, rest, hnm⟩)
    · cases heq
      exact ⟨[], .root _, rfl⟩
    · exact ⟨key :: path, .key hentry rest, hnm⟩

mutual

theorem mem_listAllNodes {name nm : Str} {node n : Node} {allNodes : List (Str × Node)} :
    (nm, n) ∈ listAllNodes name node allNodes ↔
      (nm, n) ∈ allNodes ∨ ∃ path, node.At path n ∧ nm = path.foldl childName name := by
  have hleaf : (∀ entries, node ≠ .map entries) → ((nm, n) ∈ allNodes ++ [(name, node)] ↔
      (nm, n) ∈ allNodes ∨ ∃ path, node.At path n ∧ nm = path.foldl childName name) := by
    intro hnode
    simp only [List.mem_append, List.mem_singleton, Prod.mk.injEq, at_iff_of_not_map hnode]
    constructor
    · rintro (hmem | ⟨rfl, rfl⟩)
      · exact .inl hmem
      · exact .inr ⟨[], ⟨rfl, rfl⟩, rfl⟩
    · rintro (hmem | ⟨path, ⟨rfl, rfl⟩, rfl⟩)
      · exact .inl hmem
      · exact .inr ⟨rfl, rfl⟩
  match node with
  | .null => exact hleaf nofun
  | .scalar _ => exact hleaf nofun
  | .sequence _ => exact hleaf nofun
  | .map entries =>
      rw [listAllNodes, mem_listEntries, at_map_iff, List.mem_append, List.mem_singleton, or_assoc]

theorem mem_listEntries {name nm : Str} {entries : List (Str × Node)} {n : Node}
    {allNodes : List (Str × Node)} :
    (nm, n) ∈ listEntries name entries allNodes ↔
      (nm, n) ∈ allNodes ∨ ListedFrom name entries nm n := by
  match entries with
  | [] => simp [listEntries, ListedFrom]
  | (key, value) :: entries =>
      rw [listEntries, mem_listEntries, mem_listAllNodes, or_assoc]
      apply or_congr_right
      simp only [ListedFrom, List.mem_cons, exists_eq_or_imp]

end

/-- What the loop finds in the list, and nothing else, for a document with proper keys. -/
theorem mem_listAllNodes_root {root n : Node} {nm : Str} (hroot : root.WellKeyed) :
    (nm, n) ∈ listAllNodes [] root [] ↔ ∃ path, root.At path n ∧ nm = dottedName path := by
  rw [mem_listAllNodes]
  simp only [List.not_mem_nil, false_or]
  apply exists_congr
  intro path
  apply and_congr_right
  intro hat
  rw [foldl_childName_nil (hroot.keys_of_at hat)]

/-! ### The loop -/

section Loop

variable {W : Type} {yaml : Yaml}

/-- The variable `p` with the value `v`, or with one that `==` does not tell from `v`. -/
def ConfigVar.HasValue (p : ConfigVar W) (v : p.T) (p' : ConfigVar W) : Prop :=
  ∃ v', p' = { p with _val := v' } ∧ (v' = v ∨ p.eq v v' = true)

def ConfigVar.loaded (p : ConfigVar W) (text : Str) : ConfigVar W :=
  match p.FromStr text with
  | some v => if p.eq v p._val then p else { p with _val := v }
  | none => p

/-- The callback leaves the variable alone. -/
def ConfigVar.Quiet (p : ConfigVar W) : Prop :=
  ∀ cb ∈ p._cb, ∀ oldVal newVal val world, (cb oldVal newVal val world).1 = val

theorem ConfigVar.Quiet.fromString_eq {p : ConfigVar W} (h : p.Quiet) (text : Str) (world : W) :
    (p.fromString text world).2.1 = p.loaded text := by
  cases hconv : p.FromStr text with
  | none => simp only [fromString, loaded, hconv]
  | some v =>
      by_cases heq : p.eq v p._val = true
      · simp only [fromString, loaded, hconv, setValue, heq, if_true]
      · simp only [fromString, loaded, hconv, setValue, heq]
        cases hcb : p._cb with
        | none => rfl
        | some cb =>
            have hval : (cb p._val v v world).1 = v := h cb hcb _ _ _ _
            simp [hval]

theorem ConfigVar.loaded_of_none {p : ConfigVar W} {text : Str} (h : p.FromStr text = none) :
    p.loaded text = p := by
  rw [loaded, h]

theorem ConfigVar.loaded_of_eq {p : ConfigVar W} {text : Str} {v : p.T}
    (h : p.FromStr text = some v) (heq : p.eq v p._val = true) : p.loaded text = p := by
  rw [loaded, h]
  exact if_pos heq

theorem ConfigVar.loaded_of_ne {p : ConfigVar W} {text : Str} {v : p.T}
    (h : p.FromStr text = some v) (hne : p.eq v p._val ≠ true) :
    p.loaded text = { p with _val := v } := by
  rw [loaded, h]
  exact if_neg hne

theorem ConfigVar.loaded_of_some {p : ConfigVar W} {text : Str} {v : p.T}
    (h : p.FromStr text = some v) : p.HasValue v (p.loaded text) := by
  by_cases heq : p.eq v p._val = true
  · rw [loaded_of_eq h heq]
    exact ⟨p._val, rfl, .inr heq⟩
  · rw [loaded_of_ne h heq]
    exact ⟨v, rfl, .inl rfl⟩

theorem ConfigVar.loaded_loaded (p : ConfigVar W) (text : Str) :
    (p.loaded text).loaded text = p.loaded text := by
  cases hconv : p.FromStr text with
  | none => rw [loaded_of_none hconv, loaded_of_none hconv]
  | some v =>
      by_cases heq : p.eq v p._val = true
      · rw [loaded_of_eq hconv heq, loaded_of_eq hconv heq]
      · rw [loaded_of_ne hconv heq]
        by_cases hself : p.eq v v = true
        · exact loaded_of_eq (p := { p with _val := v }) hconv hself
        · exact loaded_of_ne (p := { p with _val := v }) hconv hself

theorem ConfigVar.Quiet.loaded {p : ConfigVar W} (h : p.Quiet) (text : Str) :
    (p.loaded text).Quiet := by
  unfold ConfigVar.loaded
  split
  · split
    · exact h
    · exact h
  · exact h

/-- No callback touches a variable. -/
def Config.Quiet (config : Config W) : Prop :=
  ∀ name p, config._configVars name = some p → p.Quiet

theorem Config.Quiet.loadNode_self {config : Config W} (h : config.Quiet) {nm : Str} (hnm : nm ≠ [])
    (n : Node) : (config.loadNode yaml (nm, n))._configVars nm =
      (config._configVars nm).map (·.loaded (yaml.emit n)) := by
  have hempty : nm.isEmpty = false := by simpa using hnm
  simp only [loadNode, hempty, find]
  cases hvar : config._configVars nm with
  | none => simpa using hvar
  | some p => simp [(h nm p hvar).fromString_eq]

theorem Config.loadNode_of_ne (config : Config W) {nm nm' : Str} (hne : nm' ≠ nm ∨ nm = [])
    (n : Node) : (config.loadNode yaml (nm, n))._configVars nm' = config._configVars nm' := by
  by_cases hempty : nm.isEmpty = true
  · simp only [loadNode, hempty, if_true]
  · have hne' : nm' ≠ nm := hne.resolve_right fun h => hempty (by rw [h]; rfl)
    simp only [loadNode, hempty, find]
    cases hvar : config._configVars nm with
    | none => rfl
    | some p => simp [Function.update_of_ne hne']

theorem Config.Quiet.loadNode {config : Config W} (h : config.Quiet) (i : Str × Node) :
    (config.loadNode yaml i).Quiet := by
  obtain ⟨nm, n⟩ := i
  intro name p hp
  by_cases hname : name ≠ nm ∨ nm = []
  · rw [config.loadNode_of_ne hname] at hp
    exact h name p hp
  · push Not at hname
    obtain ⟨rfl, hnm⟩ := hname
    rw [h.loadNode_self hnm] at hp
    obtain ⟨p₀, hp₀, rfl⟩ := Option.map_eq_some_iff.mp hp
    exact (h name p₀ hp₀).loaded _

theorem Config.foldl_of_not_mem {nm : Str} {nodes : List (Str × Node)}
    (hnodes : ∀ i ∈ nodes, nm ≠ i.1 ∨ i.1 = []) (config : Config W) :
    (nodes.foldl (Config.loadNode yaml) config)._configVars nm = config._configVars nm := by
  induction nodes generalizing config with
  | nil => rfl
  | cons i nodes ih =>
      rw [List.foldl_cons, ih fun j hj => hnodes j (List.mem_cons_of_mem _ hj)]
      exact config.loadNode_of_ne (hnodes i List.mem_cons_self) i.2

/-- Where all entries with a name carry one node, it does not matter how many there are. -/
theorem Config.foldl_of_mem {nm : Str} (hnm : nm ≠ []) {n : Node} {nodes : List (Str × Node)}
    (hmem : (nm, n) ∈ nodes) (hunique : ∀ n', (nm, n') ∈ nodes → n' = n) {config : Config W}
    (h : config.Quiet) :
    (nodes.foldl (Config.loadNode yaml) config)._configVars nm =
      (config._configVars nm).map (·.loaded (yaml.emit n)) := by
  induction nodes generalizing config with
  | nil => cases hmem
  | cons i nodes ih =>
      have hrest : ∀ n', (nm, n') ∈ nodes → n' = n :=
        fun n' hn' => hunique n' (List.mem_cons_of_mem _ hn')
      rw [List.foldl_cons]
      by_cases hfirst : i = (nm, n)
      · subst hfirst
        have hself : (config.loadNode yaml (nm, n))._configVars nm =
            (config._configVars nm).map (·.loaded (yaml.emit n)) := h.loadNode_self hnm n
        by_cases hagain : (nm, n) ∈ nodes
        · rw [ih hagain hrest (h.loadNode _), hself, Option.map_map]
          apply congrFun (congrArg Option.map _)
          funext p
          exact p.loaded_loaded _
        · rw [Config.foldl_of_not_mem, hself]
          rintro ⟨nm', n'⟩ hi
          left
          rintro rfl
          exact hagain (hrest n' hi ▸ hi)
      · have hin : (nm, n) ∈ nodes := (List.mem_cons.mp hmem).resolve_left (Ne.symm hfirst)
        rw [ih hin hrest (h.loadNode _)]
        congr 1
        apply config.loadNode_of_ne
        left
        rintro rfl
        exact hfirst (Prod.ext rfl (hunique i.2 List.mem_cons_self))

end Loop

/-- What loading is to do: it sets the variables that are named and no others. -/
structure Config.SetsNamed {W : Type} (yaml : Yaml) (config : Config W) (root : Node) : Prop where
  named : ∀ path node p, path ≠ [] → root.At path node →
    config._configVars (dottedName path) = some p →
    ∃ p', (config.loadFromYaml yaml root)._configVars (dottedName path) = some p' ∧
      (∀ v, p.FromStr (yaml.emit node) = some v → p.HasValue v p') ∧
      (p.FromStr (yaml.emit node) = none → p' = p)
  others : ∀ name, (∀ path node, path ≠ [] → root.At path node → name ≠ dottedName path) →
    (config.loadFromYaml yaml root)._configVars name = config._configVars name
  names : ∀ name, ((config.loadFromYaml yaml root)._configVars name).isSome =
    (config._configVars name).isSome

/-- **Loading sets the named variables and no others**, where no callback sets its own variable. -/
theorem Config.loadFromYaml_spec {W : Type} (yaml : Yaml) {config : Config W} (hquiet : config.Quiet)
    {root : Node} (hroot : root.WellKeyed) : config.SetsNamed yaml root := by
  have hset : ∀ path node, path ≠ [] → root.At path node →
      (config.loadFromYaml yaml root)._configVars (dottedName path) =
        (config._configVars (dottedName path)).map (·.loaded (yaml.emit node)) := by
    intro path node hpath hat
    have hkeys := hroot.keys_of_at hat
    refine foldl_of_mem (dottedName_ne_nil hpath hkeys) ?_ ?_ hquiet
    · exact (mem_listAllNodes_root hroot).mpr ⟨path, hat, rfl⟩
    · intro n' hn'
      obtain ⟨path', hat', hname⟩ := (mem_listAllNodes_root hroot).mp hn'
      have hpath' : path' ≠ [] := by
        rintro rfl
        exact dottedName_ne_nil hpath hkeys hname
      cases dottedName_inj hpath hpath' hkeys (hroot.keys_of_at hat') hname
      exact hroot.at_unique hat' hat
  have hother : ∀ name, (∀ path node, path ≠ [] → root.At path node → name ≠ dottedName path) →
      (config.loadFromYaml yaml root)._configVars name = config._configVars name := by
    intro name hname
    apply foldl_of_not_mem
    rintro ⟨nm, n⟩ hi
    obtain ⟨path, hat, rfl⟩ := (mem_listAllNodes_root hroot).mp hi
    rcases eq_or_ne path [] with rfl | hpath
    · exact .inr rfl
    · exact .inl (hname path n hpath hat)
  refine ⟨?_, hother, ?_⟩
  · intro path node p hpath hat hp
    refine ⟨p.loaded (yaml.emit node), ?_, fun v hv => p.loaded_of_some hv,
      fun hnone => p.loaded_of_none hnone⟩
    rw [hset path node hpath hat, hp]
    rfl
  · intro name
    by_cases hname : ∃ path node, path ≠ [] ∧ root.At path node ∧ name = dottedName path
    · obtain ⟨path, node, hpath, hat, rfl⟩ := hname
      rw [hset path node hpath hat, Option.isSome_map]
    · rw [hother name fun path node hpath hat heq => hname ⟨path, node, hpath, hat, heq⟩]

/-- A string is set and its callback counts, and a conversion that throws leaves its variable
alone. -/
theorem Config.loadFromYaml_two :
    let ip : ConfigVar Nat := ⟨Str, (· == ·), some, some, bytes "localhost",
      some fun _ _ val calls => (val, calls + 1)⟩
    let port : ConfigVar Nat :=
      ⟨Int, (· == ·), fun v => some (Leaf.text .int v), Numeral.readSigned decimal minus, 2222, none⟩
    let vars : Str → Option (ConfigVar Nat) := fun name =>
      if name = bytes "system.ip" then some ip
      else if name = bytes "system.port" then some port
      else none
    let root : Node := .map [(bytes "system", .map
      [(bytes "port", .scalar (bytes "http")), (bytes "ip", .scalar (bytes "remote"))])]
    let config := Config.loadFromYaml yamlFlow ⟨vars, 0⟩ root
    (∃ p, config._configVars (bytes "system.ip") = some p ∧ ip.HasValue (bytes "remote") p) ∧
      config._configVars (bytes "system.port") = some port ∧ config.world = 1 := by
  intro ip port vars root config
  have hroot : root.WellKeyed := by
    refine .map (by decide +kernel) (by decide +kernel) ?_
    intro entry hentry
    cases List.mem_singleton.mp hentry
    refine .map (by decide +kernel) (by decide +kernel) ?_
    intro entry hentry
    rcases List.mem_pair.mp hentry with rfl | rfl
    · exact .scalar _
    · exact .scalar _
  have hquiet : (⟨vars, 0⟩ : Config Nat).Quiet := by
    intro name p hp cb hcb oldVal newVal val calls
    simp only [vars] at hp
    split at hp
    · cases hp
      cases hcb
      rfl
    · split at hp
      · cases hp
        cases hcb
      · cases hp
  have hip : root.At [bytes "system", bytes "ip"] (.scalar (bytes "remote")) :=
    .key List.mem_cons_self (.key (List.mem_pair.mpr (.inr rfl)) (.root _))
  have hport : root.At [bytes "system", bytes "port"] (.scalar (bytes "http")) :=
    .key List.mem_cons_self (.key List.mem_cons_self (.root _))
  have hset := Config.loadFromYaml_spec yamlFlow hquiet hroot
  obtain ⟨p, hp, hvalue, -⟩ := hset.named _ _ ip (by decide) hip rfl
  obtain ⟨p', hp', -, hkept⟩ := hset.named _ _ port (by decide) hport rfl
  refine ⟨⟨p, hp, hvalue (bytes "remote") rfl⟩, ?_, by decide +kernel⟩
  rw [← hkept (by decide +kernel)]
  exact hp'

/-- Its callback takes back a value below 5. -/
def Config.workers : ConfigVar Unit where
  T := Int
  eq := fun x y => x == y
  ToStr := fun v => some (Leaf.text .int v)
  FromStr := Numeral.readSigned decimal minus
  _val := 7
  _cb := some fun oldVal newVal val world => (if newVal < 5 then oldVal else val, world)

/-- The text `2` is converted, and the value is 7 afterwards. -/
theorem Config.not_loadFromYaml_spec :
    ¬ ∀ (yaml : Yaml) (config : Config Unit) (root : Node), root.WellKeyed →
      config.SetsNamed yaml root := by
  intro hsets
  let vars : Str → Option (ConfigVar Unit) := fun name =>
    if name = bytes "workers" then some workers else none
  let root : Node := .map [(bytes "workers", .scalar (bytes "2"))]
  have hroot : root.WellKeyed := by
    refine .map (by decide +kernel) (by decide +kernel) ?_
    intro entry hentry
    cases List.mem_singleton.mp hentry
    exact .scalar _
  have hat : root.At [bytes "workers"] (.scalar (bytes "2")) :=
    .key List.mem_cons_self (.root _)
  obtain ⟨p, hp, hvalue, -⟩ :=
    (hsets yamlFlow ⟨vars, ()⟩ root hroot).named _ _ workers (by decide) hat rfl
  have hconv : Numeral.readSigned decimal minus (bytes "2") = some 2 := by decide +kernel
  have hkept : (Config.loadFromYaml yamlFlow ⟨vars, ()⟩ root)._configVars (bytes "workers") =
      some { workers with _val := (7 : Int) } := rfl
  obtain ⟨v', heq, hv'⟩ := hvalue (2 : Int) hconv
  obtain rfl := Option.some.inj (hp.symm.trans hkept)
  have hseven : v' = (7 : Int) := eq_of_heq (ConfigVar.mk.inj heq).2.2.2.2.1.symm
  have hequal : (7 : Int) = 2 ∨ ((2 : Int) == 7) = true := hseven ▸ hv'
  exact absurd hequal (by decide)

end CppUtils
