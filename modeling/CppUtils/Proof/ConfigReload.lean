import CppUtils.Proof.ConfigLoad
import CppUtils.Proof.ConfigRegistry

/-!
# Loading a file again

Between the turns of `loadFromYaml` run the callbacks that they have called, and other threads. As
long as none of these calls is about a variable that the document names, the load leaves each of
them in agreement with the document as far as `==` can tell, so the turns of a second load store
nothing and call no callback. Where nothing runs in between, a load of the registry of pointers is
the one of the map of variables.
-/

namespace CppUtils

theorem listAllNodes_unique {root node node' : Node} (hroot : root.WellKeyed) {name : Str}
    (hname : name ≠ []) (h : (name, node) ∈ listAllNodes [] root [])
    (h' : (name, node') ∈ listAllNodes [] root []) : node = node' := by
  obtain ⟨path, hat, hpath⟩ := (mem_listAllNodes_root hroot).mp h
  obtain ⟨path', hat', hpath'⟩ := (mem_listAllNodes_root hroot).mp h'
  have hne : path ≠ [] := fun hnil => hname (by rw [hpath, hnil]; rfl)
  have hne' : path' ≠ [] := fun hnil => hname (by rw [hpath', hnil]; rfl)
  cases dottedName_inj hne hne' (hroot.keys_of_at hat) (hroot.keys_of_at hat')
    (hpath.symm.trans hpath')
  exact hroot.at_unique hat hat'

namespace Registry

variable {ι : Type} {types : ι → VarType} {κ : Type} {yaml : Yaml}

/-! ### One variable -/

/-- `fromString` stores nothing. -/
def Var.Settled (x : Var types κ) (text : Str) : Prop :=
  ∀ v, (types x.type).FromStr text = some v → (types x.type).eq v x._val = true

theorem Var.Settled.fromString_eq {x : Var types κ} {text : Str} (h : x.Settled text) :
    x.fromString text = (x, []) := by
  unfold fromString
  split
  case h_1 v hconv => rw [setValue, if_pos (h v hconv)]
  case h_2 => rfl

theorem Var.settled_fromString (x : Var types κ) {text : Str}
    (hrefl : ∀ v, (types x.type).FromStr text = some v → (types x.type).eq v v = true) :
    (x.fromString text).1.Settled text := by
  cases hconv : (types x.type).FromStr text with
  | none =>
      have hsame : x.fromString text = (x, []) := by
        rw [fromString, hconv]
      rw [hsame]
      intro v hv
      rw [hconv] at hv
      cases hv
  | some v =>
      have hset : x.fromString text = x.setValue v := by
        rw [fromString, hconv]
      rw [hset, setValue]
      split
      case isTrue heq =>
        intro v' hv'
        obtain rfl := Option.some.inj (hconv.symm.trans hv')
        exact heq
      case isFalse =>
        intro v' hv'
        obtain rfl := Option.some.inj (hconv.symm.trans hv')
        exact hrefl v hconv

section Load

variable [DecidableEq ι]

/-- Once a text was converted, the same text changes nothing more. -/
theorem foldl_settled {name text : Str} {acts : List (Str × Action types κ)}
    (hacts : ∀ a ∈ acts, a.2 = .fromString text) {x : Var types κ} (h : x.Settled text) :
    acts.foldl (fun x a => a.2.act name x) (some x) = some x := by
  induction acts with
  | nil => rfl
  | cons a acts ih =>
      rw [List.foldl_cons, hacts a List.mem_cons_self, Action.act, Option.map_some,
        h.fromString_eq]
      exact ih fun b hb => hacts b (List.mem_cons_of_mem _ hb)

theorem foldl_none {name text : Str} {acts : List (Str × Action types κ)}
    (hacts : ∀ a ∈ acts, a.2 = .fromString text) :
    acts.foldl (fun x a => a.2.act name x) none = none := by
  induction acts with
  | nil => rfl
  | cons a acts ih =>
      rw [List.foldl_cons, hacts a List.mem_cons_self, Action.act, Option.map_none]
      exact ih fun b hb => hacts b (List.mem_cons_of_mem _ hb)

theorem settled_of_foldl {name text : Str}
    (hrefl : ∀ i v, (types i).FromStr text = some v → (types i).eq v v = true)
    {acts : List (Str × Action types κ)} (hacts : ∀ a ∈ acts, a.2 = .fromString text)
    (hne : acts ≠ []) {x₀ : Option (Var types κ)} {x : Var types κ}
    (h : acts.foldl (fun x a => a.2.act name x) x₀ = some x) : x.Settled text := by
  obtain ⟨a, acts, rfl⟩ := List.exists_cons_of_ne_nil hne
  have hrest : ∀ b ∈ acts, b.2 = .fromString text := fun b hb =>
    hacts b (List.mem_cons_of_mem _ hb)
  rw [List.foldl_cons, hacts a List.mem_cons_self, Action.act] at h
  cases x₀ with
  | none =>
      rw [Option.map_none, foldl_none hrest] at h
      cases h
  | some x₀ =>
      have hsettled := x₀.settled_fromString (hrefl x₀.type)
      rw [Option.map_some, foldl_settled hrest hsettled] at h
      exact Option.some.inj h ▸ hsettled

/-! ### A load and what runs in between -/

def documentNames (root : Node) : List Str :=
  ((listAllNodes [] root []).map Prod.fst).filter fun name => !name.isEmpty

/-- The call is about a variable that the document names. -/
def Label.Within (root : Node) (s : Registry types κ) (label : Label types κ) : Bool :=
  (label.about s).any fun a => (documentNames root).contains a.1

/-- A run with a load in it: of the calls about variables that the document names, there are just the
turns of the load. -/
structure Loads (yaml : Yaml) (root : Node) (s : Registry types κ) (labels : List (Label types κ))
    (t : Registry types κ) : Prop where
  run : Transition.Run Step s labels t
  turns : labels.filter (·.Within root t) =
    (loadFromYaml yaml root).filter fun turn : Label types κ => turn.Within root t

variable {s t : Registry types κ} {root : Node} {name : Str} {labels : List (Label types κ)}

theorem mem_documentNames :
    name ∈ documentNames root ↔ name ≠ [] ∧ ∃ node, (name, node) ∈ listAllNodes [] root [] := by
  rw [documentNames, List.mem_filter, List.mem_map, and_comm]
  simp

omit [DecidableEq ι] in
/-- The calls about a variable that the document names. -/
theorem filter_about (hname : name ∈ documentNames root) (labels : List (Label types κ)) :
    (labels.filterMap (Label.about t)).filter (fun a => a.1 = name) =
      ((labels.filter (·.Within root t)).filterMap (Label.about t)).filter fun a => a.1 = name := by
  induction labels with
  | nil => rfl
  | cons label labels ih =>
      cases habout : label.about t with
      | none =>
          have hout : label.Within root t = false := by rw [Label.Within, habout]; rfl
          rw [List.filterMap_cons_none habout, List.filter_cons_of_neg (by simp [hout]), ih]
      | some a =>
          by_cases ha : a.1 = name
          · have hin : label.Within root t = true := by
              rw [Label.Within, habout, Option.any_some, ha]
              simpa using hname
            rw [List.filter_cons_of_pos (by simp [hin]), List.filterMap_cons_some habout,
              List.filterMap_cons_some habout, List.filter_cons_of_pos (by simp [ha]),
              List.filter_cons_of_pos (by simp [ha]), ih]
          · rw [List.filterMap_cons_some habout, List.filter_cons_of_neg (by simp [ha]), ih]
            by_cases hin : label.Within root t = true
            · rw [List.filter_cons_of_pos hin, List.filterMap_cons_some habout,
                List.filter_cons_of_neg (by simp [ha])]
            · rw [List.filter_cons_of_neg hin]

/-- Each turn about a variable converts the text of the one node of its name. -/
theorem Loads.act_eq (h : Loads yaml root s labels t) (hroot : root.WellKeyed) {node : Node}
    (hnode : (name, node) ∈ listAllNodes [] root []) (hname : name ∈ documentNames root) :
    ∀ a ∈ (labels.filterMap (Label.about t)).filter fun a => a.1 = name,
      a.2 = .fromString (yaml.emit node) := by
  intro a ha
  rw [filter_about hname, h.turns, ← filter_about hname, List.mem_filter, List.mem_filterMap] at ha
  obtain ⟨⟨turn, hturn, habout⟩, heq⟩ := ha
  obtain ⟨i, hi, rfl⟩ := List.mem_map.mp hturn
  rw [Label.about] at habout
  split at habout
  · cases habout
  · cases habout
    have hi' : (name, i.2) ∈ listAllNodes [] root [] := of_decide_eq_true heq ▸ hi
    rw [listAllNodes_unique hroot (mem_documentNames.mp hname).1 hnode hi']

theorem Loads.act_ne_nil (h : Loads yaml root s labels t) {node : Node}
    (hnode : (name, node) ∈ listAllNodes [] root []) (hname : name ∈ documentNames root) :
    (labels.filterMap (Label.about t)).filter (fun a => a.1 = name) ≠ [] := by
  rw [filter_about hname, h.turns, ← filter_about hname]
  have hempty : name.isEmpty = false := by simpa using (mem_documentNames.mp hname).1
  refine List.ne_nil_of_mem (a := (name, .fromString (yaml.emit node))) ?_
  refine List.mem_filter.mpr ⟨List.mem_filterMap.mpr ⟨.loadNode name (yaml.emit node), ?_, ?_⟩, ?_⟩
  · exact List.mem_map.mpr ⟨_, hnode, rfl⟩
  · simp [Label.about, hempty]
  · exact decide_eq_true rfl

/-- After the load the variable agrees with the document. -/
theorem Loads.settled (h : Loads yaml root s labels t)
    (hs : Transition.Reachable (· = empty) Step s) (hroot : root.WellKeyed)
    (hrefl : ∀ i text v, (types i).FromStr text = some v → (types i).eq v v = true) {node : Node}
    (hnode : (name, node) ∈ listAllNodes [] root []) (hname : name ∈ documentNames root)
    {x : Var types κ} (hx : t.var name = some x) : x.Settled (yaml.emit node) := by
  rw [(inv_of_reachable hs).var_run h.run name] at hx
  exact settled_of_foldl (fun i => hrefl i _) (h.act_eq hroot hnode hname)
    (h.act_ne_nil hnode hname) hx

omit [DecidableEq ι] in
/-- A turn of the loop does nothing to a variable that agrees with it. -/
theorem Inv.loadNode_of_settled (h : Inv s) {text : Str}
    (hsettled : ∀ x, s.var name = some x → x.Settled text) : s.loadNode name text = s := by
  unfold loadNode
  split
  · rfl
  · cases hfind : s.find name with
    | none => rfl
    | some p =>
        obtain ⟨x, hx, hname⟩ := h.find_iff.mp hfind
        have hvar : s.var name = some x := h.var_iff.mpr ⟨p, hx, hname⟩
        simp only [hx, (hsettled x hvar).fromString_eq]
        obtain ⟨hp, heq⟩ := List.getElem?_eq_some_iff.mp hx
        rw [Registry.put, ← heq, List.set_getElem_self hp, List.append_nil]

/-- **Loading a file again does nothing.** From any reachable registry, let a document be loaded and
loaded again, while callbacks and other threads make calls about variables that the document does
not name. Each turn of the second load leaves the registry as it is, so that it stores nothing and
calls no callback, and the variables that the document names stay what they are. -/
theorem reload_of_run (hs : Transition.Reachable (· = empty) Step s) (hroot : root.WellKeyed)
    (hrefl : ∀ i text v, (types i).FromStr text = some v → (types i).eq v v = true)
    {m : Registry types κ} {first second : List (Label types κ)}
    (hfirst : Loads yaml root s first m) (hsecond : Loads yaml root m second t) :
    (∀ before turn after u u', second = before ++ turn :: after → turn.Within root t = true →
      Transition.Run Step m before u → Step u turn u' → Transition.Run Step u' after t → u' = u) ∧
    ∀ name ∈ documentNames root, t.var name = m.var name := by
  have hm : Inv m := hfirst.run.invariant (fun _ _ _ h hstep => h.step hstep) (inv_of_reachable hs)
  -- what converts the text of the document finds the variable in agreement with it
  have hkept : ∀ {name node}, name ∈ documentNames root → (name, node) ∈ listAllNodes [] root [] →
      ∀ acts : List (Str × Action types κ), (∀ a ∈ acts, a.2 = .fromString (yaml.emit node)) →
      acts.foldl (fun x a => a.2.act name x) (m.var name) = m.var name := by
    intro name node hname hnode acts hacts
    cases hvar : m.var name with
    | none => exact foldl_none hacts
    | some x => exact foldl_settled hacts (hfirst.settled hs hroot hrefl hnode hname hvar)
  refine ⟨?_, fun name hname => ?_⟩
  · rintro before turn after u u' rfl hin hbefore hturn hafter
    have hmem : turn ∈ (before ++ turn :: after).filter (·.Within root t) :=
      List.mem_filter.mpr ⟨by simp, hin⟩
    rw [hsecond.turns, List.mem_filter] at hmem
    obtain ⟨⟨name, node⟩, hnode, rfl⟩ := List.mem_map.mp hmem.1
    have hname : name ∈ documentNames root := by
      refine mem_documentNames.mpr ⟨?_, node, hnode⟩
      rintro rfl
      cases hin
    have hu : Inv u := hbefore.invariant (fun _ _ _ h hstep => h.step hstep) hm
    have hext : u.Extends t := (extends_of_step hturn).trans (extends_of_run hafter)
    have hacts : ∀ a ∈ (before.filterMap (Label.about u)).filter fun a => a.1 = name,
        a.2 = .fromString (yaml.emit node) := by
      intro a ha
      refine hsecond.act_eq hroot hnode hname a ?_
      rw [List.mem_filter, List.mem_filterMap] at ha ⊢
      obtain ⟨⟨label, hlabel, habout⟩, heq⟩ := ha
      exact ⟨⟨label, List.mem_append_left _ hlabel,
        (about_of_run hbefore hext label hlabel).trans habout⟩, heq⟩
    have hvar : u.var name = m.var name := by
      rw [hm.var_run hbefore name, hkept hname hnode _ hacts]
    have hstep : u.loadNode name (yaml.emit node) = u' := Option.some.inj hturn
    rw [← hstep]
    refine hu.loadNode_of_settled fun x hx => ?_
    exact hfirst.settled hs hroot hrefl hnode hname (hvar ▸ hx)
  · obtain ⟨-, node, hnode⟩ := mem_documentNames.mp hname
    rw [hm.var_run hsecond.run name]
    exact hkept hname hnode _ (hsecond.act_eq hroot hnode hname)

/-- The callback of the port sets the host while the document is loaded. -/
theorem reload_of_port :
    let types : Unit → VarType := fun _ => ⟨Int, (· == ·), fun v => some (Leaf.text .int v),
      Numeral.readSigned decimal minus⟩
    let root : Node := .map [(bytes "port", .scalar (bytes "80"))]
    ∃ (s m : Registry types Unit), s.invoked = [] ∧ m.invoked.length = 1 ∧
      Transition.Run Step s [.loadNode [] (yamlFlow.emit root),
        .loadNode (bytes "port") (bytes "80"), .setValue 1 () (7 : Int)] m ∧
      ∀ u, Step m (.loadNode [] (yamlFlow.emit root)) u →
        ∀ u', Step u (.loadNode (bytes "port") (bytes "80")) u' → u' = u := by
  intro types root
  let s : Registry types Unit := ⟨[⟨bytes "port", [], (), (2222 : Int), some ()⟩,
    ⟨bytes "host", [], (), (1 : Int), none⟩], [(bytes "host", 1), (bytes "port", 0)], []⟩
  let m : Registry types Unit := ⟨[⟨bytes "port", [], (), (80 : Int), some ()⟩,
    ⟨bytes "host", [], (), (7 : Int), none⟩], [(bytes "host", 1), (bytes "port", 0)],
    [((), ⟨(), (2222 : Int), (80 : Int)⟩)]⟩
  have hs : Transition.Reachable (· = empty) Step s :=
    ⟨_, [.lookup () (bytes "port") (2222 : Int) [], .setOnChangeCallBack 0 (some ()),
      .lookup () (bytes "host") (1 : Int) []], rfl, .cons rfl (.cons rfl (.cons rfl (.nil s)))⟩
  have hroot : root.WellKeyed := by
    refine .map (by decide +kernel) (by decide +kernel) ?_
    intro entry hentry
    cases List.mem_singleton.mp hentry
    exact .scalar _
  have hrun : Transition.Run Step s [.loadNode [] (yamlFlow.emit root),
      .loadNode (bytes "port") (bytes "80"), .setValue 1 () (7 : Int)] m :=
    .cons rfl (.cons rfl (.cons rfl (.nil m)))
  have hfirst : Loads yamlFlow root s _ m := ⟨hrun, rfl⟩
  have hagain : Transition.Run Step m (loadFromYaml yamlFlow root) m :=
    .cons rfl (.cons rfl (.nil m))
  obtain ⟨hturns, -⟩ := reload_of_run hs hroot (fun _ _ v _ => beq_self_eq_true (v : Int))
    hfirst ⟨hagain, rfl⟩
  refine ⟨s, m, rfl, rfl, hrun, fun u hu u' hu' => ?_⟩
  obtain rfl : m = u := Option.some.inj hu
  obtain rfl : m = u' := Option.some.inj hu'
  exact hturns [_] _ [] m m rfl rfl (.cons rfl (.nil m)) rfl (.nil m)

end Load

/-! ### The map of variables -/

/-- The variable as the map has it. Its callback notes that it was called. -/
def Var.toConfigVar (x : Var types κ) : ConfigVar (List (Call types κ)) where
  T := (types x.type).T
  eq := (types x.type).eq
  ToStr := (types x.type).ToStr
  FromStr := (types x.type).FromStr
  _val := x._val
  _cb := x._cb.map fun cb oldVal newVal val calls =>
    (val, calls ++ [(cb, ⟨x.type, oldVal, newVal⟩)])

def toConfig (s : Registry types κ) : Config (List (Call types κ)) where
  _configVars name := (s.var name).map Var.toConfigVar
  world := s.invoked

theorem Var.setValue_toConfigVar (x : Var types κ) (v : (types x.type).T)
    (calls : List (Call types κ)) : x.toConfigVar.setValue v calls =
      ((x.setValue v).1.toConfigVar, calls ++ (x.setValue v).2) := by
  by_cases heq : (types x.type).eq v x._val = true
  · have hstore : x.setValue v = (x, []) := if_pos heq
    have hstore' : x.toConfigVar.setValue v calls = (x.toConfigVar, calls) := if_pos heq
    rw [hstore, hstore', List.append_nil]
  · have hstore : x.setValue v =
        ({ x with _val := v }, x._cb.toList.map fun cb => (cb, ⟨x.type, x._val, v⟩)) := if_neg heq
    rw [hstore]
    refine (if_neg heq).trans ?_
    obtain ⟨name, description, type, val, cb⟩ := x
    cases cb with
    | none => simp [toConfigVar]
    | some cb => rfl

theorem Var.fromString_toConfigVar (x : Var types κ) (val : Str) (calls : List (Call types κ)) :
    (x.toConfigVar.fromString val calls).2 =
      ((x.fromString val).1.toConfigVar, calls ++ (x.fromString val).2) := by
  unfold fromString ConfigVar.fromString
  cases hconv : (types x.type).FromStr val with
  | none => simp [toConfigVar, hconv]
  | some v =>
      have hconv' : x.toConfigVar.FromStr val = some v := hconv
      simp only [hconv']
      exact x.setValue_toConfigVar v calls

variable {s : Registry types κ}

theorem Inv.toConfig_loadNode (h : Inv s) (i : Str × Node) :
    (s.loadNode i.1 (yaml.emit i.2)).toConfig = s.toConfig.loadNode yaml i := by
  by_cases hempty : i.1.isEmpty = true
  · simp only [loadNode, Config.loadNode, hempty, if_true]
  · cases hfind : s.find i.1 with
    | none =>
        have hvar : s.var i.1 = none := by
          rw [var, hfind]
          rfl
        simp only [loadNode, Config.loadNode, hempty, Config.find, hfind, toConfig, hvar,
          Option.map_none]
        rfl
    | some p =>
        obtain ⟨x, hx, hname⟩ := h.find_iff.mp hfind
        have hvar : s.toConfig._configVars i.1 = some x.toConfigVar := by
          have hx' : s.var i.1 = some x := h.var_iff.mpr ⟨p, hx, hname⟩
          simp only [toConfig, hx', Option.map_some]
        have hread := x.fromString_toConfigVar (yaml.emit i.2) s.invoked
        have hmade : (x.toConfigVar.fromString (yaml.emit i.2) s.invoked).2.1 =
            (x.fromString (yaml.emit i.2)).1.toConfigVar := congrArg Prod.fst hread
        have hworld : (x.toConfigVar.fromString (yaml.emit i.2) s.invoked).2.2 =
            s.invoked ++ (x.fromString (yaml.emit i.2)).2 := congrArg Prod.snd hread
        have hput : s.loadNode i.1 (yaml.emit i.2) = s.put p (x.fromString (yaml.emit i.2)) := by
          simp only [loadNode, hempty, hfind, hx]
          rfl
        have hloaded : s.toConfig.loadNode yaml i =
            { _configVars := Function.update s.toConfig._configVars i.1
                (some (x.fromString (yaml.emit i.2)).1.toConfigVar)
              world := s.invoked ++ (x.fromString (yaml.emit i.2)).2 } := by
          simp only [Config.loadNode, hempty, Config.find, hvar]
          rw [← hmade, ← hworld]
          rfl
        rw [hput, hloaded, toConfig, Config.mk.injEq]
        refine ⟨?_, rfl⟩
        funext name
        rw [h.var_put hx (x.same_fromString _)]
        by_cases hsame : x._name = name
        · rw [if_pos hsame, ← hsame, hname, Function.update_self, Option.map_some]
        · have hne : name ≠ i.1 := fun heq => hsame (hname.trans heq.symm)
          rw [if_neg hsame, Function.update_of_ne hne]
          rfl

/-- **A load through pointers is a load of the map of variables**, if nothing runs between its
turns. -/
theorem Inv.exists_loadFromYaml [DecidableEq ι] (h : Inv s) (root : Node) :
    ∃ t, Transition.Run Step s (loadFromYaml yaml root) t ∧
      t.toConfig = s.toConfig.loadFromYaml yaml root := by
  unfold loadFromYaml Config.loadFromYaml
  induction listAllNodes [] root [] generalizing s with
  | nil => exact ⟨s, .nil s, rfl⟩
  | cons i nodes ih =>
      have hstep : s.step (.loadNode i.1 (yaml.emit i.2)) =
          some (s.loadNode i.1 (yaml.emit i.2)) := rfl
      obtain ⟨t, hrun, hconfig⟩ := ih (h.step hstep)
      refine ⟨t, .cons hstep hrun, ?_⟩
      rw [hconfig, h.toConfig_loadNode, List.foldl_cons]

end Registry

end CppUtils
