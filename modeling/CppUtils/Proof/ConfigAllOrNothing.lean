import CppUtils.ConfigCallback
import CppUtils.LexicalCast

/-!
# What a call of `fromString` leaves

The value is stored before the callback runs, so an exception of the callback comes too late to keep
the old one. A callback that changes the variable is called again.
-/

namespace CppUtils.Callback.ConfigVar

variable {T W : Type}

/-- `val` equals `v`, be it as the object that was assigned or by `operator==`. -/
def Equals (p : ConfigVar T W) (val v : T) : Prop := val = v ∨ p.eq v val = true

/-- A call that returns false has left the value; one that returns true has set it to what the text
was converted to, and has called the callback once if that is a change. -/
def AllOrNothing (p : ConfigVar T W) (val : Str) (world : W) : Prop :=
  let call := p.fromString val world
  (call.result = false → call.var._val = p._val) ∧
  (call.result = true → ∃ v, p.FromStr val = some v ∧ p.Equals call.var._val v ∧
    call.invoked = if p.eq v p._val = true ∨ p._cb = none then [] else [(p._val, v)])

/-- The callback of the change to `v`, if there is one, returns without a further change of the
variable, or throws and has put the old value back. -/
def Settles (p : ConfigVar T W) (v : T) (world : W) : Prop :=
  p.eq v p._val = true ∨ ∀ cb ∈ p._cb,
    let after := cb p._val v v world
    if after.thrown then after.val = p._val else p.Equals after.val v ∧ after.invoked = []

theorem setValue_of_eq {p : ConfigVar T W} {v : T} (h : p.eq v p._val = true) (world : W) :
    p.setValue v world = ⟨false, p, world, []⟩ := by
  rw [setValue, store, if_pos h]

theorem setValue_of_ne {p : ConfigVar T W} {v : T} (h : p.eq v p._val = false) (world : W) :
    p.setValue v world = match p._cb with
      | none => ⟨false, { p with _val := v }, world, []⟩
      | some cb =>
          let after := cb p._val v v world
          ⟨after.thrown, { p with _val := after.val }, after.world, (p._val, v) :: after.invoked⟩ := by
  have hstore : p.store v = (some p._val, { p with _val := v }) := by simp [store, h]
  cases hcb : p._cb with
  | none => simp only [setValue, hstore, hcb]
  | some cb => simp only [setValue, hstore, hcb]

theorem fromString_of_none {p : ConfigVar T W} {val : Str} (h : p.FromStr val = none) (world : W) :
    p.fromString val world = ⟨false, p, world, []⟩ := by
  rw [fromString, h]

theorem fromString_of_some {p : ConfigVar T W} {val : Str} {v : T} (h : p.FromStr val = some v)
    (world : W) : p.fromString val world =
      { p.setValue v world with result := !(p.setValue v world).result } := by
  rw [fromString, h]

/-- Callbacks that do not throw are those of `CppUtils.ConfigVar`, where no calls are counted. -/
def ofNotThrowing (p : CppUtils.ConfigVar W) (invoked : p.T → p.T → p.T → W → List (p.T × p.T)) :
    ConfigVar p.T W where
  eq := p.eq
  FromStr := p.FromStr
  _val := p._val
  _cb := p._cb.map fun cb oldVal newVal val world =>
    let after := cb oldVal newVal val world
    ⟨false, after.1, after.2, invoked oldVal newVal val world⟩

theorem fromString_ofNotThrowing (p : CppUtils.ConfigVar W)
    (invoked : p.T → p.T → p.T → W → List (p.T × p.T)) (val : Str) (world : W) :
    let call := (ofNotThrowing p invoked).fromString val world
    p.fromString val world = (call.result, { p with _val := call.var._val }, call.world) := by
  intro call
  have hcall : call = (ofNotThrowing p invoked).fromString val world := rfl
  rw [CppUtils.ConfigVar.fromString]
  cases hconv : p.FromStr val with
  | none =>
      rw [hcall, fromString_of_none hconv]
      rfl
  | some v =>
      rw [hcall, fromString_of_some hconv]
      by_cases heq : p.eq v p._val = true
      · rw [setValue_of_eq heq]
        simp [CppUtils.ConfigVar.setValue, heq, ofNotThrowing]
      · rw [setValue_of_ne (Bool.eq_false_iff.mpr heq)]
        cases hcb : p._cb <;> simp [CppUtils.ConfigVar.setValue, heq, ofNotThrowing, hcb]

/-- **All or nothing.** For every text and every callback: the law holds exactly if the text is not
converted, or the change needs no callback, or its callback settles. -/
theorem allOrNothing_iff (p : ConfigVar T W) (val : Str) (world : W) :
    p.AllOrNothing val world ↔ ∀ v ∈ p.FromStr val, p.Settles v world := by
  unfold AllOrNothing
  cases hconv : p.FromStr val with
  | none => simp [fromString_of_none hconv]
  | some v =>
      rw [fromString_of_some hconv]
      simp only [Option.mem_def, Option.some.injEq, forall_eq', exists_eq_left']
      by_cases heq : p.eq v p._val = true
      · have hsettles : p.Settles v world := .inl heq
        simp [setValue_of_eq heq, Equals, heq, hsettles]
      · rw [setValue_of_ne (Bool.eq_false_iff.mpr heq)]
        cases hcb : p._cb with
        | none => simp [Settles, Equals, hcb]
        | some cb =>
            simp only [Settles, hcb, heq, Option.mem_def, Option.some.injEq, forall_eq']
            cases hthrown : (cb p._val v v world).thrown <;> simp

/-- The value is 1, and the callback throws on even ones. -/
def oddOnly : ConfigVar Int Unit where
  eq := fun x y => x == y
  FromStr := (Leaf.cast .int).fromStr
  _val := 1
  _cb := some fun _ newVal val world => ⟨newVal % 2 == 0, val, world, []⟩

/-- From 1, the text `2` gives false, and the value is 2. -/
theorem not_allOrNothing :
    ¬ ∀ (p : ConfigVar Int Unit) (val : Str) (world : Unit), p.AllOrNothing val world := by
  intro hall
  have hvalue := (hall oddOnly (bytes "2") ()).1 (by decide +kernel)
  exact absurd hvalue (by decide +kernel)

/-- Called for a change to 2, the callback sets 3 and then 2 again, and is called for each. -/
def overAndBack : ConfigVar Int Unit where
  eq := fun x y => x == y
  FromStr := (Leaf.cast .int).fromStr
  _val := 1
  _cb := some fun _ newVal val world =>
    if newVal = 2 then ⟨false, 2, world, [(2, 3), (3, 2)]⟩ else ⟨false, val, world, []⟩

example : (overAndBack.fromString (bytes "2") ()).invoked = [(1, 2), (2, 3), (3, 2)] := by
  decide +kernel

end CppUtils.Callback.ConfigVar
