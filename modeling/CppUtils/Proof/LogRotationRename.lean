import CppUtils.LogRotation

/-!
# When the rotation loses no log

The names with one digit are listed in their order, so the reversed loop moves each file to the
name that the move before has just freed (`Gap`). From eleven files on, `log10` is listed before
`log2`: `log9` is moved first, onto `log10` while that still exists.
-/

namespace CppUtils.LogRotation

def Frontname.logName (front : Frontname) (k : Nat) : Name := front.log ++ str k

/-- The files that match `frontname.log*` are those numbered below `n`. -/
def Numbered {α : Type} (front : Frontname) (dir : Directory α) (n : Nat) : Prop :=
  ∀ name, front.log <+: name → (name ∈ dir.names ↔ ∃ k < n, name = front.logName k)

/-- Every log has its number increased by one; other files are as they were. -/
structure Rotated {α : Type} (front : Frontname) (dir dir' : Directory α) (n : Nat) : Prop where
  names : ∀ name, front.log <+: name → (name ∈ dir'.names ↔ ∃ k < n, name = front.logName (k + 1))
  content : ∀ k < n, dir'.content (front.logName (k + 1)) = dir.content (front.logName k)
  others : ∀ name, ¬ front.log <+: name →
    (name ∈ dir'.names ↔ name ∈ dir.names) ∧ dir'.content name = dir.content name

/-! ### Names -/

section Names

variable (front : Frontname)

theorem digits_str (k : Nat) : ∀ b ∈ str k, b ∈ bytes "0123456789" := by
  intro b hb
  rw [str, bytes, Nat.toString_eq_repr, Nat.toList_repr] at hb
  obtain ⟨c, hc, rfl⟩ := List.mem_map.mp hb
  have hdigit := Nat.isDigit_of_mem_toDigits (by decide) (by decide) hc
  obtain ⟨hlow, hhigh⟩ : 48 ≤ c.toNat ∧ c.toNat ≤ 57 := by
    simpa [Char.isDigit, UInt32.le_iff_toNat_le] using hdigit
  have hall : ∀ n, n < 10 → BitVec.ofNat 8 (48 + n) ∈ bytes "0123456789" := by decide +kernel
  obtain ⟨n, hn⟩ := Nat.exists_eq_add_of_le hlow
  rw [hn]
  exact hall n (by omega)

theorem isPlain_digit : ∀ b ∈ bytes "0123456789", isPlain b = true := by decide +kernel

theorem str_ne_nil (k : Nat) : str k ≠ [] := by
  rw [str, bytes, Nat.toString_eq_repr, Nat.toList_repr, ne_eq, List.map_eq_nil_iff]
  exact Nat.toDigits_ne_nil

theorem isPlain_logName (k : Nat) : ∀ b ∈ front.logName k, isPlain b = true := by
  have hlog : ∀ b ∈ bytes ".log", isPlain b = true := by decide +kernel
  intro b hb
  rcases List.mem_append.mp hb with hb | hb
  · rcases List.mem_append.mp hb with hb | hb
    · exact front.plain b hb
    · exact hlog b hb
  · exact isPlain_digit b (digits_str k b hb)

theorem not_isStripped_of_isPlain {b : Byte} (hb : isPlain b = true) : isStripped b = false := by
  have hall : ∀ b : Byte, isPlain b = true → isStripped b = false := by decide +kernel
  exact hall b hb

/-- `strip` takes the newline off a name. -/
theorem strip_name {name : Name} (hplain : ∀ b ∈ name, isPlain b = true) (hne : name ≠ []) :
    strip (name ++ bytes "\n") = name := by
  have hnewline : bytes "\n" = [(0x0a : Byte)] := by decide +kernel
  have hstripped : isStripped (0x0a : Byte) = true := by decide
  have hfront : (name ++ [(0x0a : Byte)]).dropWhile isStripped = name ++ [(0x0a : Byte)] := by
    cases name with
    | nil => exact absurd rfl hne
    | cons b name =>
        have hb := not_isStripped_of_isPlain (hplain b List.mem_cons_self)
        exact List.dropWhile_cons_of_neg (by rw [hb]; exact Bool.false_ne_true)
  rw [strip, hnewline, hfront, List.rdropWhile_concat_pos _ _ _ hstripped,
    List.rdropWhile_eq_self_iff]
  intro hname
  rw [not_isStripped_of_isPlain (hplain _ (List.getLast_mem hname))]
  exact Bool.false_ne_true

theorem logName_ne_nil (k : Nat) : front.logName k ≠ [] := by
  have hlog : bytes ".log" ≠ [] := by decide +kernel
  simp [Frontname.logName, Frontname.log, hlog]

theorem strip_logName (k : Nat) : strip (front.logName k ++ bytes "\n") = front.logName k :=
  strip_name (isPlain_logName front k) (logName_ne_nil front k)

theorem log_prefix_logName (k : Nat) : front.log <+: front.logName k := List.prefix_append _ _

/-- Up to 9 the last character is the whole number. -/
theorem newname_logName {k : Nat} (hk : k ≤ 9) :
    newname (front.logName k) = some (front.logName (k + 1)) := by
  have hdigit : ∀ k ≤ 9, str k = [(str k).headD 0] ∧ int ((str k).headD 0) = some k := by
    decide +kernel
  obtain ⟨hstr, hint⟩ := hdigit k hk
  rw [Frontname.logName, hstr, newname, List.getLast?_concat, List.dropLast_concat]
  simp only [Option.bind_eq_bind, Option.bind_some, hint]
  rfl

theorem logName_inj {j k : Nat} (hj : j ≤ 10) (hk : k ≤ 10)
    (h : front.logName j = front.logName k) : j = k := by
  have hall : ∀ j ≤ 10, ∀ k ≤ 10, str j = str k → j = k := by decide +kernel
  exact hall j hj k hk (List.append_cancel_left h)

end Names

/-! ### The order of the listing -/

section Listing

variable {front : Frontname}

theorem nameLe_logName {j k : Nat} (h : List.Lex byteLt (str j) (str k)) :
    NameLe (front.logName j) (front.logName k) :=
  Or.inr (List.Lex.append_left byteLt h front.log)

theorem pairwise_logNames {n : Nat} (hn : n ≤ 10) :
    ((List.range n).map front.logName).Pairwise NameLe := by
  have hdigits : ∀ k < 10, ∀ j < k, List.Lex byteLt (str j) (str k) := by decide +kernel
  refine List.pairwise_map.mpr (List.Pairwise.imp_of_mem ?_ List.pairwise_lt_range)
  intro j k _ hk hjk
  exact nameLe_logName (hdigits k (by rw [List.mem_range] at hk; omega) j hjk)

variable {α : Type} {dir : Directory α} {n : Nat}

theorem mem_listing (h : Numbered front dir n) {name : Name} :
    name ∈ (dir.names.filter fun name => front.log <+: name).sort NameLe ↔
      ∃ k < n, name = front.logName k := by
  rw [Finset.mem_sort, Finset.mem_filter]
  constructor
  · rintro ⟨hname, hprefix⟩
    exact (h name hprefix).mp hname
  · rintro ⟨k, hk, rfl⟩
    have hprefix := log_prefix_logName front k
    exact ⟨(h _ hprefix).mpr ⟨k, hk, rfl⟩, hprefix⟩

theorem lines_eq (h : Numbered front dir n) (hn : n ≤ 10) :
    dir.lines front = (List.range n).map fun k => front.logName k ++ bytes "\n" := by
  have hnodup : ((List.range n).map front.logName).Nodup := by
    refine List.Nodup.map_on ?_ List.nodup_range
    intro j hj k hk heq
    rw [List.mem_range] at hj hk
    exact logName_inj front (by omega) (by omega) heq
  have hperm : ((dir.names.filter fun name => front.log <+: name).sort NameLe).Perm
      ((List.range n).map front.logName) := by
    refine (List.perm_ext_iff_of_nodup (Finset.sort_nodup _ _) hnodup).mpr fun name => ?_
    rw [mem_listing h]
    simp only [List.mem_map, List.mem_range]
    exact ⟨fun ⟨k, hk, heq⟩ => ⟨k, hk, heq.symm⟩, fun ⟨k, hk, heq⟩ => ⟨k, hk, heq.symm⟩⟩
  have hsorted := hperm.eq_of_pairwise
    (fun _ _ _ _ hab hba => antisymm_of NameLe hab hba)
    (Finset.pairwise_sort _ _) (pairwise_logNames hn)
  rw [Directory.lines, hsorted, List.map_map]
  rfl

end Listing

/-! ### Up to ten files -/

/-- The logs from `m` on have moved, so that number `m` is free. -/
structure Gap {α : Type} (front : Frontname) (dir₀ dir : Directory α) (n m : Nat) : Prop where
  names : ∀ name, front.log <+: name →
    (name ∈ dir.names ↔ ∃ k ≤ n, k ≠ m ∧ name = front.logName k)
  low : ∀ k < m, dir.content (front.logName k) = dir₀.content (front.logName k)
  high : ∀ k, m ≤ k → k < n →
    dir.content (front.logName (k + 1)) = dir₀.content (front.logName k)
  others : ∀ name, ¬ front.log <+: name →
    (name ∈ dir.names ↔ name ∈ dir₀.names) ∧ dir.content name = dir₀.content name

section Loop

variable {α : Type} {front : Frontname} {dir₀ dir dir' : Directory α} {n m : Nat}

theorem Directory.mem_mv {a b name : Name} (ha : a ∈ dir.names) (hab : a ≠ b) :
    name ∈ (dir.mv a b).names ↔ name = b ∨ (name ≠ a ∧ name ∈ dir.names) := by
  rw [Directory.mv, if_pos ⟨ha, hab⟩, Finset.mem_insert, Finset.mem_erase]

theorem Directory.content_mv {a b : Name} (ha : a ∈ dir.names) (hab : a ≠ b) :
    (dir.mv a b).content = Function.update dir.content b (dir.content a) := by
  rw [Directory.mv, if_pos ⟨ha, hab⟩]

theorem gap_of_numbered (h : Numbered front dir n) : Gap front dir dir n n where
  names := by
    intro name hprefix
    rw [h name hprefix]
    constructor
    · rintro ⟨k, hk, rfl⟩
      exact ⟨k, hk.le, hk.ne, rfl⟩
    · rintro ⟨k, hle, hne, rfl⟩
      exact ⟨k, by omega, rfl⟩
  low := fun _ _ => rfl
  high := fun k hlow hhigh => by omega
  others := fun _ _ => ⟨Iff.rfl, rfl⟩

theorem Gap.rotated (h : Gap front dir₀ dir n 0) : Rotated front dir₀ dir n where
  names := by
    intro name hprefix
    rw [h.names name hprefix]
    constructor
    · rintro ⟨k, hle, hne, rfl⟩
      exact ⟨k - 1, by omega, by rw [Nat.sub_add_cancel (Nat.pos_of_ne_zero hne)]⟩
    · rintro ⟨k, hk, rfl⟩
      exact ⟨k + 1, hk, Nat.succ_ne_zero k, rfl⟩
  content := fun k => h.high k (Nat.zero_le k)
  others := h.others

/-- One move fills the gap and replaces no file. -/
theorem Gap.mv (h : Gap front dir₀ dir n (m + 1)) (hm : m + 1 ≤ n) (hn : n ≤ 10) :
    Gap front dir₀ (dir.mv (front.logName m) (front.logName (m + 1))) n m ∧
      ¬ dir.Overwrites (front.logName m) (front.logName (m + 1)) := by
  have hinj : ∀ j ≤ n, ∀ k ≤ n, front.logName j = front.logName k → j = k :=
    fun j hj k hk => logName_inj front (by omega) (by omega)
  have hsource : front.logName m ∈ dir.names :=
    (h.names _ (log_prefix_logName front m)).mpr ⟨m, by omega, by omega, rfl⟩
  have hne : front.logName m ≠ front.logName (m + 1) := by
    intro heq
    have := hinj m (by omega) (m + 1) hm heq
    omega
  have hcontent := Directory.content_mv hsource hne
  have hother : ∀ k ≤ n, k ≠ m + 1 →
      (dir.mv (front.logName m) (front.logName (m + 1))).content (front.logName k) =
        dir.content (front.logName k) := by
    intro k hk hkm
    rw [hcontent]
    exact Function.update_of_ne (fun heq => hkm (hinj k hk (m + 1) hm heq)) _ _
  refine ⟨⟨fun name hprefix => ?_, fun k hk => ?_, fun k hlow hhigh => ?_,
    fun name hprefix => ?_⟩, fun hover => ?_⟩
  · rw [Directory.mem_mv hsource hne, h.names name hprefix]
    constructor
    · rintro (rfl | ⟨hnot, k, hk, hkm, rfl⟩)
      · exact ⟨m + 1, hm, by omega, rfl⟩
      · exact ⟨k, hk, fun heq => hnot (by rw [heq]), rfl⟩
    · rintro ⟨k, hk, hkm, rfl⟩
      by_cases hfree : k = m + 1
      · exact Or.inl (by rw [hfree])
      · exact Or.inr ⟨fun heq => hkm (hinj k hk m (by omega) heq), k, hk, hfree, rfl⟩
  · rw [hother k (by omega) (by omega)]
    exact h.low k (by omega)
  · by_cases hkm : k = m
    · rw [hkm, hcontent, Function.update_self]
      exact h.low m (Nat.lt_succ_self m)
    · rw [hother (k + 1) hhigh (by omega)]
      exact h.high k (by omega) hhigh
  · have hnot : ∀ k, name ≠ front.logName k := by
      rintro k rfl
      exact hprefix (log_prefix_logName front k)
    rw [Directory.mem_mv hsource hne, hcontent, Function.update_of_ne (hnot _)]
    refine ⟨⟨?_, fun hname => Or.inr ⟨hnot m, (h.others name hprefix).1.mpr hname⟩⟩,
      (h.others name hprefix).2⟩
    rintro (heq | ⟨-, hname⟩)
    · exact absurd heq (hnot _)
    · exact (h.others name hprefix).1.mp hname
  · obtain ⟨k, hk, hkm, heq⟩ := (h.names _ (log_prefix_logName front (m + 1))).mp hover.2.2
    exact hkm (hinj (m + 1) hm k hk heq).symm

theorem Gap.rename (hn : n ≤ 10) (hm : m ≤ n) (h : Gap front dir₀ dir n m) :
    ∃ dir', rename ((List.range m).map fun k => front.logName k ++ bytes "\n").reverse dir =
      some (dir', []) ∧ Gap front dir₀ dir' n 0 := by
  induction m generalizing dir with
  | zero => exact ⟨dir, rfl, h⟩
  | succ m ih =>
      obtain ⟨hgap, hnot⟩ := h.mv hm hn
      obtain ⟨dir', hrest, hfinal⟩ := ih (by omega) hgap
      refine ⟨dir', ?_, hfinal⟩
      rw [List.range_succ, List.map_append, List.reverse_append]
      simp only [List.map_cons, List.map_nil, List.reverse_singleton, List.singleton_append,
        LogRotation.rename, strip_logName, newname_logName front (show m ≤ 9 by omega), hrest,
        Option.bind_eq_bind, Option.bind_some, if_neg hnot]

/-! ### From eleven files on -/

theorem Directory.mem_mv_of_ne {a b name : Name} (hname : name ∈ dir.names) (hne : name ≠ a) :
    name ∈ (dir.mv a b).names := by
  unfold Directory.mv
  split
  · exact Finset.mem_insert_of_mem (Finset.mem_erase.mpr ⟨hne, hname⟩)
  · exact hname

/-- A file that is moved onto another before that is moved replaces it. -/
theorem rename_replaces {a b : Name} (hab : a ≠ b) (hnew : newname a = some b) {line : List Byte}
    (hline : strip line = a) {before : List (List Byte)} (after : List (List Byte))
    (hbefore : ∀ l ∈ before, strip l ≠ a ∧ strip l ≠ b) (ha : a ∈ dir.names) (hb : b ∈ dir.names) :
    rename (before ++ line :: after) dir ≠ some (dir', []) := by
  induction before generalizing dir dir' with
  | nil =>
      intro hrename
      rw [List.nil_append, rename] at hrename
      simp only [hline, hnew, Option.bind_eq_bind, Option.bind_some] at hrename
      obtain ⟨⟨mid, replaced⟩, -, hrest⟩ := Option.bind_eq_some_iff.mp hrename
      simp [show dir.Overwrites a b from ⟨ha, hab, hb⟩] at hrest
  | cons l before ih =>
      intro hrename
      obtain ⟨hla, hlb⟩ := hbefore l List.mem_cons_self
      rw [List.cons_append, rename] at hrename
      simp only [Option.bind_eq_bind] at hrename
      obtain ⟨new, -, hrename⟩ := Option.bind_eq_some_iff.mp hrename
      obtain ⟨⟨mid, replaced⟩, hmid, hrest⟩ := Option.bind_eq_some_iff.mp hrename
      have hnone : replaced = [] := by
        have hpair := congrArg Prod.snd (Option.some.inj hrest)
        simp only at hpair
        split at hpair
        · cases hpair
        · exact hpair
      rw [hnone] at hmid
      exact ih (fun l hl => hbefore l (List.mem_cons_of_mem _ hl))
        (Directory.mem_mv_of_ne ha hla.symm) (Directory.mem_mv_of_ne hb hlb.symm) hmid

/-- `log10` stands before `log9`, so in the reversed list `log9` comes first. -/
theorem renameLogs_ne (h : Numbered front dir n) (hn : 11 ≤ n) :
    renameLogs front dir ≠ some (dir', []) := by
  have hmem {k : Nat} (hk : k < n) : front.logName k ∈ dir.names :=
    (h _ (log_prefix_logName front k)).mpr ⟨k, hk, rfl⟩
  have hne : front.logName 9 ≠ front.logName 10 := by
    intro heq
    have := logName_inj front (by decide) (by decide) heq
    omega
  have hsorted := List.pairwise_reverse.mpr
    (Finset.pairwise_sort (dir.names.filter fun name => front.log <+: name) NameLe)
  have hnine : front.logName 9 ∈
      ((dir.names.filter fun name => front.log <+: name).sort NameLe).reverse :=
    List.mem_reverse.mpr ((mem_listing h).mpr ⟨9, by omega, rfl⟩)
  obtain ⟨before, after, hsplit, hfirst⟩ := List.eq_append_cons_of_mem hnine
  have hbefore : ∀ name ∈ before, name ≠ front.logName 9 ∧ name ≠ front.logName 10 := by
    intro name hname
    refine ⟨fun heq => hfirst (heq ▸ hname), fun heq => hne ?_⟩
    rw [hsplit] at hsorted
    have hge := (List.pairwise_append.mp hsorted).2.2 name hname _ List.mem_cons_self
    rw [heq] at hge
    exact antisymm_of NameLe hge (nameLe_logName (by decide +kernel))
  rw [renameLogs, Directory.lines, ← List.map_reverse, hsplit, List.map_append, List.map_cons]
  refine rename_replaces hne (newname_logName front le_rfl) (strip_logName front 9) _ ?_
    (hmem (by omega)) (hmem (by omega))
  intro line hline
  obtain ⟨name, hname, rfl⟩ := List.mem_map.mp hline
  have hlisted : name ∈ ((dir.names.filter fun name => front.log <+: name).sort NameLe) := by
    rw [← List.mem_reverse, hsplit]
    exact List.mem_append_left _ hname
  obtain ⟨k, -, rfl⟩ := (mem_listing h).mp hlisted
  rw [strip_logName]
  exact hbefore _ hname

end Loop

/-- **When the rotation loses nothing.** The loop gives every log the next number without replacing
a file exactly if there are at most ten. -/
theorem rotation_iff {α : Type} {front : Frontname} {dir : Directory α} {n : Nat}
    (h : Numbered front dir n) :
    (∃ dir', renameLogs front dir = some (dir', []) ∧ Rotated front dir dir' n) ↔ n ≤ 10 := by
  constructor
  · rintro ⟨dir', hrename, -⟩
    by_contra hmany
    exact renameLogs_ne h (by omega) hrename
  · intro hn
    obtain ⟨dir', hrename, hgap⟩ := (gap_of_numbered h).rename hn le_rfl
    refine ⟨dir', ?_, hgap.rotated⟩
    rw [renameLogs, lines_eq h hn, hrename]

theorem numbered_image {α : Type} (front : Frontname) (content : Name → α) (n : Nat) :
    Numbered front ⟨(Finset.range n).image front.logName, content⟩ n := by
  intro name _
  simp only [Finset.mem_image, Finset.mem_range]
  exact ⟨fun ⟨k, hk, heq⟩ => ⟨k, hk, heq.symm⟩, fun ⟨k, hk, heq⟩ => ⟨k, hk, heq.symm⟩⟩

theorem rotation_iff_ten :
    let front : Frontname := ⟨bytes "app", by decide +kernel⟩
    let dir : Directory Name := ⟨(Finset.range 10).image front.logName, id⟩
    ∃ dir', renameLogs front dir = some (dir', []) ∧ Rotated front dir dir' 10 := by
  intro front dir
  exact (rotation_iff (numbered_image front id 10)).mpr le_rfl

/-- With eleven files `log9` replaces `log10`. -/
theorem not_rotation_eleven :
    ¬ ∀ (front : Frontname) (n : Nat) (dir : Directory Name), Numbered front dir n →
      ∃ dir', renameLogs front dir = some (dir', []) ∧ Rotated front dir dir' n := by
  intro hrotation
  obtain ⟨dir', hrename, -⟩ := hrotation ⟨bytes "app", by decide +kernel⟩ 11
    ⟨(Finset.range 11).image (Frontname.logName _), id⟩ (numbered_image _ id 11)
  exact renameLogs_ne (numbered_image _ id 11) le_rfl hrename

end CppUtils.LogRotation
