import Nesc.Proofs.Decl.Admission

/-!
# Renames one after the other

A rename can be taken back, and two renames of different aliases to different names can be done in
either order. Both are facts about descriptions first: a rename changes the first element with a
property, once among the clauses and once among the entries of a clause, so that what two such changes
do is said once for lists (`first_comm`, `first_undo`) and used at both levels. What a rename leaves to
be renamed is a matter of the names that are taken afterwards (`Decl.Component.Admits`).
-/

namespace Nesc

/-- The request that takes a rename back. -/
def Request.inverse (r : Request) : Request := ⟨r.new, r.old⟩

namespace Decl

/-! ## Two changes of first elements -/

section First

variable {α : Type} {p q : α → Prop} [DecidablePred p] [DecidablePred q] {g h : α → α}
  {f k : List α → List α}

/-- Two changes commute if neither makes or unmakes a first element for the other, and if they commute
where both apply. -/
theorem first_comm (hf : f [] = []) (hk : k [] = [])
    (hfcons : ∀ x xs, f (x :: xs) = if p x then g x :: xs else x :: f xs)
    (hkcons : ∀ x xs, k (x :: xs) = if q x then h x :: xs else x :: k xs)
    (hg : ∀ x, p x → (q (g x) ↔ q x)) (hh : ∀ x, q x → (p (h x) ↔ p x))
    (hcomm : ∀ x, p x → q x → g (h x) = h (g x)) (xs : List α) : f (k xs) = k (f xs) := by
  induction xs with
  | nil => rw [hf, hk, hf]
  | cons x xs ih =>
    -- Each change is done at the head or goes on behind it; only if both go on, there is more to do.
    by_cases hp : p x <;> by_cases hq : q x
    · simp [hfcons, hkcons, hp, hq, hg x hp, hh x hq, hcomm x hp hq]
    · simp [hfcons, hkcons, hp, hq, hg x hp]
    · simp [hfcons, hkcons, hp, hq, hh x hq]
    · simp [hfcons, hkcons, hp, hq, ih]

/-- A change is undone by one that looks for what the change has made and nothing else has. -/
theorem first_undo {xs : List α} (hf : f [] = []) (hk : k [] = [])
    (hfcons : ∀ x xs, f (x :: xs) = if p x then g x :: xs else x :: f xs)
    (hkcons : ∀ x xs, k (x :: xs) = if q x then h x :: xs else x :: k xs)
    (hxs : ∀ x ∈ xs, ¬ q x) (hundo : ∀ x ∈ xs, p x → q (g x) ∧ h (g x) = x) : k (f xs) = xs := by
  induction xs with
  | nil => rw [hf, hk]
  | cons x xs ih =>
    obtain ⟨hx, hxs⟩ := List.forall_mem_cons.mp hxs
    obtain ⟨hundo, hrest⟩ := List.forall_mem_cons.mp hundo
    by_cases hp : p x
    · obtain ⟨hq, hhg⟩ := hundo hp
      simp [hfcons, hkcons, hp, hq, hhg]
    · simp [hfcons, hkcons, hp, hx, ih hxs hrest]

end First

/-! ## Entries -/

namespace Entry

variable {r p q : Request} {es : List Entry} {e : Entry}

/-- An entry of the renamed list was there before, or is the one that got the new alias. -/
theorem mem_of_mem_renameFirst (h : e ∈ renameFirst r es) : e ∈ es ∨ e.alias? = some r.new := by
  induction es with
  | nil => exact absurd h List.not_mem_nil
  | cons e' es ih =>
    rw [renameFirst] at h
    split at h
    · rcases List.mem_cons.mp h with rfl | h
      · exact .inr rfl
      · exact .inl (List.mem_cons_of_mem e' h)
    · rcases List.mem_cons.mp h with rfl | h
      · exact .inl List.mem_cons_self
      · exact (ih h).imp_left (List.mem_cons_of_mem e')

theorem mem_renameFirst (he : e ∈ es) (h : e.alias? ≠ some r.old) : e ∈ renameFirst r es := by
  induction es with
  | nil => exact absurd he List.not_mem_nil
  | cons e' es ih =>
    rw [renameFirst]
    rcases List.mem_cons.mp he with rfl | he
    · rw [if_neg h]
      exact List.mem_cons_self
    · split
      · exact List.mem_cons_of_mem _ he
      · exact List.mem_cons_of_mem _ (ih he)

theorem exists_new_renameFirst (h : ∃ e ∈ es, e.alias? = some r.old) :
    ∃ e ∈ renameFirst r es, e.alias? = some r.new := by
  obtain ⟨us, e, vs, rfl, -, -, hrename⟩ :=
    exists_split_of_first (f := renameFirst r) (fun _ _ => rfl) h
  rw [hrename]
  exact ⟨_, List.mem_append_right us List.mem_cons_self, rfl⟩

/-- A rename does not touch the aliases of other names. -/
theorem exists_alias_renameFirst_iff {n : String} (hold : n ≠ r.old) (hnew : n ≠ r.new) :
    (∃ e ∈ renameFirst r es, e.alias? = some n) ↔ ∃ e ∈ es, e.alias? = some n := by
  constructor
  · rintro ⟨e, he, hn⟩
    rcases mem_of_mem_renameFirst he with he | hr
    · exact ⟨e, he, hn⟩
    · exact absurd (Option.some.inj (hn.symm.trans hr)) hnew
  · rintro ⟨e, he, hn⟩
    exact ⟨e, mem_renameFirst he (by simpa [hn] using hold), hn⟩

/-- Renames of different aliases commute: neither looks for what the other writes. -/
theorem renameFirst_comm (hold : p.old ≠ q.old) (hp : p.new ≠ q.old) (hq : q.new ≠ p.old)
    (es : List Entry) : renameFirst p (renameFirst q es) = renameFirst q (renameFirst p es) := by
  refine first_comm rfl rfl (fun _ _ => rfl) (fun _ _ => rfl) ?_ ?_ ?_ es
  · intro e he
    simp [he, hold, hp]
  · intro e he
    simp [he, Ne.symm hold, hq]
  · intro e he he'
    exact absurd (Option.some.inj (he.symm.trans he')) hold

/-- If the new alias was not in use, the entry that now has it is the renamed one, and renaming back
restores the list. -/
theorem renameFirst_inverse (h : ∀ e ∈ es, e.alias? ≠ some r.new) :
    renameFirst r.inverse (renameFirst r es) = es := by
  refine first_undo rfl rfl (fun _ _ => rfl) (fun _ _ => rfl) h fun e _ he => ⟨rfl, ?_⟩
  simp only [Request.inverse, ← he]

end Entry

/-! ## Clauses -/

namespace Items

variable {r p q : Request} {items : Items}

theorem entries_rename : (items.rename r).entries = Entry.renameFirst r items.entries := by
  cases items <;> rfl

theorem bares_rename : (items.rename r).bares = items.bares := by
  cases items <;> rfl

theorem hasAlias_rename {n : String} (hold : n ≠ r.old) (hnew : n ≠ r.new) :
    (items.rename r).hasAlias n = true ↔ items.hasAlias n = true := by
  rw [hasAlias_iff, hasAlias_iff, entries_rename, Entry.exists_alias_renameFirst_iff hold hnew]

theorem hasAlias_rename_new (h : items.hasAlias r.old = true) :
    (items.rename r).hasAlias r.new = true := by
  rw [hasAlias_iff] at *
  rw [entries_rename]
  exact Entry.exists_new_renameFirst h

theorem rename_comm (hold : p.old ≠ q.old) (hp : p.new ≠ q.old) (hq : q.new ≠ p.old)
    (items : Items) : (items.rename q).rename p = (items.rename p).rename q := by
  cases items with
  | interfaces es => exact congrArg interfaces (Entry.renameFirst_comm hold hp hq es)
  | declarations bs => rfl

theorem rename_inverse (h : ¬ items.hasAlias r.new = true) :
    (items.rename r).rename r.inverse = items := by
  cases items with
  | interfaces es =>
    refine congrArg interfaces (Entry.renameFirst_inverse fun e he hnew => h ?_)
    exact hasAlias_iff.mpr ⟨e, he, hnew⟩
  | declarations bs => rfl

end Items

namespace Clause

variable {r p q : Request} {cs : List Clause}

/-- Renames of different aliases commute on clauses. The clause that a rename picks stays the same
after the other one. -/
theorem renameFirst_comm (hold : p.old ≠ q.old) (hp : p.new ≠ q.old) (hq : q.new ≠ p.old)
    (cs : List Clause) : renameFirst p (renameFirst q cs) = renameFirst q (renameFirst p cs) := by
  refine first_comm rfl rfl (fun _ _ => rfl) (fun _ _ => rfl) ?_ ?_ ?_ cs
  · intro c _
    exact Items.hasAlias_rename (Ne.symm hold) (Ne.symm hp)
  · intro c _
    exact Items.hasAlias_rename hold (Ne.symm hq)
  · intro c _ _
    exact congrArg (Clause.mk c.direction) (Items.rename_comm hold hp hq c.items)

/-- If no clause had the new alias, renaming back finds the clause that was changed. -/
theorem renameFirst_inverse (h : ∀ c ∈ cs, ¬ c.items.hasAlias r.new = true) :
    renameFirst r.inverse (renameFirst r cs) = cs := by
  refine first_undo rfl rfl (fun _ _ => rfl) (fun _ _ => rfl) h fun c hc hold => ⟨?_, ?_⟩
  · exact Items.hasAlias_rename_new hold
  · exact congrArg (Clause.mk c.direction) (Items.rename_inverse (h c hc))

theorem bares_renameFirst (r : Request) (cs : List Clause) :
    (renameFirst r cs).flatMap (·.items.bares) = cs.flatMap (·.items.bares) := by
  induction cs with
  | nil => rfl
  | cons c cs ih =>
    rw [renameFirst]
    split
    · rw [List.flatMap_cons, List.flatMap_cons, Items.bares_rename]
    · rw [List.flatMap_cons, List.flatMap_cons, ih]

end Clause

/-! ## Components -/

theorem Statement.rename_comm {p q : Request} (hold : p.old ≠ q.old) (hp : p.new ≠ q.old)
    (hq : q.new ≠ p.old) (st : Statement) : (st.rename q).rename p = (st.rename p).rename q := by
  by_cases hstp : st.target = p.old
  · simp [rename, hstp, hold, hp]
  · by_cases hstq : st.target = q.old
    · simp [rename, hstq, hold.symm, hq]
    · simp [rename, hstp, hstq]

theorem Statement.rename_inverse {r : Request} {st : Statement} (h : st.target ≠ r.new) :
    (st.rename r).rename r.inverse = st := by
  by_cases hold : st.target = r.old
  · simp [rename, Request.inverse, ← hold]
  · simp [rename, Request.inverse, hold, h]

namespace Component

variable {d : Component} {r p q : Request} {wanted : Bool}

theorem bares_rename (r : Request) (wanted : Bool) (d : Component) :
    (d.rename r wanted).bares = d.bares :=
  Clause.bares_renameFirst r d.clauses

/-- A rename takes no other name than the new one. -/
theorem mem_usedNames_of_rename {n : String} (h : n ∈ (d.rename r wanted).usedNames) :
    n ∈ d.usedNames ∨ n = r.new := by
  rw [mem_usedNames, entries_rename, bares_rename] at h
  rcases h with ⟨e, he, hn⟩ | hbare
  · rcases Entry.mem_of_mem_renameFirst he with he | hnew
    · exact .inl (mem_usedNames.mpr (.inl ⟨e, he, hn⟩))
    · rw [Entry.local?_of_alias? hnew] at hn
      exact .inr (Option.some.inj hn).symm
  · exact .inl (mem_usedNames.mpr (.inr hbare))

/-- The new name of a rename is no alias that another rename asks for. -/
theorem Admits.new_ne_old (hp : d.Admits p) (hq : d.Admits q) : p.new ≠ q.old := by
  obtain ⟨e, he, halias⟩ := hq.aliased
  intro hnew
  exact hp.unused (hnew ▸ mem_usedNames_of_alias? he halias)

/-- What a description admits it still admits after another rename that is admitted, if the two
concern different old and different new names. -/
theorem Admits.rename (hp : d.Admits p) (hq : d.Admits q) (hold : p.old ≠ q.old)
    (hnew : p.new ≠ q.new) : (d.rename p wanted).Admits q where
  valid := hq.valid
  aliased := by
    rw [entries_rename, Entry.exists_alias_renameFirst_iff hold.symm (hp.new_ne_old hq).symm]
    exact hq.aliased
  unused := by
    intro hmem
    rcases mem_usedNames_of_rename hmem with hmem | heq
    · exact hq.unused hmem
    · exact hnew heq.symm

/-- The inverse rename is admitted if the old name could be given to an alias and is free after the
rename. -/
theorem Admits.inverse (hr : d.Admits r) (hname : Word.isIdentifier r.old = true)
    (hword : Word.isReserved r.old = false) (hunused : r.old ∉ (d.rename r wanted).usedNames) :
    (d.rename r wanted).Admits r.inverse where
  valid := by
    have hne := (Request.validate_eq_ok_iff.mp hr.valid).2.2
    exact Request.validate_eq_ok_iff.mpr ⟨hname, hword, hne.symm⟩
  aliased := by
    rw [entries_rename]
    exact Entry.exists_new_renameFirst hr.aliased
  unused := hunused

/-- Two admitted renames of different aliases commute on the whole component. -/
theorem rename_comm (hp : d.Admits p) (hq : d.Admits q) (hold : p.old ≠ q.old) :
    (d.rename q true).rename p true = (d.rename p true).rename q true := by
  have hpq := hp.new_ne_old hq
  have hqp := hq.new_ne_old hp
  simp [rename, Clause.renameFirst_comm hold hpq hqp, Statement.rename_comm hold hpq hqp]

/-- On the whole component the inverse undoes an admitted rename, unless a target was spelled as the
new name: it could not be told from the renamed ones. -/
theorem rename_inverse (hr : d.Admits r) (htargets : ∀ st ∈ d.statements, st.target ≠ r.new) :
    (d.rename r true).rename r.inverse true = d := by
  have hclauses : Clause.renameFirst r.inverse (Clause.renameFirst r d.clauses) = d.clauses := by
    refine Clause.renameFirst_inverse fun c hc halias => ?_
    obtain ⟨e, he, hnew⟩ := Items.hasAlias_iff.mp halias
    exact hr.unused (mem_usedNames_of_alias? (List.mem_flatMap_of_mem hc he) hnew)
  have hstatements : (d.statements.map (Statement.rename r)).map (Statement.rename r.inverse) =
      d.statements := by
    rw [List.map_map]
    refine (List.map_congr_left fun st hst => ?_).trans (List.map_id _)
    exact Statement.rename_inverse (htargets st hst)
  rw [rename, rename, if_pos rfl, if_pos rfl, hclauses, hstatements]

end Component

/-! ## Files -/

namespace File

variable {ds : File} {i : Nat} {d : Component} {wanted : Bool}

theorem getElem?_rename (h : ds[i]? = some d) (r : Request) (wanted : Bool) :
    (File.rename i r wanted ds)[i]? = some (d.rename r wanted) := by
  rw [File.rename, List.getElem?_modify_eq, h]
  rfl

theorem rename_rename (h : ds[i]? = some d) (p q : Request) :
    File.rename i q wanted (File.rename i p wanted ds) =
      ds.set i ((d.rename p wanted).rename q wanted) := by
  rw [File.rename, File.rename, List.modify_modify_eq, List.modify_eq_set_getElem?, h]
  rfl

end File

end Decl

/-! ## Accepted renames -/

namespace Scope

/-- An accepted rename can be taken back. Let a rename with usages be accepted in a layout, the old name
be a name that can be given, which is not taken after the rename, and no target be spelled as the new
name. Then the inverse rename is accepted in the layout of the renamed file, and its edits give back
the text from which the edits of the rename have made that of the renamed file. -/
theorem renameEdits_inverse (ds : Decl.File) (i : Fin ds.length) (r : Request) :
    ∃ s s', bind (Decl.File.tree ds) (.index i) = .ok s ∧
      bind (Decl.File.tree (Decl.File.rename i r true ds)) (.index i) = .ok s' ∧
      ∀ edits, s.renameEdits r true = .ok edits →
        Word.isIdentifier r.old = true → Word.isReserved r.old = false →
        r.old ∉ ((ds.get i).rename r true).usedNames →
        (∀ st ∈ (ds.get i).statements, st.target ≠ r.new) →
        ∃ edits', s'.renameEdits r.inverse true = .ok edits' ∧
          Edit.applyAll edits (Text.bytes (Decl.File.tree ds).text) =
            Text.bytes (Decl.File.tree (Decl.File.rename i r true ds)).text ∧
          Edit.applyAll edits' (Text.bytes (Decl.File.tree (Decl.File.rename i r true ds)).text) =
            Text.bytes (Decl.File.tree ds).text := by
  have hd : ds[(i : Nat)]? = some (ds.get i) := List.getElem?_eq_getElem i.isLt
  obtain ⟨s, hs, hrenames⟩ := exists_renames hd
  obtain ⟨s', hs', hrenames'⟩ := exists_renames (Decl.File.getElem?_rename hd r true)
  refine ⟨s, s', hs, hs', ?_⟩
  intro edits hedits hname hword hunused htargets
  have hadmits := (hrenames.accepts r true).mp ⟨edits, hedits⟩
  obtain ⟨edits', hedits', happly⟩ :=
    hrenames'.exists_edits (hadmits.inverse hname hword hunused) true
  have hfile : Decl.File.rename i r.inverse true (Decl.File.rename i r true ds) = ds := by
    rw [Decl.File.rename_rename hd, Decl.Component.rename_inverse hadmits htargets]
    exact List.set_getElem_self i.isLt
  rw [hfile] at happly
  exact ⟨edits', hedits', hrenames.applyAll r true edits hedits, happly⟩

/-- The alias is spelled as the interface it renames, so that the old name is still in the file after the
rename, but hidden. In the component in front, the new name is an alias and a target. -/
theorem renameEdits_inverse_hidden :
    let c : Decl.Component := {
      kind := .module
      name := "N"
      clauses := [⟨.uses, .interfaces [⟨some "I", some "X", [], []⟩]⟩]
      statements := [⟨.call, "X", "m"⟩] }
    let d : Decl.Component := {
      kind := .module
      name := "M"
      clauses := [⟨.uses, .declarations [⟨.event, "booted"⟩]⟩,
        ⟨.provides, .interfaces [⟨some "K", none, [], []⟩, ⟨some "A", some "A", [], []⟩]⟩]
      statements := [⟨.call, "A", "X"⟩, ⟨.signal, "K", "A"⟩, ⟨.call, "A", "m"⟩] }
    let r : Request := ⟨"A", "X"⟩
    ∃ s s' edits edits', bind (Decl.File.tree [c, d]) (.index 1) = .ok s ∧
      bind (Decl.File.tree (Decl.File.rename 1 r true [c, d])) (.index 1) = .ok s' ∧
      s.renameEdits r true = .ok edits ∧ "A" ∉ (d.rename r true).usedNames ∧
      s'.renameEdits ⟨"X", "A"⟩ true = .ok edits' ∧
      Edit.applyAll edits' (Text.bytes (Decl.File.tree (Decl.File.rename 1 r true [c, d])).text) =
        Text.bytes (Decl.File.tree [c, d]).text := by
  intro c d r
  obtain ⟨s, s', hs, hs', hinverse⟩ := renameEdits_inverse [c, d] 1 r
  obtain ⟨t, edits, ht, hedits⟩ := Tree.accepts_iff.mp
    (by decide +kernel : (Decl.File.tree [c, d]).accepts (.index 1) r true = true)
  cases hs.symm.trans ht
  have hunused : "A" ∉ (d.rename r true).usedNames := by decide
  obtain ⟨edits', hedits', -, hback⟩ :=
    hinverse edits hedits (by decide) (by decide) hunused (by decide)
  exact ⟨s, s', edits, edits', hs, hs', hedits, hunused, hedits', hback⟩

/-- Renames of different aliases to different names commute. If both are accepted in a layout, each is
accepted in the layout of the file that the other has renamed, and the edits of both give the same text
in either order. -/
theorem renameEdits_comm (ds : Decl.File) (i : Fin ds.length) (p q : Request)
    (hold : p.old ≠ q.old) (hnew : p.new ≠ q.new) :
    ∃ s sp sq, bind (Decl.File.tree ds) (.index i) = .ok s ∧
      bind (Decl.File.tree (Decl.File.rename i p true ds)) (.index i) = .ok sp ∧
      bind (Decl.File.tree (Decl.File.rename i q true ds)) (.index i) = .ok sq ∧
      ∀ es fs, s.renameEdits p true = .ok es → s.renameEdits q true = .ok fs →
        ∃ es' fs', sq.renameEdits p true = .ok es' ∧ sp.renameEdits q true = .ok fs' ∧
          Edit.applyAll es (Text.bytes (Decl.File.tree ds).text) =
            Text.bytes (Decl.File.tree (Decl.File.rename i p true ds)).text ∧
          Edit.applyAll fs (Text.bytes (Decl.File.tree ds).text) =
            Text.bytes (Decl.File.tree (Decl.File.rename i q true ds)).text ∧
          Edit.applyAll fs' (Edit.applyAll es (Text.bytes (Decl.File.tree ds).text)) =
            Edit.applyAll es' (Edit.applyAll fs (Text.bytes (Decl.File.tree ds).text)) := by
  have hd : ds[(i : Nat)]? = some (ds.get i) := List.getElem?_eq_getElem i.isLt
  obtain ⟨s, hs, hrenames⟩ := exists_renames hd
  obtain ⟨sp, hsp, hafterp⟩ := exists_renames (Decl.File.getElem?_rename hd p true)
  obtain ⟨sq, hsq, hafterq⟩ := exists_renames (Decl.File.getElem?_rename hd q true)
  refine ⟨s, sp, sq, hs, hsp, hsq, ?_⟩
  intro es fs hes hfs
  have hp := (hrenames.accepts p true).mp ⟨es, hes⟩
  have hq := (hrenames.accepts q true).mp ⟨fs, hfs⟩
  obtain ⟨fs', hfs', happlyq⟩ := hafterp.exists_edits (hp.rename hq hold hnew) true
  obtain ⟨es', hes', happlyp⟩ := hafterq.exists_edits (hq.rename hp hold.symm hnew.symm) true
  have hfiles : Decl.File.rename i q true (Decl.File.rename i p true ds) =
      Decl.File.rename i p true (Decl.File.rename i q true ds) := by
    rw [Decl.File.rename_rename hd, Decl.File.rename_rename hd, Decl.Component.rename_comm hp hq hold]
  have hes₁ := hrenames.applyAll p true es hes
  have hfs₁ := hrenames.applyAll q true fs hfs
  refine ⟨es', fs', hes', hfs', hes₁, hfs₁, ?_⟩
  rw [hes₁, hfs₁, happlyq, happlyp, hfiles]

/-- Both aliases are given twice, one of them is the name of a hidden interface, and one of the new names
is a target already. -/
theorem renameEdits_comm_twins :
    let d : Decl.Component := {
      kind := .module
      name := "M"
      clauses := [⟨.uses, .interfaces [⟨some "I", some "A", [], []⟩, ⟨none, some "A", [], []⟩]⟩,
        ⟨.provides, .interfaces [⟨some "J", some "B", [], []⟩, ⟨some "A", some "B", [], []⟩]⟩]
      statements := [⟨.call, "B", "A"⟩, ⟨.signal, "A", "m"⟩, ⟨.call, "X", "m"⟩] }
    let p : Request := ⟨"A", "X"⟩
    let q : Request := ⟨"B", "Y"⟩
    ∃ s sp sq es fs es' fs', bind (Decl.File.tree [d]) (.index 0) = .ok s ∧
      bind (Decl.File.tree (Decl.File.rename 0 p true [d])) (.index 0) = .ok sp ∧
      bind (Decl.File.tree (Decl.File.rename 0 q true [d])) (.index 0) = .ok sq ∧
      s.renameEdits p true = .ok es ∧ s.renameEdits q true = .ok fs ∧
      sq.renameEdits p true = .ok es' ∧ sp.renameEdits q true = .ok fs' ∧
      Edit.applyAll fs' (Edit.applyAll es (Text.bytes (Decl.File.tree [d]).text)) =
        Edit.applyAll es' (Edit.applyAll fs (Text.bytes (Decl.File.tree [d]).text)) := by
  intro d p q
  obtain ⟨s, sp, sq, hs, hsp, hsq, hcomm⟩ := renameEdits_comm [d] 0 p q (by decide) (by decide)
  obtain ⟨t, es, ht, hes⟩ := Tree.accepts_iff.mp
    (by decide +kernel : (Decl.File.tree [d]).accepts (.index 0) p true = true)
  cases hs.symm.trans ht
  obtain ⟨t, fs, ht, hfs⟩ := Tree.accepts_iff.mp
    (by decide +kernel : (Decl.File.tree [d]).accepts (.index 0) q true = true)
  cases hs.symm.trans ht
  obtain ⟨es', fs', hes', hfs', -, -, htext⟩ := hcomm es fs hes hfs
  exact ⟨s, sp, sq, es, fs, es', fs', hs, hsp, hsq, hes, hfs, hes', hfs', htext⟩

end Scope

end Nesc
