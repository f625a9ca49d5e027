import Nesc.Proofs.Rename.Effect
import Nesc.Proofs.Scope.LocalNames
import Nesc.Proofs.Scope.Mirror

/-!
# Names after a rename

The check of a rename looks at the list of local names, while a name is resolved through the
aliases, the alias map and the unaliased references. The two fit together: after an accepted rename
every other name stands for what it stood for, and the new name, which stood for nothing, stands for
what the old name stood for. Of all identifiers that resolving a name reads, the rename respells the
renamed alias alone (`Scope.isRenamed_alias_iff`, `Scope.isRenamed_interface`); another alias of the
same spelling stays, and keeps the old name in use.
-/

namespace Nesc

/-- Whether a path leads to a token of the kind of words whose range is that of an edit. -/
def Tree.isEdited (t : Tree) (edits : List Edit) (p : List Nat) : Bool :=
  ((Cursor.root t).at? p).any fun d =>
    d.tree.tokenKind? == some .ident && edits.any fun e => e.range == d.range

/-- The same sort of target, at the same paths. -/
def NameTarget.SamePlaces : NameTarget → NameTarget → Prop
  | .localName a i?, .localName a' i?' => a'.path = a.path ∧ i?'.map Node.path = i?.map Node.path
  | .interface i, .interface i' => i'.path = i.path
  | .unknown, .unknown => True
  | _, _ => False

theorem map_path_of_rel {chosen : List Nat → Bool} {new : String} {k : Kind}
    {x y : Option (Node k)} (h : Option.Rel (Node.Mirrors chosen new) x y) :
    y.map Node.path = x.map Node.path := by
  cases h with
  | none => rfl
  | some hm => exact congrArg some hm.path_eq

namespace Scope

variable {s : Scope} {r : Request} {wanted : Bool} {edits : List Edit} {a : Identifier}
  {is : List Identifier}

/-- With an old name that is not empty, the words at the ranges of the edits are the renamed
tokens. -/
theorem isEdited_eq_isRenamed (ha : s.checkRename r = .ok a) (his : s.usages r wanted = .ok is)
    (hold : r.old ≠ "") :
    s.file.tree.isEdited (Edit.respell r.new (a :: is)) = s.isRenamed r wanted a := by
  funext p
  rw [Bool.eq_iff_iff]
  simp only [Tree.isEdited, Option.any_eq_true, Bool.and_eq_true, beq_iff_eq, List.any_eq_true]
  constructor
  · rintro ⟨d, hd, hkind, e, he, hrange⟩
    have hleaf : d ∈ (Cursor.root s.file.tree).leaves := by
      refine Cursor.mem_leaves.mpr ⟨Cursor.mem_elements_of_at? hd, ?_⟩
      rw [Tree.isToken, hkind]
      rfl
    rw [← mem_respellings_iff ha his] at he
    obtain ⟨d', hd', rfl⟩ := List.mem_map.mp he
    obtain ⟨hleaf', hchosen⟩ := List.mem_filter.mp hd'
    -- A renamed token has text, so no other token has its range.
    have hpos := start_lt_stop_of_isRenamed ha his hold ⟨hleaf', hchosen⟩
    have hstart : d'.start = d.start := congrArg Range.start hrange
    have hstop : d'.stop = d.stop := congrArg Range.stop hrange
    have hsame : d' = d := by
      rcases Cursor.eq_or_apart_of_pairwise (Cursor.pairwise_leaves _) hleaf' hleaf with h | h
      · exact h
      · omega
    have hpath : d.path = p := by
      rw [Cursor.path_of_at? hd]
      rfl
    rw [← hpath, ← hsame]
    exact hchosen
  · intro hp
    obtain ⟨i, hi, d, hd, rfl⟩ := (isRenamed_iff his).mp hp
    obtain ⟨hchild, htree⟩ := Identifier.token?_eq_some hd
    have hfile := (renamed_spelled ha his i hi).1
    rw [s.cursor_file] at hfile
    refine ⟨d, Cursor.at?_path (Cursor.mem_elements_of_mem_children hfile hchild), ?_, ?_⟩
    · rw [htree]
      rfl
    · exact ⟨_, Edit.mem_respell.mpr ⟨i, hi, rfl⟩, Identifier.nameRange_of_token? hd⟩

/-! ## What the rename respells -/

/-- An identifier of the file whose name token is respelled is one of the renamed ones. -/
theorem mem_of_isRenamed (ha : s.checkRename r = .ok a) (his : s.usages r wanted = .ok is)
    {i : Identifier} {d : Cursor} (hi : i.cursor ∈ s.file.cursor.elements)
    (hd : Identifier.token? i = some d) (h : s.isRenamed r wanted a d.path = true) :
    i ∈ a :: is := by
  obtain ⟨j, hj, e, he, hpath⟩ := (isRenamed_iff his).mp h
  obtain ⟨hdi, -⟩ := Identifier.token?_eq_some hd
  obtain ⟨hej, -⟩ := Identifier.token?_eq_some he
  have hjfile := (renamed_spelled ha his j hj).1
  rw [s.cursor_file] at hi hjfile
  have hed : e = d := Cursor.eq_of_path_eq (Cursor.mem_elements_of_mem_children hjfile hej)
    (Cursor.mem_elements_of_mem_children hi hdi) hpath
  have hji : j = i := Node.ext_cursor (Cursor.parent_unique hjfile hi (hed ▸ hej) hdi)
  exact hji ▸ hj

/-- Of all aliases only the renamed one is respelled: no other alias shares its token, and an alias
is no target. -/
theorem isRenamed_alias_iff (ha : s.checkRename r = .ok a) (his : s.usages r wanted = .ok is)
    {b : Identifier} {d : Cursor} (hb : b ∈ s.aliasIdentifiers)
    (hd : Identifier.token? b = some d) : s.isRenamed r wanted a d.path = true ↔ b = a := by
  constructor
  · intro h
    rcases List.mem_cons.mp
      (mem_of_isRenamed ha his (mem_file_of_mem_aliasIdentifiers hb) hd h) with hba | hbis
    · exact hba
    · exact absurd ((usages_sublist his).mem hbis) (alias_not_mem_targets hb)
  · rintro rfl
    exact (isRenamed_iff his).mpr ⟨b, List.mem_cons_self, d, hd, rfl⟩

/-- No interface identifier is respelled, for it is neither an alias nor a target. -/
theorem isRenamed_interface (ha : s.checkRename r = .ok a) (his : s.usages r wanted = .ok is)
    {q : InterfaceReference} {i : Identifier} {d : Cursor} (hq : q ∈ s.references)
    (hi : InterfaceReference.interface? q = some i) (hd : Identifier.token? i = some d) :
    s.isRenamed r wanted a d.path = false := by
  rw [Bool.eq_false_iff]
  intro h
  obtain ⟨t, ht, hchild⟩ := InterfaceReference.mem_children_of_interface? hi
  have hfile := Cursor.mem_elements_of_mem_children
    (Cursor.mem_elements_of_mem_children (mem_file_of_mem_references hq) ht) hchild
  rcases List.mem_cons.mp (mem_of_isRenamed ha his hfile hd h) with hia | his'
  · have halias := (mem_aliasIdentifiers_of_checkRename ha).1
    exact interface_not_mem_aliasIdentifiers hq hi (hia ▸ halias)
  · exact interface_not_mem_targets hq hi ((usages_sublist his).mem his')

/-! ## Spellings on both sides -/

section Mirrored

variable {s' : Scope} (hs : s.Mirrors (s.isRenamed r wanted a) r.new s')
  (ha : s.checkRename r = .ok a) (his : s.usages r wanted = .ok is)

include ha his in
/-- The mirror image of an alias has its name, or the new name if it is the renamed one. -/
theorem spelling?_alias_mirror {b b' : Identifier} {n : String} (hb : b ∈ s.aliasIdentifiers)
    (hbb' : b.Mirrors (s.isRenamed r wanted a) r.new b') (hn : Identifier.spelling? b = some n) :
    Identifier.spelling? b' = some (if b = a then r.new else n) := by
  obtain ⟨d, hd, rfl⟩ := Identifier.spelling?_eq_some_iff.mp hn
  rw [Identifier.spelling?_mirror hbb', hd, Option.map_some]
  simp only [isRenamed_alias_iff ha his hb hd]

include ha his in
/-- An interface that goes by its own name has the same name in the mirror image. -/
theorem spelling?_unaliased_mirror {i i' : Identifier}
    (hi : i ∈ InterfaceReference.unaliased s.references)
    (hii' : i.Mirrors (s.isRenamed r wanted a) r.new i') :
    Identifier.spelling? i' = Identifier.spelling? i := by
  obtain ⟨q, hq, -, hqi⟩ := InterfaceReference.mem_unaliased.mp hi
  rw [Identifier.spelling?_mirror hii']
  cases hd : Identifier.token? i with
  | none => rw [Identifier.spelling?, Identifier.name, hd]; rfl
  | some d =>
    rw [Option.map_some, isRenamed_interface ha his hq hqi hd]
    exact (Identifier.spelling?_eq_some_iff.mpr ⟨d, hd, rfl⟩).symm

include hs ha his in
theorem readable_mirror : s'.Readable := by
  obtain ⟨-, -, -, ⟨ns, hns, -⟩, -⟩ := checkRename_eq_ok_iff.mp ha
  have hread := readable_of_localNames hns
  constructor
  · intro b' hb'
    obtain ⟨b, hb, hbb'⟩ := forall₂_exists_left hs.aliasIdentifiers hb'
    obtain ⟨n, hn⟩ := Option.isSome_iff_exists.mp (hread.aliases b hb)
    rw [spelling?_alias_mirror ha his hb hbb' hn]
    rfl
  · intro i' hi'
    obtain ⟨i, hi, hii'⟩ := forall₂_exists_left
      (InterfaceReference.unaliased_mirror hs.references) hi'
    rw [spelling?_unaliased_mirror ha his hi hii']
    exact hread.unaliased i hi

/-- Aliases found on both sides at one path are one target, if their names are not empty. -/
theorem samePlaces_localName (hs : s.Mirrors (s.isRenamed r wanted a) r.new s') {b b' : Identifier}
    {n n' : String} (hb : b ∈ s.aliasIdentifiers) (hb' : b' ∈ s'.aliasIdentifiers)
    (hbb' : b.Mirrors (s.isRenamed r wanted a) r.new b') (hn : Identifier.spelling? b = some n)
    (hn' : Identifier.spelling? b' = some n') (hne : n ≠ "") (hne' : n' ≠ "") :
    NameTarget.SamePlaces (.localName b (s.interfaceOf? b)) (.localName b' (s'.interfaceOf? b')) :=
  ⟨hbb'.path_eq, map_path_of_rel (hs.interfaceOf? hb hb' hbb'
    (Identifier.width_pos_of_spelling? hn hne) (Identifier.width_pos_of_spelling? hn' hne'))⟩

include hs ha his in
/-- A name other than the old and the new one stands for the same on both sides. -/
theorem samePlaces_lookup {n : String} (hne : n ≠ "") (hold : n ≠ r.old) (hnew : n ≠ r.new) :
    (s.lookup n).SamePlaces (s'.lookup n) := by
  obtain ⟨-, -, -, ⟨ns, hns, -⟩, -⟩ := checkRename_eq_ok_iff.mp ha
  have hread := readable_of_localNames hns
  have haliases : Option.Rel (Node.Mirrors (s.isRenamed r wanted a) r.new)
      (s.aliasIdentifiers.find? (Identifier.isSpelled n))
      (s'.aliasIdentifiers.find? (Identifier.isSpelled n)) := by
    refine forall₂_find? hs.aliasIdentifiers fun b hb b' hbb' => ?_
    obtain ⟨m, hm⟩ := Option.isSome_iff_exists.mp (hread.aliases b hb)
    rw [Identifier.isSpelled, Identifier.isSpelled, spelling?_alias_mirror ha his hb hbb' hm, hm]
    by_cases hba : b = a
    · -- The renamed alias is spelled `n` on neither side.
      have hmold : m = r.old := by
        rw [hba, (mem_aliasIdentifiers_of_checkRename ha).2] at hm
        exact (Option.some.inj hm).symm
      rw [if_pos hba, hmold, beq_eq_false_iff_ne.mpr fun h => hold (Option.some.inj h).symm,
        beq_eq_false_iff_ne.mpr fun h => hnew (Option.some.inj h).symm]
    · rw [if_neg hba]
  have hinterfaces : Option.Rel (Node.Mirrors (s.isRenamed r wanted a) r.new)
      ((InterfaceReference.unaliased s.references).find? (Identifier.isSpelled n))
      ((InterfaceReference.unaliased s'.references).find? (Identifier.isSpelled n)) := by
    refine forall₂_find? (InterfaceReference.unaliased_mirror hs.references) fun i hi i' hii' => ?_
    rw [Identifier.isSpelled, Identifier.isSpelled, spelling?_unaliased_mirror ha his hi hii']
  unfold lookup
  cases hb : s.aliasIdentifiers.find? (Identifier.isSpelled n) with
  | some b =>
    rw [hb] at haliases
    cases hb' : s'.aliasIdentifiers.find? (Identifier.isSpelled n) with
    | none => rw [hb'] at haliases; cases haliases
    | some b' =>
      rw [hb'] at haliases
      cases haliases with
      | some hbb' =>
        exact samePlaces_localName hs (List.mem_of_find?_eq_some hb)
          (List.mem_of_find?_eq_some hb') hbb'
          (Identifier.isSpelled_iff.mp (List.find?_some hb))
          (Identifier.isSpelled_iff.mp (List.find?_some hb')) hne hne
  | none =>
    rw [hb] at haliases
    cases hb' : s'.aliasIdentifiers.find? (Identifier.isSpelled n) with
    | some b' => rw [hb'] at haliases; cases haliases
    | none =>
      generalize (InterfaceReference.unaliased s.references).find? _ = x,
        (InterfaceReference.unaliased s'.references).find? _ = y at hinterfaces
      cases hinterfaces with
      | none => trivial
      | some hii' => exact hii'.path_eq

/-- Nothing goes by the new name of an accepted rename. -/
theorem lookup_new (ha : s.checkRename r = .ok a) : s.lookup r.new = .unknown := by
  obtain ⟨-, -, -, ⟨ns, hns, hnot⟩, -⟩ := checkRename_eq_ok_iff.mp ha
  rw [lookup_eq_unknown_iff]
  exact fun i hi hnew => hnot ((mem_localNames_iff hns).mpr ⟨i, hi, hnew⟩)

/-- Before the rename the old name stands for the alias that the check gives. -/
theorem lookup_old (ha : s.checkRename r = .ok a) :
    s.lookup r.old = .localName a (s.interfaceOf? a) := by
  obtain ⟨-, -, hfirst, -, -⟩ := checkRename_eq_ok_iff.mp ha
  rw [lookup, Identifier.find?_of_firstNamed? hfirst]

include hs ha his in
/-- After the rename the new name stands for what the old name stood for before. -/
theorem samePlaces_lookup_new (hold : r.old ≠ "") :
    (s.lookup r.old).SamePlaces (s'.lookup r.new) := by
  obtain ⟨hvalid, -, -, ⟨ns, hns, hnot⟩, -⟩ := checkRename_eq_ok_iff.mp ha
  obtain ⟨hmem, hname⟩ := mem_aliasIdentifiers_of_checkRename ha
  have hnew : r.new ≠ "" := by
    intro h
    have hident := (Request.validate_eq_ok_iff.mp hvalid).1
    rw [h, Word.isIdentifier_empty] at hident
    cases hident
  -- On the other side the aliases of the new name are the images of the renamed one.
  have hrel : Option.Rel (Node.Mirrors (s.isRenamed r wanted a) r.new)
      (s.aliasIdentifiers.find? fun b => decide (b = a))
      (s'.aliasIdentifiers.find? (Identifier.isSpelled r.new)) := by
    refine forall₂_find? hs.aliasIdentifiers fun b hb b' hbb' => ?_
    obtain ⟨q, hq, hqb⟩ := mem_aliasIdentifiers.mp hb
    obtain ⟨m, hm, hbm⟩ :=
      spelling?_of_localNames hns (InterfaceReference.mem_locals_of_alias? hq hqb)
    rw [Identifier.isSpelled, spelling?_alias_mirror ha his hb hbb' hbm]
    by_cases hba : b = a
    · rw [if_pos hba, decide_eq_true hba, beq_self_eq_true]
    · have hmnew : m ≠ r.new := fun h => hnot (h ▸ hm)
      rw [if_neg hba, decide_eq_false hba,
        beq_eq_false_iff_ne.mpr fun h => hmnew (Option.some.inj h)]
  have hfind : s.aliasIdentifiers.find? (fun b => decide (b = a)) = some a := by
    cases hf : s.aliasIdentifiers.find? (fun b => decide (b = a)) with
    | none => exact absurd (decide_eq_true rfl) (List.find?_eq_none.mp hf a hmem)
    | some b =>
      have hb : decide (b = a) = true := List.find?_some (p := fun b => decide (b = a)) hf
      rw [of_decide_eq_true hb]
  rw [hfind] at hrel
  rw [lookup_old ha, lookup]
  cases hb' : s'.aliasIdentifiers.find? (Identifier.isSpelled r.new) with
  | none => rw [hb'] at hrel; cases hrel
  | some b' =>
    rw [hb'] at hrel
    cases hrel with
    | some hab' =>
      exact samePlaces_localName hs hmem (List.mem_of_find?_eq_some hb') hab' hname
        (Identifier.isSpelled_iff.mp (List.find?_some hb')) hold hnew

end Mirrored

/-- Bind the same paths in the file after an accepted rename, carried out on the words at the
ranges of the edits. Every name but the old and the new one stands for a target of the same sort at
the same paths as before. The new name stood for nothing, and stands for the local name that the old
one stood for. -/
theorem resolve_after_rename (h : s.renameEdits r wanted = .ok edits) (hold : r.old ≠ "") :
    ∃ s', bind (s.file.tree.respell (s.file.tree.isEdited edits) r.new)
        (.nodes (.path s.identifier.path) (.path s.specification.path)) = .ok s' ∧
      (∀ n, n ≠ "" → n ≠ r.old → n ≠ r.new →
        ∃ x x', s.resolve n = .ok x ∧ s'.resolve n = .ok x' ∧ x.SamePlaces x') ∧
      s.resolve r.new = .ok .unknown ∧
      ∃ a i? x', s.resolve r.old = .ok (.localName a i?) ∧ s'.resolve r.new = .ok x' ∧
        NameTarget.SamePlaces (.localName a i?) x' := by
  obtain ⟨a, is, ha, his, rfl⟩ := renameEdits_eq_ok_iff.mp h
  obtain ⟨-, -, -, ⟨ns, hns, -⟩, -⟩ := checkRename_eq_ok_iff.mp ha
  rw [isEdited_eq_isRenamed ha his hold]
  obtain ⟨s', hbind, hs⟩ := s.exists_bind_mirror (s.isRenamed r wanted a) r.new
  have hread := readable_of_localNames hns
  have hread' := readable_mirror hs ha his
  refine ⟨s', hbind, fun n hne hnold hnnew => ?_, ?_, ?_⟩
  · exact ⟨_, _, hread.resolve_eq n, hread'.resolve_eq n,
      samePlaces_lookup hs ha his hne hnold hnnew⟩
  · rw [hread.resolve_eq, lookup_new ha]
  · have hsame := samePlaces_lookup_new hs ha his hold
    rw [lookup_old ha] at hsame
    exact ⟨a, s.interfaceOf? a, _, by rw [hread.resolve_eq, lookup_old ha],
      hread'.resolve_eq r.new, hsame⟩

/-- The renamed alias has no interface, another alias has its spelling, and an interface that goes
by its own name stands behind them. -/
theorem resolve_after_rename_twins :
    let entry (ts : Forest) : Tree := .node .parameterizedInterface [.node .interfaceReference ts]
    let type (n : String) : Tree := .node .interfaceType [.identifier n]
    let t : Tree := .node .sourceFile [.node .component [.identifier "M",
      .node .accessList [.node .access [.node .parameterizedInterfaceList [
        entry [.mark .asKw, .space, .identifier "A"],
        entry [type "I", .space, .mark .asKw, .space, .identifier "A"], entry [type "J"]]]],
      .node .implementation [.node .statement [.identifier "A"]]]]
    ∃ s edits s', bind t (.index 0) = .ok s ∧ s.renameEdits ⟨"A", "X"⟩ true = .ok edits ∧
      bind (s.file.tree.respell (s.file.tree.isEdited edits) "X")
        (.nodes (.path s.identifier.path) (.path s.specification.path)) = .ok s' ∧
      (∃ x x', s.resolve "J" = .ok x ∧ s'.resolve "J" = .ok x' ∧ x.SamePlaces x') ∧
      ∃ x x', s.resolve "A" = .ok x ∧ s'.resolve "X" = .ok x' ∧ x.SamePlaces x' := by
  intro entry type t
  obtain ⟨s, edits, hs, h⟩ := Tree.accepts_iff.mp
    (by decide +kernel : t.accepts (.index 0) ⟨"A", "X"⟩ true = true)
  obtain ⟨s', hs', hother, -, a, i?, x', ha, hx', hsame⟩ := resolve_after_rename h (by decide)
  exact ⟨s, edits, s', hs, h, hs', hother "J" (by decide) (by decide) (by decide),
    _, x', ha, hx', hsame⟩

end Scope

end Nesc
