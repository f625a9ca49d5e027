import Nesc.Proofs.Node.Search
import Nesc.Scope.Facts

/-!
# What a scope looks at

Everything a scope finds is an element of its file, at a known distance from a known place: a
reference lies below the specification, an alias is a child of its reference, an interface
identifier a child of the reference's type, a target a child of its statement. So none of these
identifiers can play the part of another. Which identifiers are targets is said by where they stand
(`Scope.IsTarget`, `Scope.mem_targets_iff`).
-/

namespace Nesc

namespace Cursor

theorem mem_elements_of_mem_below {c d : Cursor} (h : d ∈ c.below) : d ∈ c.elements := by
  rw [elements_eq]
  exact List.mem_cons_of_mem c h

theorem mem_children_of_childAfter? {w k : Kind} {c : Cursor} {n : Node k}
    (h : c.childAfter? w k = some n) : n.cursor ∈ c.children := by
  obtain ⟨d, hd, hn⟩ := List.exists_of_findSome?_eq_some h
  rw [as?_eq_some_iff.mp hn]
  exact (List.dropWhile_sublist _).mem hd

end Cursor

namespace InterfaceReference

theorem mem_children_of_alias? {r : InterfaceReference} {a : Identifier} (h : alias? r = some a) :
    a.cursor ∈ r.cursor.children :=
  Cursor.mem_children_of_childAfter? h

/-- An interface identifier stands two steps below its reference, inside its type. -/
theorem mem_children_of_interface? {r : InterfaceReference} {i : Identifier}
    (h : interface? r = some i) :
    ∃ t : InterfaceType, t.cursor ∈ r.cursor.children ∧ i.cursor ∈ t.cursor.children := by
  obtain ⟨t, ht, hi⟩ := Option.bind_eq_some_iff.mp h
  exact ⟨t, Cursor.mem_children_of_child? ht, Cursor.mem_children_of_child? hi⟩

end InterfaceReference

/-- The references of one access clause. -/
def Access.references (a : Access) : List InterfaceReference :=
  ((Access.interfaces? a).toList.flatMap fun l =>
    l.descendants .parameterizedInterface).filterMap ParameterizedInterface.reference?

/-- The identifiers of the bare declarations of one access clause. -/
def Access.declarationIdentifiers (a : Access) : List Identifier :=
  ((Access.declarations? a).toList.flatMap DeclarationList.declarations).filterMap Declaration.name?

namespace Scope

variable {s : Scope}

theorem references_eq_flatMap (s : Scope) :
    s.references = s.accesses.flatMap Access.references := by
  rw [references, List.filterMap_eq_flatMap_toList Access.interfaces?, List.flatMap_assoc,
    List.filterMap_flatMap]
  rfl

theorem declarationIdentifiers_eq_flatMap (s : Scope) :
    s.declarationIdentifiers = s.accesses.flatMap Access.declarationIdentifiers := by
  rw [declarationIdentifiers, List.filterMap_eq_flatMap_toList Access.declarations?,
    List.flatMap_assoc, List.filterMap_flatMap]
  rfl

/-- References lie in the specification, however deep. -/
theorem mem_specification_of_mem_references {r : InterfaceReference} (h : r ∈ s.references) :
    r.cursor ∈ s.specification.cursor.elements := by
  obtain ⟨p, hp, hr⟩ := List.mem_filterMap.mp h
  obtain ⟨l, hl, hp⟩ := List.mem_flatMap.mp hp
  obtain ⟨a, ha, hl⟩ := List.mem_filterMap.mp hl
  have ha' := Cursor.mem_elements_of_mem_below (Cursor.mem_descendants.mp ha)
  have hl' := Node.mem_elements_of_child? ha' hl
  have hp' := Cursor.mem_elements_trans hl'
    (Cursor.mem_elements_of_mem_below (Cursor.mem_descendants.mp hp))
  exact Node.mem_elements_of_child? hp' hr

theorem mem_file_of_mem_references {r : InterfaceReference} (h : r ∈ s.references) :
    r.cursor ∈ s.file.cursor.elements :=
  Cursor.mem_elements_trans s.specification_mem (mem_specification_of_mem_references h)

theorem mem_aliasIdentifiers {a : Identifier} :
    a ∈ s.aliasIdentifiers ↔ ∃ r ∈ s.references, InterfaceReference.alias? r = some a :=
  List.mem_filterMap

theorem mem_specification_of_mem_aliasIdentifiers {a : Identifier} (h : a ∈ s.aliasIdentifiers) :
    a.cursor ∈ s.specification.cursor.elements := by
  obtain ⟨r, hr, ha⟩ := mem_aliasIdentifiers.mp h
  exact Cursor.mem_elements_of_mem_children (mem_specification_of_mem_references hr)
    (InterfaceReference.mem_children_of_alias? ha)

theorem mem_file_of_mem_aliasIdentifiers {a : Identifier} (h : a ∈ s.aliasIdentifiers) :
    a.cursor ∈ s.file.cursor.elements :=
  Cursor.mem_elements_trans s.specification_mem (mem_specification_of_mem_aliasIdentifiers h)

theorem mem_file_of_interface? {r : InterfaceReference} {i : Identifier} (hr : r ∈ s.references)
    (hi : InterfaceReference.interface? r = some i) : i.cursor ∈ s.file.cursor.elements := by
  obtain ⟨t, ht, hchild⟩ := InterfaceReference.mem_children_of_interface? hi
  exact Cursor.mem_elements_of_mem_children
    (Cursor.mem_elements_of_mem_children (mem_file_of_mem_references hr) ht) hchild

/-! ## Targets -/

/-- The component of a scope is the one that the scope's identifier stands right below. -/
theorem component?_eq_some_iff {c : Component} : s.component? = some c ↔
    c.cursor ∈ s.file.cursor.elements ∧ s.identifier.cursor ∈ c.cursor.children := by
  have hmem := s.identifier_mem
  simp only [component?, s.cursor_file] at hmem ⊢
  rw [← Cursor.parent?_eq_some_iff hmem, Option.bind_eq_some_iff]
  simp only [Cursor.as?_eq_some_iff, exists_eq_right']

/-- The identifier is a target of the scope: the first one of a statement that stands right below the
first implementation of the component. The component is the one that the scope's own identifier
stands right below. -/
def IsTarget (s : Scope) (i : Identifier) : Prop :=
  ∃ (c : Component) (m : Implementation) (st : Statement),
    c.cursor ∈ s.file.cursor.elements ∧ s.identifier.cursor ∈ c.cursor.children ∧
      m.IsFirstChild c.cursor ∧ st.cursor ∈ m.cursor.children ∧ i.IsFirstChild st.cursor

/-- The walk to the targets finds an identifier exactly if it is a target by where it stands. -/
theorem mem_targets_iff {i : Identifier} : i ∈ s.targets ↔ s.IsTarget i := by
  simp only [targets, List.mem_flatMap, List.mem_filterMap, Option.mem_toList,
    Option.bind_eq_some_iff, component?_eq_some_iff]
  constructor
  · rintro ⟨m, ⟨c, ⟨hc, hname⟩, hm⟩, st, hst, hi⟩
    exact ⟨c, m, st, hc, hname, Cursor.child?_eq_some_iff.mp hm, Cursor.mem_childrenOf.mp hst,
      Cursor.child?_eq_some_iff.mp hi⟩
  · rintro ⟨c, m, st, hc, hname, hm, hst, hi⟩
    exact ⟨m, ⟨c, ⟨hc, hname⟩, Cursor.child?_eq_some_iff.mpr hm⟩, st,
      Cursor.mem_childrenOf.mpr hst, Cursor.child?_eq_some_iff.mpr hi⟩

/-- A target stands right below a statement of the component. -/
theorem exists_statement_of_mem_targets {i : Identifier} (h : i ∈ s.targets) :
    ∃ c, s.component? = some c ∧ ∃ st : Statement, st.cursor ∈ c.cursor.elements ∧
      i.cursor ∈ st.cursor.children := by
  obtain ⟨c, m, st, hc, hname, hm, hst, hi⟩ := mem_targets_iff.mp h
  have hm' := Cursor.mem_elements_of_mem_children c.cursor.self_mem_elements
    (Cursor.mem_children_of_isFirstChild hm)
  exact ⟨c, component?_eq_some_iff.mpr ⟨hc, hname⟩, st,
    Cursor.mem_elements_of_mem_children hm' hst, Cursor.mem_children_of_isFirstChild hi⟩

/-- The statement of a target, as an element of the file. -/
theorem exists_statement_in_file {i : Identifier} (h : i ∈ s.targets) :
    ∃ st : Statement, st.cursor ∈ s.file.cursor.elements ∧ i.cursor ∈ st.cursor.children := by
  obtain ⟨c, hc, st, hst, hi⟩ := exists_statement_of_mem_targets h
  exact ⟨st, Cursor.mem_elements_trans (component?_eq_some_iff.mp hc).1 hst, hi⟩

theorem mem_file_of_mem_targets {i : Identifier} (h : i ∈ s.targets) :
    i.cursor ∈ s.file.cursor.elements := by
  obtain ⟨st, hst, hi⟩ := exists_statement_in_file h
  exact Cursor.mem_elements_of_mem_children hst hi

/-! ## No identifier plays two parts -/

/-- Nodes that have a child in common are one node, hence of one kind. -/
theorem kind_eq_of_common_child {j k : Kind} {m : Node j} {n : Node k} {d : Cursor}
    (hm : m.cursor ∈ s.file.cursor.elements) (hn : n.cursor ∈ s.file.cursor.elements)
    (hdm : d ∈ m.cursor.children) (hdn : d ∈ n.cursor.children) : j = k := by
  rw [s.cursor_file] at hm hn
  have hcursor := Cursor.parent_unique hm hn hdm hdn
  have hkind := m.nodeKind?_cursor
  rw [hcursor, n.nodeKind?_cursor] at hkind
  exact (Option.some.inj hkind).symm

/-- An alias stands below a reference, a target below a statement. -/
theorem alias_not_mem_targets {a : Identifier} (h : a ∈ s.aliasIdentifiers) : a ∉ s.targets := by
  intro htarget
  obtain ⟨r, hr, ha⟩ := mem_aliasIdentifiers.mp h
  obtain ⟨st, hst, hchild⟩ := exists_statement_in_file htarget
  have hkind := kind_eq_of_common_child (mem_file_of_mem_references hr) hst
    (InterfaceReference.mem_children_of_alias? ha) hchild
  exact absurd hkind (by decide)

/-- An interface identifier stands below an interface type, a target below a statement. -/
theorem interface_not_mem_targets {r : InterfaceReference} {i : Identifier} (hr : r ∈ s.references)
    (hi : InterfaceReference.interface? r = some i) : i ∉ s.targets := by
  intro htarget
  obtain ⟨t, ht, hchild⟩ := InterfaceReference.mem_children_of_interface? hi
  obtain ⟨st, hst, hchild'⟩ := exists_statement_in_file htarget
  have ht' := Cursor.mem_elements_of_mem_children (mem_file_of_mem_references hr) ht
  exact absurd (kind_eq_of_common_child ht' hst hchild hchild') (by decide)

/-- An interface identifier stands below an interface type, an alias below a reference. -/
theorem interface_not_mem_aliasIdentifiers {r : InterfaceReference} {i : Identifier}
    (hr : r ∈ s.references) (hi : InterfaceReference.interface? r = some i) :
    i ∉ s.aliasIdentifiers := by
  intro h
  obtain ⟨t, ht, hchild⟩ := InterfaceReference.mem_children_of_interface? hi
  obtain ⟨q, hq, ha⟩ := mem_aliasIdentifiers.mp h
  have ht' := Cursor.mem_elements_of_mem_children (mem_file_of_mem_references hr) ht
  have hkind := kind_eq_of_common_child ht' (mem_file_of_mem_references hq) hchild
    (InterfaceReference.mem_children_of_alias? ha)
  exact absurd hkind (by decide)

/-! ## Scopes of components -/

/-- The scope is bound to a component: to its name and its specification. -/
structure IsOf (s : Scope) (c : Component) : Prop where
  mem_file : c.cursor ∈ s.file.cursor.elements
  name? : Component.name? c = some s.identifier
  specification? : Component.specification? c = some s.specification

theorem IsOf.component?_eq {c : Component} (h : s.IsOf c) : s.component? = some c :=
  component?_eq_some_iff.mpr ⟨h.mem_file, Cursor.mem_children_of_child? h.name?⟩

/-- A scope is that of a component exactly if it has the component's name and specification. -/
theorem ofComponent_eq_ok_iff {u : SourceFile} {hu : u.cursor = .root u.tree} {c : Component}
    {hc : c.cursor ∈ u.cursor.elements} :
    ofComponent u hu c hc = .ok s ↔ s.file = u ∧ s.IsOf c := by
  constructor
  · intro h
    unfold ofComponent at h
    split at h
    · cases h
    next i hi =>
      split at h
      · cases h
      next l hl =>
        cases h
        exact ⟨rfl, hc, hi, hl⟩
  · obtain ⟨file, identifier, specification, -, -, -⟩ := s
    rintro ⟨rfl, -, hi, hl⟩
    unfold ofComponent
    split
    next hi' => cases hi'.symm.trans hi
    next i hi' =>
      cases hi'.symm.trans hi
      split
      next hl' => cases hl'.symm.trans hl
      next l hl' =>
        cases hl'.symm.trans hl
        rfl

theorem ofComponent?_eq_ok_iff {u : SourceFile} {hu : u.cursor = .root u.tree}
    {c? : Option Component} {hc : ∀ c ∈ c?, c.cursor ∈ u.cursor.elements} :
    ofComponent? u hu c? hc = .ok s ↔ s.file = u ∧ ∃ c, c? = some c ∧ s.IsOf c := by
  cases c? with
  | none => exact ⟨nofun, fun ⟨_, _, h, _⟩ => nomatch h⟩
  | some c =>
    have h : ofComponent? u hu (some c) hc = .ok s ↔ ofComponent u hu c (hc c rfl) = .ok s := by
      rw [ofComponent?]
      cases ofComponent u hu c (hc c rfl) with
      | error m => exact ⟨nofun, nofun⟩
      | ok s' => exact ⟨fun h => congrArg Except.ok (Except.ok.inj h), fun h => congrArg _ h⟩
    rw [h, ofComponent_eq_ok_iff]
    exact ⟨fun ⟨hf, hof⟩ => ⟨hf, c, rfl, hof⟩, fun ⟨hf, _, hc, hof⟩ => ⟨hf, Option.some.inj hc ▸ hof⟩⟩

/-- Binding to an index gives the scope of the component at the index, if there is one and it has a
name and a specification. -/
theorem bind_index_eq_ok_iff {t : Tree} {i : Nat} : bind t (.index i) = .ok s ↔
    t.file? = some s.file ∧ ∃ c, (SourceFile.components s.file)[i]? = some c ∧ s.IsOf c := by
  unfold bind
  split
  next hu =>
    rw [hu]
    exact ⟨nofun, fun ⟨h, _⟩ => nomatch h⟩
  next u hu =>
    rw [ofComponent?_eq_ok_iff, hu, Option.some.injEq]
    constructor
    · rintro ⟨rfl, h⟩
      exact ⟨rfl, h⟩
    · rintro ⟨rfl, h⟩
      exact ⟨rfl, h⟩

theorem exists_bind_index {t : Tree} {i : Nat} {u : SourceFile} {c : Component} {n : Identifier}
    {l : AccessList} (hu : t.file? = some u) (hc : (SourceFile.components u)[i]? = some c)
    (hn : Component.name? c = some n) (hl : Component.specification? c = some l) :
    ∃ s, bind t (.index i) = .ok s ∧ s.file = u ∧ s.IsOf c := by
  have hroot : u.cursor = .root u.tree := by
    rw [Node.tree, Cursor.as?_eq_some_iff.mp hu]
    rfl
  have hmem : c.cursor ∈ u.cursor.elements :=
    Node.mem_elements_of_mem_childrenOf u.cursor.self_mem_elements (List.mem_of_getElem? hc)
  have hof : IsOf ⟨u, n, l, hroot, Node.mem_elements_of_child? hmem hn,
      Node.mem_elements_of_child? hmem hl⟩ c := ⟨hmem, hn, hl⟩
  exact ⟨_, bind_index_eq_ok_iff.mpr ⟨hu, c, hc, hof⟩, rfl, hof⟩

theorem ofNodes?_eq_ok_iff {u : SourceFile} {hu : u.cursor = .root u.tree} {i? l? : Option Cursor}
    {hi : ∀ c ∈ i?, c ∈ u.cursor.elements} {hl : ∀ c ∈ l?, c ∈ u.cursor.elements} :
    ofNodes? u hu i? l? hi hl = .ok s ↔
      s.file = u ∧ i? = some s.identifier.cursor ∧ l? = some s.specification.cursor := by
  have hbind : ∀ {k : Kind} {c? : Option Cursor} {n : Node k},
      c?.bind (Cursor.as? k) = some n ↔ c? = some n.cursor := by
    intro k c? n
    cases c? with
    | none => exact ⟨nofun, nofun⟩
    | some c => rw [Option.bind_some, Cursor.as?_eq_some_iff, Option.some.injEq, eq_comm]
  constructor
  · intro h
    unfold ofNodes? at h
    split at h
    next i l hi' hl' =>
      cases h
      exact ⟨rfl, hbind.mp hi', hbind.mp hl'⟩
    · cases h
  · obtain ⟨file, identifier, specification, -, -, -⟩ := s
    rintro ⟨rfl, hi', hl'⟩
    unfold ofNodes?
    split
    next i l hi'' hl'' =>
      cases hi''.symm.trans (hbind.mpr hi')
      cases hl''.symm.trans (hbind.mpr hl')
      rfl
    next hno => exact absurd (hbind.mpr hl') (hno _ _ (hbind.mpr hi'))

/-- Binding to chosen nodes gives the scope of the nodes that are found. -/
theorem bind_nodes_eq_ok_iff {t : Tree} {i l : Selector} : bind t (.nodes i l) = .ok s ↔
    t.file? = some s.file ∧ i.find? s.file.cursor = some s.identifier.cursor ∧
      l.find? s.file.cursor = some s.specification.cursor := by
  unfold bind
  split
  next hu =>
    rw [hu]
    exact ⟨nofun, fun ⟨h, _⟩ => nomatch h⟩
  next u hu =>
    rw [ofNodes?_eq_ok_iff, hu, Option.some.injEq]
    constructor
    · rintro ⟨rfl, h⟩
      exact ⟨rfl, h⟩
    · rintro ⟨rfl, h⟩
      exact ⟨rfl, h⟩

/-- A scope that a test of bound scopes accepts. -/
theorem exists_bind_of_any {t : Tree} {b : Binding} {p : Scope → Bool}
    (h : (bind t b).toOption.any p = true) : ∃ s, bind t b = .ok s ∧ p s = true := by
  cases hs : bind t b with
  | error e =>
    rw [hs] at h
    cases h
  | ok s =>
    rw [hs] at h
    exact ⟨s, rfl, h⟩

end Scope

end Nesc
