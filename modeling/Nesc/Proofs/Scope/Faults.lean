import Nesc.Proofs.Node.Broken
import Nesc.Proofs.Scope.AliasMap

/-!
# Faults of a scope

A question about a scope fails only at an identifier without a name token, and its fault gives the
range of one (`Tree.HasFault`): the identifiers that are read are elements of the file, and no fault
is changed on its way out. Binding a scope fails only at a component that lacks its name or its
specification (`Component.Lacks`).
-/

namespace Nesc

/-- The fault is that of an identifier of the tree that has no name token. -/
def Tree.HasFault (t : Tree) (m : Malformed) : Prop :=
  ∃ i : Identifier, i.cursor ∈ (Cursor.root t).elements ∧ ¬ i.HasToken ∧ m = .of i .name

theorem Tree.Intact.not_hasFault {t : Tree} (h : t.Intact) (m : Malformed) : ¬ t.HasFault m := by
  rintro ⟨i, hi, hbroken, -⟩
  exact hbroken (h i hi)

/-! ## Binding -/

/-- The component has no child of the kind of the part that the complaint names. -/
inductive Component.Lacks (c : Component) : Malformed → Prop
  | name (h : ∀ d ∈ c.cursor.children, d.tree.nodeKind? ≠ some .identifier) : Lacks c (.of c .name)
  | specification (h : ∀ d ∈ c.cursor.children, d.tree.nodeKind? ≠ some .accessList) :
      Lacks c (.of c .specification)

/-- The component that a binding asks for. -/
def Binding.component? (t : Tree) (b : Binding) : Option Component :=
  t.file?.bind fun u => b.componentIn? u

theorem Cursor.nodeKind?_ne_of_child? {k : Kind} {c d : Cursor} (h : c.child? k = none)
    (hd : d ∈ c.children) : d.tree.nodeKind? ≠ some k := by
  intro hk
  have hnone := List.findSome?_eq_none_iff.mp h d hd
  rw [(as?_eq_some_iff (n := ⟨d, hk⟩)).mpr rfl] at hnone
  cases hnone

namespace Scope

variable {s : Scope} {t : Tree} {m : Malformed} {n : String} {u : SourceFile}
  {hu : u.cursor = .root u.tree}

/-- Binding a component fails only if it lacks its name or its specification, and the fault says
which. -/
theorem lacks_of_ofComponent {c : Component} {hc : c.cursor ∈ u.cursor.elements}
    (h : ofComponent u hu c hc = .error m) : c.Lacks m := by
  unfold ofComponent at h
  split at h
  next hname =>
    cases h
    exact .name fun d => Cursor.nodeKind?_ne_of_child? hname
  next =>
    split at h
    next hspecification =>
      cases h
      exact .specification fun d => Cursor.nodeKind?_ne_of_child? hspecification
    · cases h

/-- No component was found, or the one that was found lacks a part. -/
theorem ofComponent?_error {c? : Option Component} {hc : ∀ c ∈ c?, c.cursor ∈ u.cursor.elements}
    {e : BindError} (h : ofComponent? u hu c? hc = .error e) :
    c? = none ∧ e = .noComponent ∨ ∃ c m, c? = some c ∧ e = .malformed m ∧ c.Lacks m := by
  cases c? with
  | none => exact .inl ⟨rfl, (Except.error.inj h).symm⟩
  | some c =>
    rw [ofComponent?] at h
    cases hof : ofComponent u hu c (hc c rfl) with
    | ok s =>
      rw [hof] at h
      cases h
    | error m =>
      rw [hof] at h
      exact .inr ⟨c, m, rfl, (Except.error.inj h).symm, lacks_of_ofComponent hof⟩

theorem lacks_of_ofComponent? {c? : Option Component} {hc : ∀ c ∈ c?, c.cursor ∈ u.cursor.elements}
    (h : ofComponent? u hu c? hc = .error (.malformed m)) : ∃ c, c? = some c ∧ c.Lacks m := by
  rcases ofComponent?_error h with ⟨-, hno⟩ | ⟨c, m', hc, he, hlacks⟩
  · cases hno
  · cases he
    exact ⟨c, hc, hlacks⟩

theorem malformed_of_ofComponent? {c? : Option Component} {c : Component} {e : BindError}
    {hc : ∀ c ∈ c?, c.cursor ∈ u.cursor.elements} (hsome : c? = some c)
    (h : ofComponent? u hu c? hc = .error e) : ∃ m, e = .malformed m := by
  rcases ofComponent?_error h with ⟨hnone, -⟩ | ⟨-, m, -, he, -⟩
  · rw [hsome] at hnone
    cases hnone
  · exact ⟨m, he⟩

theorem not_malformed_of_ofNodes? {i? l? : Option Cursor} {hi : ∀ c ∈ i?, c ∈ u.cursor.elements}
    {hl : ∀ c ∈ l?, c ∈ u.cursor.elements} : ofNodes? u hu i? l? hi hl ≠ .error (.malformed m) := by
  unfold ofNodes?
  split <;> exact nofun

/-- A binding with a fault asks for a component that lacks what the fault names. -/
theorem lacks_of_bind {b : Binding} (h : bind t b = .error (.malformed m)) :
    ∃ c, b.component? t = some c ∧ c.cursor ∈ (Cursor.root t).elements ∧ c.Lacks m := by
  unfold bind at h
  split at h
  next => cases h
  next u hu =>
    have hcomponent : b.component? t = b.componentIn? u := by
      rw [Binding.component?, hu, Option.bind_some]
    rw [hcomponent, ← Cursor.as?_eq_some_iff.mp hu]
    cases b with
    | nodes i l => exact absurd h not_malformed_of_ofNodes?
    | _ =>
      obtain ⟨c, hc, hlacks⟩ := lacks_of_ofComponent? h
      exact ⟨c, hc, Binding.mem_elements_of_componentIn? hc, hlacks⟩

/-- A binding that asks for a component of the file fails in no other way than by a fault. -/
theorem malformed_of_bind {b : Binding} {c : Component} {e : BindError}
    (hc : b.component? t = some c) (h : bind t b = .error e) : ∃ m, e = .malformed m := by
  obtain ⟨u, hu, hc⟩ := Option.bind_eq_some_iff.mp hc
  unfold bind at h
  split at h
  next hnone => cases hnone.symm.trans hu
  next u' hu' =>
    cases hu'.symm.trans hu
    cases b with
    | nodes i l => cases hc
    | _ => exact malformed_of_ofComponent? hc h

/-- The file of a scope is the tree that it was bound in. -/
theorem tree_file_of_bind {b : Binding} (h : bind t b = .ok s) : s.file.tree = t := by
  have hfile : t.file? = some s.file := by
    unfold bind at h
    split at h
    next => cases h
    next u hu =>
      rw [hu]
      cases b with
      | nodes i l => rw [(ofNodes?_eq_ok_iff.mp h).1]
      | _ => rw [(ofComponent?_eq_ok_iff.mp h).1]
  rw [Node.tree, Cursor.as?_eq_some_iff.mp hfile]
  rfl

/-! ## What is read is in the file -/

theorem mem_file_of_local? {r : InterfaceReference} {i : Identifier} (hr : r ∈ s.references)
    (hi : InterfaceReference.local? r = some i) : i.cursor ∈ s.file.cursor.elements := by
  rcases Option.or_eq_some_iff.mp hi with ha | ⟨-, hi⟩
  · exact mem_file_of_mem_aliasIdentifiers (mem_aliasIdentifiers.mpr ⟨r, hr, ha⟩)
  · exact mem_file_of_interface? hr hi

theorem mem_file_of_mem_declarationIdentifiers {i : Identifier}
    (h : i ∈ s.declarationIdentifiers) : i.cursor ∈ s.file.cursor.elements := by
  obtain ⟨d, hd, hi⟩ := List.mem_filterMap.mp h
  obtain ⟨l, hl, hd⟩ := List.mem_flatMap.mp hd
  obtain ⟨a, ha, hl⟩ := List.mem_filterMap.mp hl
  have ha' := Cursor.mem_elements_trans s.specification_mem
    (Cursor.mem_elements_of_mem_below (Cursor.mem_descendants.mp ha))
  have hd' := Node.mem_elements_of_mem_childrenOf (Node.mem_elements_of_child? ha' hl) hd
  exact Node.mem_elements_of_child? hd' hi

theorem exists_reference_of_interfaceOf? {a i : Identifier} (h : s.interfaceOf? a = some i) :
    ∃ r ∈ s.references, InterfaceReference.interface? r = some i := by
  obtain ⟨e, he, rfl⟩ := Option.map_eq_some_iff.mp h
  obtain ⟨r, hr, -, hi⟩ := AliasMap.exists_reference_of_mem_entries (List.mem_of_find?_eq_some he)
  exact ⟨r, hr, hi⟩

/-! ## Faults of the facts and lookups -/

theorem hasFault_of_blames {is : List Identifier} (h : Identifier.Blames is m)
    (hmem : ∀ i ∈ is, i.cursor ∈ s.file.cursor.elements) : s.file.tree.HasFault m := by
  obtain ⟨i, hi, hbroken⟩ := h
  have hfile := hmem i hi
  rw [s.cursor_file] at hfile
  exact ⟨i, hfile, hbroken⟩

theorem hasFault_of_identifier {i : Identifier} (h : Identifier.name i = .error m)
    (hmem : i.cursor ∈ s.file.cursor.elements) : s.file.tree.HasFault m := by
  rw [s.cursor_file] at hmem
  exact ⟨i, hmem, Identifier.name_eq_error_iff.mp h⟩

theorem hasFault_of_name (h : s.name = .error m) : s.file.tree.HasFault m :=
  hasFault_of_identifier h s.identifier_mem

theorem hasFault_of_interfaceNames (h : s.interfaceNames = .error m) : s.file.tree.HasFault m := by
  refine hasFault_of_blames (Identifier.blames_of_names (map_eq_error_iff.mp h)) fun i hi => ?_
  obtain ⟨r, hr, hi⟩ := List.mem_filterMap.mp hi
  exact mem_file_of_interface? hr hi

theorem hasFault_of_localNames (h : s.localNames = .error m) : s.file.tree.HasFault m := by
  refine hasFault_of_blames (Identifier.blames_of_names h) fun i hi => ?_
  obtain ⟨r, hr, hi⟩ := List.mem_filterMap.mp hi
  exact mem_file_of_local? hr hi

theorem hasFault_of_aliasNamed? (h : s.aliasNamed? n = .error m) : s.file.tree.HasFault m :=
  hasFault_of_blames (Identifier.blames_of_firstNamed? h) fun _ => mem_file_of_mem_aliasIdentifiers

theorem hasFault_of_isAliasName (h : s.isAliasName n = .error m) : s.file.tree.HasFault m :=
  hasFault_of_aliasNamed? (map_eq_error_iff.mp h)

theorem hasFault_of_interfaceNamed? (h : s.interfaceNamed? n = .error m) :
    s.file.tree.HasFault m :=
  hasFault_of_aliasNamed? (map_eq_error_iff.mp h)

theorem exists_reference_of_interfaceNamed? {i : Identifier}
    (h : s.interfaceNamed? n = .ok (some i)) :
    ∃ r ∈ s.references, InterfaceReference.interface? r = some i := by
  obtain ⟨a?, -, h⟩ := map_eq_ok_iff.mp h
  obtain ⟨a, -, h⟩ := Option.bind_eq_some_iff.mp h
  exact exists_reference_of_interfaceOf? h

/-- The name behind an alias takes two readings: the alias by its name, and the interface that it
stands for. -/
theorem hasFault_of_interfaceNameOf? (h : s.interfaceNameOf? n = .error m) :
    s.file.tree.HasFault m := by
  rcases bind_eq_error_iff.mp h with h | ⟨i?, hi, h⟩
  · exact hasFault_of_interfaceNamed? h
  · cases i? with
    | none => cases h
    | some i =>
      rcases bind_eq_error_iff.mp h with h | ⟨_, -, h⟩
      · obtain ⟨r, hr, hi⟩ := exists_reference_of_interfaceNamed? hi
        exact hasFault_of_identifier h (mem_file_of_interface? hr hi)
      · cases h

/-- Resolving a name reads aliases first and then the interfaces that go by their own names; all are
identifiers of the file. -/
theorem hasFault_of_resolve (h : s.resolve n = .error m) : s.file.tree.HasFault m := by
  rcases bind_eq_error_iff.mp h with h | ⟨a?, -, h⟩
  · exact hasFault_of_aliasNamed? h
  · cases a? with
    | some a => cases h
    | none =>
      rcases bind_eq_error_iff.mp h with h | ⟨i?, -, h⟩
      · refine hasFault_of_blames (Identifier.blames_of_firstNamed? h) fun i hi => ?_
        obtain ⟨r, hr, hi⟩ := List.mem_filterMap.mp hi
        split at hi
        · exact mem_file_of_interface? hr hi
        · cases hi
      · cases i? <;> cases h

end Scope

end Nesc
