import Mathlib.Data.List.Nodup
import Nesc.Node.Field
import Nesc.Proofs.Node.Search
import Nesc.Proofs.Scope.Walk
import Nesc.Proofs.Tree.Order

/-!
# The walk of a specification

The walk of a specification goes down to access clauses at any depth, through the first list of each
clause and on to references or to bare declarations. It finds what lies at the end of such a way and
nothing else, whether the parts are read by their typed names or collected by the names of their
fields. An identifier of a bare declaration stands three steps below its clause, so that no two
clauses share one; a reference may stand at any depth, and clauses inside each other list it more
than once. Where clauses are not nested, declarations are found in document order; where interfaces
are not nested either, so are references.
-/

namespace Nesc

/-! ## Fields of many nodes -/

/-- How nodes of kind `k` find the part `f`. -/
def Kind.shape? (f : Field) (k : Kind) : Option Shape := k.schema?.bind (·.slots.lookup f)

namespace Cursor

theorem collectFields_eq_flatMap (f : Field) (k : Kind) (cs : List Cursor) :
    collectFields f k cs = cs.flatMap fun c =>
      ((c.field? f).toList.flatMap FieldValue.toNodes).filterMap (as? k) := by
  rw [collectFields, List.filterMap_eq_flatMap_toList (field? f), List.flatMap_assoc,
    List.filterMap_flatMap]

theorem dropLast_path_of_mem_children {c d : Cursor} (h : d ∈ c.children) :
    d.path.dropLast = c.path := by
  obtain ⟨n, -, hn⟩ := exists_index_of_mem_children h
  rw [hn, List.dropLast_concat]

end Cursor

namespace Node

variable {j k : Kind} {f : Field} {s : Shape}

theorem as?_cursor (n : Node k) : n.cursor.as? k = some n := Cursor.as?_eq_some_iff.mpr rfl

theorem field?_eq_read (h : j.shape? f = some s) (n : Node j) :
    n.cursor.field? f = s.read n.cursor := by
  rw [Cursor.field?, Cursor.schema?, n.nodeKind?_cursor, Option.bind_some]
  obtain ⟨schema, hschema, hslot⟩ := Option.bind_eq_some_iff.mp h
  rw [hschema]
  simp [hslot]

/-- Collecting a field of one part over nodes collects the parts that are there. -/
theorem collectFields_child (h : j.shape? f = some (.child k)) (ns : List (Node j)) :
    Cursor.collectFields f k (ns.map cursor) = ns.filterMap (child? k) := by
  rw [Cursor.collectFields_eq_flatMap, List.flatMap_map, List.filterMap_eq_flatMap_toList]
  apply List.flatMap_congr
  intro n _
  rw [field?_eq_read h, Shape.read, child?]
  cases n.cursor.child? k with
  | none => rfl
  | some m => simp [FieldValue.toNodes, as?_cursor]

/-- Collecting a field of many parts over nodes collects the parts of each. -/
theorem collectFields_children (h : j.shape? f = some (.children k)) (ns : List (Node j)) :
    Cursor.collectFields f k (ns.map cursor) = ns.flatMap (childrenOf k) := by
  rw [Cursor.collectFields_eq_flatMap, List.flatMap_map]
  apply List.flatMap_congr
  intro n _
  rw [field?_eq_read h, Shape.read, childrenOf]
  simp [FieldValue.toNodes, List.filterMap_map, as?_cursor]

end Node

/-! ## One clause -/

namespace Access

variable {a : Access}

/-- A clause lists a reference exactly if the reference is the first one of an interface at any
depth below the clause's first list. -/
theorem mem_references_iff {r : InterfaceReference} : r ∈ references a ↔
    ∃ (l : ParameterizedInterfaceList) (p : ParameterizedInterface),
      l.IsFirstChild a.cursor ∧ p.cursor.LiesBelow l.cursor ∧ r.IsFirstChild p.cursor := by
  simp only [references, List.mem_filterMap, List.mem_flatMap, Option.mem_toList]
  constructor
  · rintro ⟨p, ⟨l, hl, hp⟩, hr⟩
    exact ⟨l, p, Cursor.child?_eq_some_iff.mp hl, Cursor.mem_descendants_iff.mp hp,
      Cursor.child?_eq_some_iff.mp hr⟩
  · rintro ⟨l, p, hl, hp, hr⟩
    exact ⟨p, ⟨l, Cursor.child?_eq_some_iff.mpr hl, Cursor.mem_descendants_iff.mpr hp⟩,
      Cursor.child?_eq_some_iff.mpr hr⟩

/-- A clause lists an identifier exactly if it is the first one of a declaration right below the
clause's first list. -/
theorem mem_declarationIdentifiers_iff {i : Identifier} : i ∈ declarationIdentifiers a ↔
    ∃ (l : DeclarationList) (d : Declaration),
      l.IsFirstChild a.cursor ∧ d.cursor ∈ l.cursor.children ∧ i.IsFirstChild d.cursor := by
  simp only [declarationIdentifiers, List.mem_filterMap, List.mem_flatMap, Option.mem_toList]
  constructor
  · rintro ⟨d, ⟨l, hl, hd⟩, hi⟩
    exact ⟨l, d, Cursor.child?_eq_some_iff.mp hl, Cursor.mem_childrenOf.mp hd,
      Cursor.child?_eq_some_iff.mp hi⟩
  · rintro ⟨l, d, hl, hd, hi⟩
    exact ⟨d, ⟨l, Cursor.child?_eq_some_iff.mpr hl, Cursor.mem_childrenOf.mpr hd⟩,
      Cursor.child?_eq_some_iff.mpr hi⟩

theorem mem_elements_of_mem_references {r : InterfaceReference} (h : r ∈ references a) :
    r.cursor ∈ a.cursor.elements := by
  obtain ⟨l, p, hl, hp, hr⟩ := mem_references_iff.mp h
  have hl := Cursor.mem_elements_of_mem_children a.cursor.self_mem_elements
    (Cursor.mem_children_of_isFirstChild hl)
  have hp := Cursor.mem_elements_of_mem_below (Cursor.mem_below_iff.mpr hp)
  exact Cursor.mem_elements_of_mem_children (Cursor.mem_elements_trans hl hp)
    (Cursor.mem_children_of_isFirstChild hr)

/-- A bare declaration's identifier stands three steps below the clause. -/
theorem path_eq_of_mem_declarationIdentifiers {i : Identifier} (h : i ∈ declarationIdentifiers a) :
    a.cursor.path = i.cursor.path.dropLast.dropLast.dropLast := by
  obtain ⟨l, d, hl, hd, hi⟩ := mem_declarationIdentifiers_iff.mp h
  rw [Cursor.dropLast_path_of_mem_children (Cursor.mem_children_of_isFirstChild hi),
    Cursor.dropLast_path_of_mem_children hd,
    Cursor.dropLast_path_of_mem_children (Cursor.mem_children_of_isFirstChild hl)]

theorem mem_elements_of_mem_declarationIdentifiers {i : Identifier}
    (h : i ∈ declarationIdentifiers a) : i.cursor ∈ a.cursor.elements := by
  obtain ⟨l, d, hl, hd, hi⟩ := mem_declarationIdentifiers_iff.mp h
  have hl := Cursor.mem_elements_of_mem_children a.cursor.self_mem_elements
    (Cursor.mem_children_of_isFirstChild hl)
  exact Cursor.mem_elements_of_mem_children (Cursor.mem_elements_of_mem_children hl hd)
    (Cursor.mem_children_of_isFirstChild hi)

/-- The references of a clause come from left to right if its interfaces are not nested. -/
theorem leftToRight_references (h : a.cursor.Unnested .parameterizedInterface) :
    Node.LeftToRight (references a) := by
  apply Node.LeftToRight.filterMap_child?
  cases hl : interfaces? a with
  | none => exact .nil
  | some l =>
    rw [Option.toList_some, List.flatMap_singleton]
    have hbelow : l.cursor.LiesBelow a.cursor := .single (Cursor.mem_children_of_child? hl)
    exact Node.leftToRight_descendants (h.mono hbelow)

/-- The identifiers of a clause's declarations come from left to right, as children do. -/
theorem leftToRight_declarationIdentifiers (a : Access) :
    Node.LeftToRight (declarationIdentifiers a) := by
  apply Node.LeftToRight.filterMap_child?
  cases declarations? a with
  | none => exact .nil
  | some l =>
    rw [Option.toList_some, List.flatMap_singleton]
    exact Node.leftToRight_childrenOf .declaration l

end Access

/-! ## The whole specification -/

namespace Scope

variable {s : Scope}

/-- The references, with the parts on the way to them collected by the names of their fields. -/
def referencesByField (s : Scope) : List InterfaceReference :=
  let lists : List ParameterizedInterfaceList :=
    Cursor.collectFields .interfaces _ (s.accesses.map Node.cursor)
  let interfaces := lists.flatMap fun l => l.descendants .parameterizedInterface
  Cursor.collectFields .reference _ (interfaces.map Node.cursor)

/-- The identifiers of the bare declarations, collected by the names of fields. -/
def declarationsByField (s : Scope) : List Identifier :=
  let lists : List DeclarationList :=
    Cursor.collectFields .declarations _ (s.accesses.map Node.cursor)
  let declarations : List Declaration :=
    Cursor.collectFields .declarations _ (lists.map Node.cursor)
  Cursor.collectFields .name _ (declarations.map Node.cursor)

/-- Reading by typed names and by the names of fields is the same walk. -/
theorem referencesByField_eq (s : Scope) : s.referencesByField = s.references := by
  rw [referencesByField, Node.collectFields_child rfl, Node.collectFields_child rfl]
  rfl

theorem declarationsByField_eq (s : Scope) : s.declarationsByField = s.declarationIdentifiers := by
  rw [declarationsByField, Node.collectFields_child rfl, Node.collectFields_children rfl,
    Node.collectFields_child rfl]
  rfl

theorem mem_accesses_iff {a : Access} :
    a ∈ s.accesses ↔ a.cursor.LiesBelow s.specification.cursor :=
  Cursor.mem_descendants_iff

/-- Clauses stand at different places, and the identifier of a declaration leads back to its own. -/
theorem nodup_declarationIdentifiers (s : Scope) : s.declarationIdentifiers.Nodup := by
  rw [declarationIdentifiers_eq_flatMap, List.nodup_flatMap]
  constructor
  · intro a _
    have hordered := (Access.leftToRight_declarationIdentifiers a).pairwise_precedes
    exact Node.nodup_of_pairwise_precedes hordered
  · apply (Cursor.pairwise_precedes_descendants .access s.specification.cursor).imp
    intro a b hab i hi hi'
    refine hab.path_ne ?_
    rw [Access.path_eq_of_mem_declarationIdentifiers hi,
      Access.path_eq_of_mem_declarationIdentifiers hi']

/-- Clauses apart from one another give identifiers from left to right. -/
theorem leftToRight_declarationIdentifiers (h : s.specification.cursor.Unnested .access) :
    Node.LeftToRight s.declarationIdentifiers := by
  rw [declarationIdentifiers_eq_flatMap]
  exact (Node.leftToRight_descendants h).flatMap
    (fun a _ => Access.leftToRight_declarationIdentifiers a)
    (fun _ _ _ hi => Access.mem_elements_of_mem_declarationIdentifiers hi)

/-- References come from left to right if neither clauses nor interfaces are nested. -/
theorem leftToRight_references (h : s.specification.cursor.Unnested .access)
    (hentries : s.specification.cursor.Unnested .parameterizedInterface) :
    Node.LeftToRight s.references := by
  rw [references_eq_flatMap]
  exact (Node.leftToRight_descendants h).flatMap
    (fun a ha => Access.leftToRight_references (hentries.mono (mem_accesses_iff.mp ha)))
    (fun _ _ _ hr => Access.mem_elements_of_mem_references hr)

/-- The walk, read by typed names or by the names of fields, finds a reference exactly if it is the
first one of an interface anywhere below the first list of interfaces of a clause anywhere below the
specification, and an identifier exactly if it is the first one of a declaration in the first list
of declarations of such a clause. It finds no identifier twice. Clauses that are not nested give the
identifiers in document order, and the references too if interfaces are not nested either. -/
theorem walk_specification (s : Scope) :
    s.referencesByField = s.references ∧
    s.declarationsByField = s.declarationIdentifiers ∧
    (∀ r, r ∈ s.references ↔ ∃ (a : Access) (l : ParameterizedInterfaceList)
      (p : ParameterizedInterface), a.cursor.LiesBelow s.specification.cursor ∧
        l.IsFirstChild a.cursor ∧ p.cursor.LiesBelow l.cursor ∧ r.IsFirstChild p.cursor) ∧
    (∀ i, i ∈ s.declarationIdentifiers ↔ ∃ (a : Access) (l : DeclarationList) (d : Declaration),
      a.cursor.LiesBelow s.specification.cursor ∧
        l.IsFirstChild a.cursor ∧ d.cursor ∈ l.cursor.children ∧ i.IsFirstChild d.cursor) ∧
    s.declarationIdentifiers.Nodup ∧
    (s.specification.cursor.Unnested .access →
      (s.declarationIdentifiers.Pairwise fun i j => i.cursor.Precedes j.cursor) ∧
      (s.specification.cursor.Unnested .parameterizedInterface →
        (s.references.Pairwise fun q r => q.cursor.Precedes r.cursor) ∧ s.references.Nodup)) := by
  refine ⟨referencesByField_eq s, declarationsByField_eq s, fun r => ?_, fun i => ?_,
    nodup_declarationIdentifiers s, fun h => ⟨?_, fun hentries => ?_⟩⟩
  · rw [references_eq_flatMap, List.mem_flatMap]
    simp only [mem_accesses_iff, Access.mem_references_iff, exists_and_left]
  · rw [declarationIdentifiers_eq_flatMap, List.mem_flatMap]
    simp only [mem_accesses_iff, Access.mem_declarationIdentifiers_iff, exists_and_left]
  · exact (leftToRight_declarationIdentifiers h).pairwise_precedes
  · have hordered := (leftToRight_references h hentries).pairwise_precedes
    exact ⟨hordered, Node.nodup_of_pairwise_precedes hordered⟩

/-- The first clause has a second list of interfaces, which nothing reads, and the second clause
stands inside a broken node. -/
theorem walk_specification_brokenClause :
    let entry (n : String) : Tree := .node .parameterizedInterface [.node .interfaceReference [
      .node .interfaceType [.identifier n]]]
    let bare (n : String) : Tree := .node .declaration [.mark .commandKw, .identifier n]
    let t : Tree := .node .sourceFile [.node .component [.identifier "M", .node .accessList [
      .node .access [.node .declarationList [bare "start", bare "stop"],
        .node .parameterizedInterfaceList [entry "I", .node .error [entry "J"]],
        .node .parameterizedInterfaceList [entry "X"]],
      .node .error [.node .access [.node .declarationList [bare "fired"],
        .node .parameterizedInterfaceList [entry "I"]]]]]]
    ∃ s, bind t (.index 0) = .ok s ∧ s.references.length = 3 ∧ s.declarationIdentifiers.length = 3 ∧
      (s.declarationIdentifiers.Pairwise fun i j => i.cursor.Precedes j.cursor) ∧
      (s.references.Pairwise fun q r => q.cursor.Precedes r.cursor) ∧ s.references.Nodup := by
  intro entry bare t
  have htest : ((bind t (.index 0)).toOption.any fun s =>
      s.references.length == 3 && s.declarationIdentifiers.length == 3 &&
        decide (s.specification.cursor.Unnested .access ∧
          s.specification.cursor.Unnested .parameterizedInterface)) = true := by
    decide +kernel
  obtain ⟨s, hs, htest⟩ := exists_bind_of_any htest
  simp only [Bool.and_eq_true, beq_iff_eq, decide_eq_true_eq] at htest
  obtain ⟨⟨hreferences, hdeclarations⟩, hclauses, hentries⟩ := htest
  obtain ⟨-, -, -, -, -, hwalk⟩ := walk_specification s
  obtain ⟨hidentifiers, hordered⟩ := hwalk hclauses
  exact ⟨s, hs, hreferences, hdeclarations, hidentifiers, hordered hentries⟩

end Scope

end Nesc
