import Nesc.Proofs.Decl.Reading
import Nesc.Proofs.Node.Names

/-!
# The references of a laid-out specification

The walk of a specification that is laid out finds one reference for each interface entry, in order
(`Scope.map_tree_references`), and one identifier for each bare declaration
(`Scope.names_declarationIdentifiers`). Each entry begins with a keyword, so a reference starts
strictly behind the end of the one before it, even where both are empty
(`Scope.pairwise_references`).
-/

namespace Nesc

theorem Node.pairwise_childrenOf {j k : Kind} (n : Node j) : (n.childrenOf k).Pairwise fun a b =>
    a.cursor.stop ≤ b.cursor.start := by
  apply List.pairwise_filterMap.mpr
  apply (Cursor.pairwise_row ..).imp
  intro c d hcd a ha b hb
  rw [Cursor.as?_eq_some_iff.mp ha, Cursor.as?_eq_some_iff.mp hb]
  exact hcd

theorem Node.bounds_of_mem_childrenOf {j k : Kind} {n : Node j} {m : Node k}
    (h : m ∈ n.childrenOf k) : n.cursor.start ≤ m.cursor.start ∧ m.cursor.stop ≤ n.cursor.stop :=
  Cursor.children_bounds (Cursor.mem_childrenOf.mp h)

theorem Node.bounds_of_child? {j k : Kind} {n : Node j} {m : Node k} (h : n.child? k = some m) :
    n.cursor.start ≤ m.cursor.start ∧ m.cursor.stop ≤ n.cursor.stop :=
  Cursor.children_bounds (Cursor.mem_children_of_child? h)

/-- A node of a list whose trees are known has one of these trees. -/
theorem Node.exists_of_trees {α : Type} {k : Kind} {ns : List (Node k)} {xs : List α}
    {f : α → Tree} (h : ns.map Node.tree = xs.map f) {n : Node k} (hn : n ∈ ns) :
    ∃ x ∈ xs, n.tree = f x := by
  have hmem := List.mem_map_of_mem (f := Node.tree) hn
  rw [h, List.mem_map] at hmem
  obtain ⟨x, hx, hfx⟩ := hmem
  exact ⟨x, hx, hfx.symm⟩

/-! ## One clause -/

namespace Decl

/-- A reference starts strictly behind its entry, whose keyword comes first. -/
theorem Entry.bounds_of_reference? {n : ParameterizedInterface} {e : Entry} {r : InterfaceReference}
    (h : n.tree = e.tree) (hr : ParameterizedInterface.reference? n = some r) :
    n.cursor.start < r.cursor.start ∧ r.cursor.stop ≤ n.cursor.stop := by
  refine ⟨?_, (Node.bounds_of_child? hr).2⟩
  obtain ⟨⟨path, start, t⟩, hk⟩ := n
  obtain rfl : t = e.tree := h
  rw [reference?_tree] at hr
  cases hr
  have hwidth : Forest.width [Tree.mark .interfaceKw, .space] = 10 := by decide
  dsimp only
  omega

namespace Clause

variable {a : Access} {c : Clause}

/-- A clause of interfaces finds its references through its own list, entry by entry. -/
theorem references_of_interfaces {es : List Entry} (h : a.tree = c.tree)
    (hes : c.items = .interfaces es) : ∃ l : ParameterizedInterfaceList,
      Access.interfaces? a = some l ∧
      (ParameterizedInterfaceList.interfaces l).map Node.tree = es.map Entry.tree ∧
      Access.references a =
        (ParameterizedInterfaceList.interfaces l).filterMap ParameterizedInterface.reference? := by
  obtain ⟨l, hl, htree⟩ := exists_interfaces? h hes
  refine ⟨l, hl, map_tree_interfaces htree, ?_⟩
  rw [Access.references, hl, Option.toList_some, List.flatMap_singleton, Cursor.descendants_list htree]

theorem references_of_declarations {bs : List Bare} (h : a.tree = c.tree)
    (hbs : c.items = .declarations bs) : Access.references a = [] := by
  rw [Access.references, interfaces?_of_declarations h hbs]
  rfl

/-- The references of a clause are laid out from its entries, in order. -/
theorem map_tree_references (h : a.tree = c.tree) :
    (Access.references a).map Node.tree = c.items.entries.map Entry.reference := by
  cases hitems : c.items with
  | declarations bs =>
    rw [references_of_declarations h hitems]
    rfl
  | interfaces es =>
    obtain ⟨l, -, htrees, heq⟩ := references_of_interfaces h hitems
    rw [heq]
    apply Node.filterMap_eq_map_of_trees htrees
    intro n e he
    obtain ⟨r, hr, htree⟩ := Entry.exists_reference? he
    rw [hr, Option.map_some, htree]

/-- The references of a clause lie strictly behind its start and one behind the other. -/
theorem bounds_of_mem_references (h : a.tree = c.tree) {r : InterfaceReference}
    (hr : r ∈ Access.references a) :
    a.cursor.start < r.cursor.start ∧ r.cursor.stop ≤ a.cursor.stop := by
  cases hitems : c.items with
  | declarations bs =>
    rw [references_of_declarations h hitems] at hr
    exact absurd hr List.not_mem_nil
  | interfaces es =>
    obtain ⟨l, hl, htrees, heq⟩ := references_of_interfaces h hitems
    rw [heq] at hr
    obtain ⟨n, hn, hr⟩ := List.mem_filterMap.mp hr
    obtain ⟨e, -, he⟩ := Node.exists_of_trees htrees hn
    have hlist := Node.bounds_of_child? hl
    have hentry := Node.bounds_of_mem_childrenOf hn
    have hreference := Entry.bounds_of_reference? he hr
    omega

/-- References of a clause are set apart by the keyword between them, so that no two share an
offset. -/
theorem pairwise_references (h : a.tree = c.tree) :
    (Access.references a).Pairwise fun q r => q.cursor.stop < r.cursor.start := by
  cases hitems : c.items with
  | declarations bs =>
    rw [references_of_declarations h hitems]
    exact .nil
  | interfaces es =>
    obtain ⟨l, -, htrees, heq⟩ := references_of_interfaces h hitems
    rw [heq]
    apply List.pairwise_filterMap.mpr
    apply (Node.pairwise_childrenOf l).imp_of_mem
    intro m n hm hn hmn q hq r hr
    obtain ⟨d, -, hd⟩ := Node.exists_of_trees htrees hm
    obtain ⟨e, -, he⟩ := Node.exists_of_trees htrees hn
    have hfront := Entry.bounds_of_reference? hd hq
    have hback := Entry.bounds_of_reference? he hr
    omega

theorem declarations?_of_interfaces {es : List Entry} (h : a.tree = c.tree)
    (hes : c.items = .interfaces es) : Access.declarations? a = none := by
  have hmap := Node.map_tree_child? (k := .declarationList) a
  have hlead : Forest.ofKind .declarationList (c.lead es.length) = [] :=
    Forest.ofKind_of_tokens (List.all_eq_true.mpr fun t ht => isToken_of_mem_lead ht)
  have hrest : Forest.ofKind .declarationList (Items.list es :: Items.closing es.length) = [] := by
    unfold Items.closing
    split <;> rfl
  rw [h, tree_of_interfaces hes, Tree.children, Forest.ofKind_append, hlead, hrest] at hmap
  exact Option.map_eq_none_iff.mp hmap

/-- The names of the bare declarations of a clause can be read, and are those of the description. -/
theorem map_spelling?_declarationIdentifiers (h : a.tree = c.tree) :
    (Access.declarationIdentifiers a).map Identifier.spelling? =
      c.items.bares.map fun b => some b.name := by
  cases hitems : c.items with
  | interfaces es =>
    rw [Access.declarationIdentifiers, declarations?_of_interfaces h hitems]
    rfl
  | declarations bs =>
    obtain ⟨l, hl, htrees⟩ := exists_declarations? h hitems
    rw [Access.declarationIdentifiers, hl, Option.toList_some, List.flatMap_singleton]
    apply Node.filterMap_eq_map_of_trees htrees
    intro n b hb
    obtain ⟨⟨path, start, t⟩, hk⟩ := n
    cases hb
    rfl

end Clause

end Decl

/-! ## The whole specification -/

namespace Scope

variable {s : Scope} {d : Decl.Component}

/-- The walk to any depth finds the clauses of the description and no others. -/
theorem map_tree_accesses (h : s.specification.tree = d.specification) :
    s.accesses.map Node.tree = d.clauses.map Decl.Clause.tree := by
  rw [accesses_of_layout h]
  exact Decl.Component.map_tree_accesses h

/-- There is one reference for each entry, in order. -/
theorem map_tree_references (h : s.specification.tree = d.specification) :
    s.references.map Node.tree = d.entries.map Decl.Entry.reference := by
  rw [references_eq_flatMap, Decl.Component.entries, List.map_flatMap (f := Decl.Entry.reference)]
  exact Node.flatMap_of_trees (map_tree_accesses h) fun _ _ => Decl.Clause.map_tree_references

/-- Each reference starts behind the end of the one before it. -/
theorem pairwise_references (h : s.specification.tree = d.specification) :
    s.references.Pairwise fun q r => q.cursor.stop < r.cursor.start := by
  rw [references_eq_flatMap, List.pairwise_flatMap]
  have htree : ∀ a ∈ s.accesses, ∃ c ∈ d.clauses, a.tree = Decl.Clause.tree c :=
    fun a ha => Node.exists_of_trees (map_tree_accesses h) ha
  constructor
  · intro a ha
    obtain ⟨c, -, hc⟩ := htree a ha
    exact Decl.Clause.pairwise_references hc
  · have hrow : s.accesses.Pairwise fun a b => a.cursor.stop ≤ b.cursor.start := by
      rw [accesses_of_layout h]
      exact Node.pairwise_childrenOf s.specification
    apply hrow.imp_of_mem
    intro a b ha hb hab q hq r hr
    obtain ⟨c, -, hc⟩ := htree a ha
    obtain ⟨c', -, hc'⟩ := htree b hb
    have hfront := Decl.Clause.bounds_of_mem_references hc hq
    have hback := Decl.Clause.bounds_of_mem_references hc' hr
    omega

theorem names_declarationIdentifiers (h : s.specification.tree = d.specification) :
    Identifier.names s.declarationIdentifiers = .ok (d.bares.map Decl.Bare.name) := by
  rw [Identifier.names_eq_ok_iff, declarationIdentifiers_eq_flatMap, List.map_map,
    Decl.Component.bares, List.map_flatMap (f := some ∘ Decl.Bare.name)]
  exact Node.flatMap_of_trees (map_tree_accesses h)
    fun _ _ => Decl.Clause.map_spelling?_declarationIdentifiers

end Scope

end Nesc
