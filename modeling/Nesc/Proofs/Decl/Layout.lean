import Nesc.Decl.Render
import Nesc.Proofs.Node.Search
import Nesc.Proofs.Scope.Walk

/-!
# Parts of a laid-out description

Where the parts of a description stand in its layout, wherever the layout itself stands. Each
statement takes a node laid out at some path and offset and says which node a part of it is, so that
later proofs compute with places and never search. In a layout no clause contains a clause and no
entry an entry, so the walk of a specification reads its clauses one after the other
(`Scope.references_of_layout`).
-/

namespace Nesc

/-- An identifier over one word, at a place. -/
def Identifier.ofName (path : List Nat) (start : Nat) (n : String) : Identifier :=
  ⟨⟨path, start, .identifier n⟩, rfl⟩

@[simp] theorem Identifier.spelling?_ofName (path : List Nat) (start : Nat) (n : String) :
    spelling? (ofName path start n) = some n := rfl

@[simp] theorem Identifier.nameRange_ofName (path : List Nat) (start : Nat) (n : String) :
    nameRange (ofName path start n) = .ofWidth start n.utf8ByteSize := rfl

namespace Decl

open Nesc.Tree (mark blank space identifier)

/-- Each tree in front of a chosen one is followed by the separator, each behind it preceded. -/
theorem separated_append_cons (separator : Forest) (ts us : List Tree) (t : Tree) :
    separated separator (ts ++ t :: us) =
      (ts.flatMap fun s => s :: separator) ++ t :: us.flatMap fun u => separator ++ [u] := by
  induction ts with
  | nil => rfl
  | cons s ts ih =>
    have hrest : ∀ rs : List Tree, ((rs ++ t :: us).flatMap fun u => separator ++ [u]) =
        separator ++ separated separator (rs ++ t :: us) := by
      intro rs
      cases rs with
      | nil => simp [separated]
      | cons r rs => simp [separated]
    rw [List.cons_append, separated, hrest, ih]
    simp

theorem lacks_separated {k : Kind} {separator : Forest} {ts : List Tree}
    (hseparator : Forest.lacks k separator = true) (hts : ∀ t ∈ ts, t.lacks k = true) :
    Forest.lacks k (separated separator ts) = true := by
  cases ts with
  | nil => rfl
  | cons t ts =>
    obtain ⟨ht, hts⟩ := List.forall_mem_cons.mp hts
    rw [separated, Forest.lacks, ht, Bool.true_and]
    refine Forest.lacks_flatMap fun u hu => ?_
    rw [Forest.lacks_append, hseparator, Forest.lacks, hts u hu]
    rfl

/-! ## Entries -/

namespace Entry

/-- What stands in an interface reference in front of its alias. -/
def aliasLead (e : Entry) : Forest :=
  e.typePart ++ (if e.name?.isSome then [space] else []) ++ [mark .asKw, space]

theorem reference_of_alias {e : Entry} {n : String} (h : e.alias? = some n) :
    e.reference = .node .interfaceReference (e.aliasLead ++ [identifier n]) := by
  simp [reference, aliasPart, aliasLead, h]

theorem reference?_tree (path : List Nat) (start : Nat) (e : Entry) :
    ParameterizedInterface.reference? ⟨⟨path, start, e.tree⟩, rfl⟩ =
      some ⟨⟨path ++ [2], start + Forest.width [mark .interfaceKw, space], e.reference⟩, rfl⟩ := by
  refine Cursor.child?_of_split path start [mark .interfaceKw, space] (parameterPart e.parameters)
    (t := e.reference) ?_ rfl
  decide

/-- In front of `as` stands no token, so that the search for the keyword passes over the type. -/
theorem typePart_tokenKind? {e : Entry} {t : Tree} (h : t ∈ e.typePart) : t.tokenKind? = none := by
  unfold typePart at h
  split at h
  · exact absurd h List.not_mem_nil
  · rw [List.mem_singleton.mp h]
    rfl

/-- A reference of an entry without an alias has none: the keyword is not there. -/
theorem alias?_reference_of_none {e : Entry} (h : e.alias? = none) (path : List Nat) (start : Nat) :
    InterfaceReference.alias? ⟨⟨path, start, e.reference⟩, rfl⟩ = none := by
  refine Cursor.childAfter?_eq_none fun t ht => ?_
  rw [aliasPart, h, List.append_nil] at ht
  rw [typePart_tokenKind? ht]
  exact nofun

/-- The alias of a reference stands behind the interface type, the keyword and the blanks. -/
theorem alias?_reference_of_some {e : Entry} {n : String} (h : e.alias? = some n) (path : List Nat)
    (start : Nat) : InterfaceReference.alias? ⟨⟨path, start, e.reference⟩, rfl⟩ =
      some (.ofName (path ++ [e.aliasLead.length]) (start + Forest.width e.aliasLead) n) := by
  have hus : ∀ u ∈ e.typePart ++ (if e.name?.isSome then [space] else []),
      u.tokenKind? ≠ some .asKw := by
    intro u hu
    rcases List.mem_append.mp hu with hu | hu
    · rw [typePart_tokenKind? hu]
      exact nofun
    · split at hu
      · rw [List.mem_singleton.mp hu]
        decide
      · exact absurd hu List.not_mem_nil
  have hread := Cursor.childAfter?_of_split (j := .interfaceReference) (k := .identifier) path start
    _ [space] [] hus (m := mark .asKw) rfl (by decide) (t := identifier n) rfl
  have htree : e.reference = .node .interfaceReference
      (e.typePart ++ (if e.name?.isSome then [space] else []) ++
        (mark .asKw :: [space] ++ [identifier n])) := by
    rw [reference_of_alias h, aliasLead]
    simp
  change Cursor.childAfter? .asKw .identifier ⟨path, start, e.reference⟩ = _
  rw [htree, hread]
  simp [Identifier.ofName, aliasLead, Nat.add_assoc]

/-- The kinds of the nodes inside an entry. -/
def partKinds : List Kind := [.interfaceReference, .interfaceType, .typeArguments, .typeName,
  .interfaceParameters, .parameter, .identifier]

/-- Below an entry there are only nodes of its own parts, so searches at any depth for other kinds
find nothing there. -/
theorem lacks_children {k : Kind} (hk : k ∉ partKinds) (e : Entry) :
    Forest.lacks k e.tree.children = true := by
  simp only [partKinds, List.mem_cons, List.not_mem_nil, or_false, not_or] at hk
  obtain ⟨hreference, htype, harguments, htypeName, hparameters, hparameter, hidentifier⟩ := hk
  have hseparated : ∀ {α : Type} (f : α → Tree) (xs : List α), (∀ x, (f x).lacks k = true) →
      Forest.lacks k (separated commaSpace (xs.map f)) = true := by
    intro α f xs hf
    refine lacks_separated rfl fun t ht => ?_
    obtain ⟨x, -, rfl⟩ := List.mem_map.mp ht
    exact hf x
  have hname : ∀ n : String, (identifier n).lacks k = true := by
    intro n
    simp [identifier, Tree.lacks, Forest.lacks, Ne.symm hidentifier]
  have harg : Forest.lacks k (argumentPart e.arguments) = true := by
    unfold argumentPart
    split
    · rfl
    · simp [Forest.lacks, Tree.lacks, mark, hseparated, hname, Ne.symm harguments,
        Ne.symm htypeName]
  have hparam : Forest.lacks k (parameterPart e.parameters) = true := by
    unfold parameterPart
    split
    · rfl
    · simp [Forest.lacks, Tree.lacks, mark, space, blank, hseparated, hname, Ne.symm hparameters,
        Ne.symm hparameter, Ne.symm htypeName]
  have htypePart : Forest.lacks k e.typePart = true := by
    unfold typePart
    split
    · rfl
    · simp [Forest.lacks, Tree.lacks, hname, harg, Ne.symm htype]
  have haliasPart : Forest.lacks k e.aliasPart = true := by
    unfold aliasPart
    split
    · rfl
    · split <;> simp [Forest.lacks, Tree.lacks, mark, space, blank, hname]
  simp [tree, Tree.children, reference, Forest.lacks, Tree.lacks, mark, space, blank, htypePart,
    haliasPart, hparam, Ne.symm hreference]

end Entry

/-! ## Clauses -/

/-- An entry in a list of `n`: a lone entry stands by itself, each of several on its own line. -/
def Entry.line (n : Nat) (e : Entry) : Forest :=
  if n = 1 then [e.tree] else [blank "\n    ", e.tree, mark .semicolon]

theorem Entry.mem_line {n : Nat} {e : Entry} {t : Tree} (h : t ∈ e.line n) :
    t = e.tree ∨ t.isToken = true := by
  unfold line at h
  split at h
  · exact .inl (List.mem_singleton.mp h)
  · simp only [List.mem_cons, List.not_mem_nil, or_false] at h
    rcases h with rfl | rfl | rfl
    · exact .inr rfl
    · exact .inl rfl
    · exact .inr rfl

namespace Items

/-- What stands in a clause in front of a list of `n` entries. -/
def opening (n : Nat) : Forest := if n = 1 then [] else [mark .leftBrace]

/-- What stands in a clause behind a list of `n` entries. -/
def closing (n : Nat) : Forest :=
  if n = 1 then [mark .semicolon] else [blank "\n  ", mark .rightBrace]

/-- The node of a list of entries. -/
def list (es : List Entry) : Tree :=
  .node .parameterizedInterfaceList (es.flatMap (Entry.line es.length))

/-- The list of a clause stands between tokens, in braces unless it has one entry. -/
theorem trees_interfaces (es : List Entry) :
    (Items.interfaces es).trees = opening es.length ++ list es :: closing es.length := by
  match es with
  | [] => rfl
  | [e] => rfl
  | e :: f :: es =>
    have hlength : (e :: f :: es).length ≠ 1 := by
      simp
    have hline : Entry.line (e :: f :: es).length =
        fun e => [blank "\n    ", e.tree, mark .semicolon] := by
      funext e
      rw [Entry.line, if_neg hlength]
    rw [list, hline, opening, if_neg hlength, closing, if_neg hlength]
    rfl

end Items

namespace Clause

/-- What stands in a clause in front of a list of `n` entries, its keyword included. -/
def lead (c : Clause) (n : Nat) : Forest := [mark c.direction.keyword, space] ++ Items.opening n

theorem tree_of_interfaces {c : Clause} {es : List Entry} (h : c.items = .interfaces es) :
    c.tree = .node .access (c.lead es.length ++ Items.list es :: Items.closing es.length) := by
  rw [tree, h, Items.trees_interfaces, lead, List.append_assoc]

theorem isToken_of_mem_lead {c : Clause} {n : Nat} {t : Tree} (h : t ∈ c.lead n) :
    t.isToken = true := by
  unfold lead Items.opening at h
  split at h <;> simp only [List.cons_append, List.nil_append, List.mem_cons, List.not_mem_nil,
    or_false] at h
  · rcases h with rfl | rfl <;> rfl
  · rcases h with rfl | rfl | rfl <;> rfl

theorem interfaces?_tree {c : Clause} {es : List Entry} (h : c.items = .interfaces es)
    (path : List Nat) (start : Nat) : Access.interfaces? ⟨⟨path, start, c.tree⟩, rfl⟩ =
      some ⟨⟨path ++ [(c.lead es.length).length], start + Forest.width (c.lead es.length),
        Items.list es⟩, rfl⟩ := by
  change Cursor.child? .parameterizedInterfaceList ⟨path, start, c.tree⟩ = _
  rw [tree_of_interfaces h]
  refine Cursor.child?_of_split path start _ _ (fun t ht => ?_) rfl
  rw [Tree.nodeKind?_of_isToken (isToken_of_mem_lead ht)]
  exact nofun

theorem interfaces?_tree_of_declarations {c : Clause} {ds : List Bare}
    (h : c.items = .declarations ds) (path : List Nat) (start : Nat) :
    Access.interfaces? ⟨⟨path, start, c.tree⟩, rfl⟩ = none := by
  refine Cursor.child?_eq_none ?_
  rw [h]
  simp [Items.trees, mark, space, blank, Tree.nodeKind?]

/-- No clause stands inside a clause. -/
theorem lacks_children (c : Clause) : Forest.lacks .access c.tree.children = true := by
  cases hitems : c.items with
  | interfaces es =>
    have hlist : Tree.lacks .access (Items.list es) = true := by
      refine Forest.lacks_flatMap fun e _ => Forest.lacks_iff.mpr fun t ht => ?_
      rcases Entry.mem_line ht with rfl | ht
      · exact Entry.lacks_children (by decide) e
      · exact Tree.lacks_of_isToken ht _
    have hlead : Forest.lacks .access (c.lead es.length) = true :=
      Forest.lacks_iff.mpr fun t ht => Tree.lacks_of_isToken (isToken_of_mem_lead ht) _
    have hclosing : Forest.lacks .access (Items.closing es.length) = true := by
      unfold Items.closing
      split <;> rfl
    rw [tree_of_interfaces hitems, Tree.children, Forest.lacks_append, Forest.lacks, hlead, hlist,
      hclosing]
    rfl
  | declarations ds =>
    have hlist : Forest.lacks .access
        (separated [mark .semicolon, space] (ds.map Bare.tree)) = true := by
      refine lacks_separated rfl fun t ht => ?_
      obtain ⟨d, -, rfl⟩ := List.mem_map.mp ht
      rfl
    rw [tree, hitems, Items.trees, Tree.children, Forest.lacks_append, Bool.and_eq_true]
    refine ⟨rfl, ?_⟩
    rw [Forest.lacks, Bool.and_eq_true]
    exact ⟨hlist, rfl⟩

end Clause

/-! ## Components -/

/-- The trees of a block are those given, with tokens around them. -/
theorem mem_block {ts : List Tree} {t : Tree} (h : t ∈ block ts) : t ∈ ts ∨ t.isToken = true := by
  simp only [block, List.mem_append, List.mem_flatMap, List.mem_cons, List.not_mem_nil, or_false] at h
  rcases h with (rfl | ⟨u, hu, rfl | rfl⟩) | rfl | rfl
  · exact .inr rfl
  · exact .inr rfl
  · exact .inl hu
  · exact .inr rfl
  · exact .inr rfl

namespace Component

/-- What stands in a component in front of its name. -/
def nameLead (d : Component) : Forest :=
  (if d.isGeneric then [mark .genericKw, space] else []) ++ [mark d.kind.keyword, space]

theorem name?_tree (path : List Nat) (start : Nat) (d : Component) :
    Nesc.Component.name? ⟨⟨path, start, d.tree⟩, rfl⟩ =
      some (.ofName (path ++ [d.nameLead.length]) (start + Forest.width d.nameLead) d.name) := by
  have htree : d.tree = .node .component (d.nameLead ++ identifier d.name ::
      ((if d.isGeneric then [mark .leftParen, mark .rightParen] else []) ++
        [space, d.specification, blank "\n", d.implementation])) := by
    simp [tree, header, nameLead]
  change Cursor.child? .identifier ⟨path, start, d.tree⟩ = _
  rw [htree]
  refine Cursor.child?_of_split path start _ _ ?_ rfl
  unfold nameLead
  split <;> simp [mark, space, blank, Tree.nodeKind?]

theorem nodeKind?_of_mem_header {d : Component} {t : Tree} (h : t ∈ d.header) :
    t.nodeKind? = none ∨ t.nodeKind? = some .identifier := by
  unfold header at h
  split at h <;> simp only [List.cons_append, List.nil_append, List.mem_cons, List.not_mem_nil,
    or_false] at h
  · rcases h with rfl | rfl | rfl | rfl | rfl | rfl | rfl | rfl <;> simp [mark, space, blank,
      Tree.nodeKind?, identifier]
  · rcases h with rfl | rfl | rfl | rfl <;> simp [mark, space, blank, Tree.nodeKind?, identifier]

theorem specification?_tree (path : List Nat) (start : Nat) (d : Component) :
    Nesc.Component.specification? ⟨⟨path, start, d.tree⟩, rfl⟩ =
      some ⟨⟨path ++ [d.header.length], start + Forest.width d.header, d.specification⟩, rfl⟩ := by
  refine Cursor.child?_of_split path start d.header _ (t := d.specification) (fun t ht => ?_) rfl
  rcases nodeKind?_of_mem_header ht with h | h <;> rw [h] <;> decide

/-- What stands in a component in front of its implementation. -/
def implementationLead (d : Component) : Forest := d.header ++ [d.specification] ++ [blank "\n"]

theorem tree_eq (d : Component) :
    d.tree = .node .component (d.implementationLead ++ [d.implementation]) := by
  simp [tree, implementationLead]

theorem implementation?_tree (path : List Nat) (start : Nat) (d : Component) :
    Nesc.Component.implementation? ⟨⟨path, start, d.tree⟩, rfl⟩ =
      some ⟨⟨path ++ [d.implementationLead.length], start + Forest.width d.implementationLead,
        d.implementation⟩, rfl⟩ := by
  change Cursor.child? .implementation ⟨path, start, d.tree⟩ = _
  rw [tree_eq]
  refine Cursor.child?_of_split path start _ [] (fun t ht => ?_) rfl
  simp only [implementationLead, List.mem_append, List.mem_singleton] at ht
  rcases ht with (ht | rfl) | rfl
  · rcases nodeKind?_of_mem_header ht with h | h <;> rw [h] <;> decide
  · exact nofun
  · exact nofun

end Component

/-! ## Files -/

namespace File

/-- What stands in a file in front of a component that follows the components `us`. -/
def before (us : List Component) : Forest := us.flatMap fun u => [u.tree, blank "\n\n"]

/-- What stands in a file behind a component that is followed by the components `vs`. -/
def after (vs : List Component) : Forest :=
  (vs.flatMap fun v => [blank "\n\n", v.tree]) ++ [blank "\n"]

theorem tree_append_cons (us vs : List Component) (d : Component) :
    File.tree (us ++ d :: vs) = .node .sourceFile (before us ++ d.tree :: after vs) := by
  rw [File.tree, List.map_append, List.map_cons, separated_append_cons]
  simp [before, after, List.flatMap_map]

/-- In front of a component there are as many components as the description says; the blanks between
do not count. -/
theorem length_components_before (path : List Nat) (i start : Nat) (us : List Component) :
    ((Cursor.row path i start (before us)).filterMap (Cursor.as? .component)).length =
      us.length := by
  induction us generalizing i start with
  | nil => rfl
  | cons u us ih =>
    have hrow : Cursor.row path i start (before (u :: us)) = ⟨path ++ [i], start, u.tree⟩ ::
        ⟨path ++ [i + 1], start + u.tree.width, blank "\n\n"⟩ ::
        Cursor.row path (i + 1 + 1) (start + u.tree.width + (blank "\n\n").width) (before us) := rfl
    have hcomponent : Cursor.as? .component ⟨path ++ [i], start, u.tree⟩ =
        some ⟨⟨path ++ [i], start, u.tree⟩, rfl⟩ := rfl
    rw [hrow, List.filterMap_cons_some hcomponent, List.filterMap_cons_none rfl, List.length_cons,
      ih, List.length_cons]

/-- The component of a file at the index of its description. -/
theorem getElem?_components (us vs : List Component) (d : Component) (u : SourceFile)
    (hu : u.cursor = .root (File.tree (us ++ d :: vs))) :
    (SourceFile.components u)[us.length]? =
      some ⟨⟨[(before us).length], Forest.width (before us), d.tree⟩, rfl⟩ := by
  have hlength := length_components_before [] 0 0 us
  have hself : ∀ path start, Cursor.as? .component ⟨path, start, d.tree⟩ =
      some ⟨⟨path, start, d.tree⟩, rfl⟩ := fun _ _ => rfl
  rw [SourceFile.components, Node.childrenOf, hu, Cursor.childrenOf, tree_append_cons]
  change ((Cursor.row [] 0 0 (before us ++ d.tree :: after vs)).filterMap _)[us.length]? = _
  rw [Cursor.row_append, List.filterMap_append, List.getElem?_append_right (by rw [hlength]), hlength,
    Nat.sub_self, Cursor.row, List.filterMap_cons_some (hself _ _), List.getElem?_cons_zero]
  simp

end File

end Decl

/-! ## Reading a specification -/

namespace Cursor

/-- The reference of an entry; other elements have none. -/
def entryReferences (c : Cursor) : List InterfaceReference :=
  ((c.as? .parameterizedInterface).bind ParameterizedInterface.reference?).toList

/-- The references of the entries right below the list of a clause; other elements have none. -/
def clauseReferences (c : Cursor) : List InterfaceReference :=
  ((c.as? .access).bind Access.interfaces?).toList.flatMap fun l =>
    l.cursor.children.flatMap entryReferences

theorem entryReferences_tree (path : List Nat) (start : Nat) (e : Decl.Entry) :
    entryReferences ⟨path, start, e.tree⟩ = [⟨⟨path ++ [2],
      start + Forest.width [Tree.mark .interfaceKw, .space], e.reference⟩, rfl⟩] := by
  have hself : as? .parameterizedInterface ⟨path, start, e.tree⟩ =
      some ⟨⟨path, start, e.tree⟩, rfl⟩ := rfl
  rw [entryReferences, hself, Option.bind_some, Decl.Entry.reference?_tree]
  rfl

theorem entryReferences_of_isToken {c : Cursor} (h : c.tree.isToken = true) :
    entryReferences c = [] := by
  rw [entryReferences, as?_of_isToken h]
  rfl

theorem clauseReferences_of_isToken {c : Cursor} (h : c.tree.isToken = true) :
    clauseReferences c = [] := by
  rw [clauseReferences, as?_of_isToken h]
  rfl

/-- A clause of interfaces gives the references of its lines, one after the other. -/
theorem clauseReferences_tree {c : Decl.Clause} {es : List Decl.Entry}
    (h : c.items = .interfaces es) (path : List Nat) (start : Nat) :
    clauseReferences ⟨path, start, c.tree⟩ =
      (row (path ++ [(c.lead es.length).length]) 0 (start + Forest.width (c.lead es.length))
        (es.flatMap (Decl.Entry.line es.length))).flatMap entryReferences := by
  have hself : as? .access ⟨path, start, c.tree⟩ = some ⟨⟨path, start, c.tree⟩, rfl⟩ := rfl
  rw [clauseReferences, hself, Option.bind_some, Decl.Clause.interfaces?_tree h, Option.toList_some,
    List.flatMap_singleton]
  rfl

theorem clauseReferences_of_declarations {c : Decl.Clause} {ds : List Decl.Bare}
    (h : c.items = .declarations ds) (path : List Nat) (start : Nat) :
    clauseReferences ⟨path, start, c.tree⟩ = [] := by
  have hself : as? .access ⟨path, start, c.tree⟩ = some ⟨⟨path, start, c.tree⟩, rfl⟩ := rfl
  rw [clauseReferences, hself, Option.bind_some, Decl.Clause.interfaces?_tree_of_declarations h]
  rfl

theorem exists_list_of_interfaces? {c : Decl.Clause} {path : List Nat} {start : Nat}
    {l : ParameterizedInterfaceList}
    (h : Access.interfaces? ⟨⟨path, start, c.tree⟩, rfl⟩ = some l) :
    ∃ es, l.tree = Decl.Items.list es := by
  cases hitems : c.items with
  | interfaces es =>
    rw [Decl.Clause.interfaces?_tree hitems] at h
    cases h
    exact ⟨es, rfl⟩
  | declarations ds =>
    rw [Decl.Clause.interfaces?_tree_of_declarations hitems] at h
    cases h

/-- In a layout, the entries below the list of a clause stand right below it. -/
theorem descendants_list {l : ParameterizedInterfaceList} {es : List Decl.Entry}
    (h : l.tree = Decl.Items.list es) :
    l.descendants .parameterizedInterface = ParameterizedInterfaceList.interfaces l := by
  apply descendants_eq_childrenOf
  intro t ht
  change t ∈ l.tree.children at ht
  rw [h] at ht
  obtain ⟨e, -, ht⟩ := List.mem_flatMap.mp ht
  rcases Decl.Entry.mem_line ht with rfl | ht
  · exact Decl.Entry.lacks_children (by decide) e
  · rw [Tree.children_of_isToken ht]
    rfl

/-- In a layout, all references below the list of a clause are those of its entries. -/
theorem filterMap_descendants_list {l : ParameterizedInterfaceList} {es : List Decl.Entry}
    (h : l.tree = Decl.Items.list es) :
    (l.descendants .parameterizedInterface).filterMap ParameterizedInterface.reference? =
      l.cursor.children.flatMap entryReferences := by
  rw [descendants_list h, ParameterizedInterfaceList.interfaces, Node.childrenOf, childrenOf,
    List.filterMap_filterMap, List.filterMap_eq_flatMap_toList]
  rfl

end Cursor

theorem Decl.Component.mem_children_specification {d : Component} {t : Tree}
    (h : t ∈ d.specification.children) : (∃ c : Clause, t = c.tree) ∨ t.isToken = true := by
  rcases Decl.mem_block h with ht | ht
  · obtain ⟨c, -, rfl⟩ := List.mem_map.mp ht
    exact .inl ⟨c, rfl⟩
  · exact .inr ht

namespace Scope

variable {s : Scope} {d : Decl.Component}

/-- The clauses of a specification that is laid out stand right below it. -/
theorem accesses_of_layout (h : s.specification.tree = d.specification) :
    s.accesses = AccessList.accesses s.specification := by
  apply Cursor.descendants_eq_childrenOf
  intro t ht
  change t ∈ s.specification.tree.children at ht
  rw [h] at ht
  rcases Decl.Component.mem_children_specification ht with ⟨c, rfl⟩ | ht
  · exact c.lacks_children
  · rw [Tree.children_of_isToken ht]
    rfl

/-- The references of a specification that is laid out, clause by clause. -/
theorem references_of_layout (h : s.specification.tree = d.specification) :
    s.references = s.specification.cursor.children.flatMap Cursor.clauseReferences := by
  rw [references, accesses_of_layout h, AccessList.accesses, Node.childrenOf, Cursor.childrenOf,
    List.filterMap_filterMap, List.filterMap_flatMap, List.filterMap_eq_flatMap_toList,
    List.flatMap_assoc]
  refine List.flatMap_congr fun c hc => ?_
  rw [Cursor.clauseReferences]
  refine List.flatMap_congr fun l hl => ?_
  obtain ⟨a, ha, hl⟩ := Option.bind_eq_some_iff.mp (Option.mem_toList.mp hl)
  have ht := Cursor.tree_mem_of_mem_children hc
  change c.tree ∈ s.specification.tree.children at ht
  rw [h] at ht
  obtain ⟨path, start, t⟩ := c
  rcases Decl.Component.mem_children_specification ht with ⟨c, rfl⟩ | ht
  · cases ha
    obtain ⟨es, hes⟩ := Cursor.exists_list_of_interfaces? hl
    exact Cursor.filterMap_descendants_list hes
  · rw [Cursor.as?_of_isToken ht] at ha
    cases ha

end Scope

/-! ## Reading an implementation -/

namespace Cursor

/-- The target of a statement; other elements have none. -/
def statementTargets (c : Cursor) : List Identifier :=
  ((c.as? .statement).bind Statement.target?).toList

theorem statementTargets_of_isToken {c : Cursor} (h : c.tree.isToken = true) :
    statementTargets c = [] := by
  rw [statementTargets, as?_of_isToken h]
  rfl

theorem statementTargets_tree (path : List Nat) (start : Nat) (st : Decl.Statement) :
    statementTargets ⟨path, start, st.tree⟩ = [.ofName (path ++ [2])
      (start + Forest.width [Tree.mark st.kind.keyword, .space]) st.target] := by
  have htarget : child? .identifier ⟨path, start, st.tree⟩ = some (Identifier.ofName (path ++ [2])
      (start + Forest.width [Tree.mark st.kind.keyword, .space]) st.target) := by
    refine child?_of_split path start [Tree.mark st.kind.keyword, .space] _
      (t := .identifier st.target) ?_ rfl
    simp [Tree.mark, Tree.space, Tree.blank, Tree.nodeKind?]
  have hself : as? .statement ⟨path, start, st.tree⟩ = some ⟨⟨path, start, st.tree⟩, rfl⟩ := rfl
  rw [statementTargets, hself, Option.bind_some, Statement.target?, Node.child?, htarget]
  rfl

end Cursor

theorem Scope.specification_of_layout {s : Scope} {d : Decl.Component} {path : List Nat}
    {start : Nat} (h : s.IsOf ⟨⟨path, start, d.tree⟩, rfl⟩) : s.specification =
      ⟨⟨path ++ [d.header.length], start + Forest.width d.header, d.specification⟩, rfl⟩ := by
  have hspecification := h.specification?
  rw [Decl.Component.specification?_tree] at hspecification
  exact (Option.some.inj hspecification).symm

/-- The targets of a component that is laid out, statement by statement. -/
theorem Scope.targets_of_layout {s : Scope} {d : Decl.Component} {path : List Nat} {start : Nat}
    (h : s.IsOf ⟨⟨path, start, d.tree⟩, rfl⟩) :
    s.targets = (Cursor.row (path ++ [d.implementationLead.length]) 0
      (start + Forest.width d.implementationLead) d.implementation.children).flatMap
        Cursor.statementTargets := by
  rw [targets, h.component?_eq, Option.bind_some, Decl.Component.implementation?_tree,
    Option.toList_some, List.flatMap_singleton, Implementation.statements, Node.childrenOf,
    Cursor.childrenOf, List.filterMap_filterMap, List.filterMap_eq_flatMap_toList]
  rfl

/-- A scope can be bound to every component of a file that is laid out. -/
theorem Scope.exists_bind_layout (us vs : List Decl.Component) (d : Decl.Component) :
    ∃ s, bind (Decl.File.tree (us ++ d :: vs)) (.index us.length) = .ok s ∧
      s.file.tree = Decl.File.tree (us ++ d :: vs) ∧
      s.IsOf ⟨⟨[(Decl.File.before us).length], Forest.width (Decl.File.before us), d.tree⟩, rfl⟩ := by
  have hfile : (Decl.File.tree (us ++ d :: vs)).file? =
      some ⟨.root (Decl.File.tree (us ++ d :: vs)), rfl⟩ := rfl
  obtain ⟨s, hs, hu, hof⟩ := exists_bind_index hfile (Decl.File.getElem?_components us vs d _ rfl)
    (Decl.Component.name?_tree _ _ d) (Decl.Component.specification?_tree _ _ d)
  exact ⟨s, hs, by rw [hu]; rfl, hof⟩

end Nesc
