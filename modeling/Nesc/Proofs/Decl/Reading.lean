import Nesc.Decl.Render
import Nesc.Proofs.Decl.Layout
import Nesc.Proofs.Node.Shape

/-!
# Reading back what was laid out

A laid-out file reads back as its description, part by part, whatever its names are: a name stands
in an identifier of its own, so it is never taken for a keyword, and no part is found by the reading
of another. One thing does not come back: an entry without an interface name has no place for type
arguments, and drops them (`Entry.shown`). So two descriptions have the same layout exactly if they
show the same.
-/

namespace Nesc

theorem Forest.ofKind_of_tokens {k : Kind} {ts : Forest} (h : ts.all Tree.isToken = true) :
    ofKind k ts = [] := by
  apply List.filter_eq_nil_iff.mpr
  intro t ht
  rw [Tree.nodeKind?_of_isToken (List.all_eq_true.mp h t ht)]
  exact Bool.false_ne_true

namespace Decl

open Nesc.Tree (mark blank space identifier)

/-! ## What a layout shows -/

/-- The entry as its layout shows it: type arguments need an interface to stand behind. -/
def Entry.shown (e : Entry) : Entry :=
  { e with arguments := if e.name?.isSome then e.arguments else [] }

def Items.shown : Items → Items
  | .interfaces es => .interfaces (es.map Entry.shown)
  | .declarations ds => .declarations ds

def Clause.shown (c : Clause) : Clause := { c with items := c.items.shown }

def Component.shown (d : Component) : Component := { d with clauses := d.clauses.map Clause.shown }

def File.shown (f : File) : File := f.map Component.shown

/-- What a layout does not show does not matter to it. -/
theorem Entry.tree_shown (e : Entry) : e.shown.tree = e.tree := by
  have htype : e.shown.typePart = e.typePart := by
    rw [typePart, typePart, shown]
    cases e.name? <;> rfl
  rw [tree, tree, reference, reference, htype]
  rfl

theorem Clause.tree_shown (c : Clause) : c.shown.tree = c.tree := by
  cases hitems : c.items with
  | declarations ds => rw [tree, tree, shown, hitems]; rfl
  | interfaces es =>
    have hshown : c.shown.items = .interfaces (es.map Entry.shown) := by
      rw [shown, hitems]
      rfl
    have hlist : Items.list (es.map Entry.shown) = Items.list es := by
      have hline : ∀ e : Entry, e.shown.line es.length = e.line es.length := by
        intro e
        rw [Entry.line, Entry.line, e.tree_shown]
      rw [Items.list, Items.list, List.flatMap_map, List.length_map]
      simp only [hline]
    rw [tree_of_interfaces hitems, tree_of_interfaces hshown, hlist, List.length_map]
    rfl

theorem Component.tree_shown (d : Component) : d.shown.tree = d.tree := by
  have hspecification : d.shown.specification = d.specification := by
    rw [specification, specification, shown, List.map_map]
    congr 2
    exact List.map_congr_left fun c _ => c.tree_shown
  rw [tree, tree, hspecification]
  rfl

theorem File.tree_shown (f : File) : f.shown.tree = f.tree := by
  rw [tree, tree, shown, List.map_map]
  congr 3
  exact List.map_congr_left fun d _ => d.tree_shown

/-! ## Trees among separators -/

theorem ofKind_separated {k : Kind} {separator : Forest} (h : separator.all Tree.isToken = true)
    (ts : List Tree) : Forest.ofKind k (separated separator ts) = Forest.ofKind k ts := by
  cases ts with
  | nil => rfl
  | cons t ts =>
    rw [separated, ← List.singleton_append, Forest.ofKind_append, Forest.ofKind_flatMap,
      ← List.singleton_append (l := ts), Forest.ofKind_append]
    simp only [Forest.ofKind_append, Forest.ofKind_of_tokens h, List.nil_append]
    rw [← Forest.ofKind_flatMap, List.flatMap_singleton']

theorem ofKind_block (k : Kind) (ts : List Tree) :
    Forest.ofKind k (block ts) = Forest.ofKind k ts := by
  have hline : ∀ t : Tree, Forest.ofKind k [blank "\n  ", t] = Forest.ofKind k [t] := fun _ => rfl
  have hopen : Forest.ofKind k [mark .leftBrace] = [] := rfl
  have hclose : Forest.ofKind k [blank "\n", mark .rightBrace] = [] := rfl
  rw [block, Forest.ofKind_append, Forest.ofKind_append, Forest.ofKind_flatMap, hopen, hclose]
  simp only [hline]
  rw [← Forest.ofKind_flatMap, List.flatMap_singleton', List.nil_append, List.append_nil]

/-- The nodes of a list in brackets. -/
theorem map_tree_of_brackets {α : Type} {j k l r : Kind} {n : Node j} {f : α → Tree} {xs : List α}
    (hf : ∀ x, (f x).nodeKind? = some k)
    (h : n.tree = .node j ([mark l] ++ separated commaSpace (xs.map f) ++ [mark r])) :
    (n.childrenOf k).map Node.tree = xs.map f := by
  have hleft : Forest.ofKind k [mark l] = [] := rfl
  have hright : Forest.ofKind k [mark r] = [] := rfl
  rw [Node.map_tree_childrenOf, h, Tree.children, Forest.ofKind_append, Forest.ofKind_append,
    ofKind_separated rfl, Forest.ofKind_map hf, hleft, hright, List.nil_append, List.append_nil]

/-- The lines of a list hold the trees of its entries and no other interface. -/
theorem Entry.ofKind_lines (n : Nat) (es : List Entry) :
    Forest.ofKind .parameterizedInterface (es.flatMap (line n)) = es.map tree := by
  have hline : ∀ e : Entry, Forest.ofKind .parameterizedInterface (e.line n) = [e.tree] := by
    intro e
    unfold line
    split <;> rfl
  rw [Forest.ofKind_flatMap, List.map_eq_flatMap]
  simp only [hline]

/-! ## Entries -/

theorem Param.read?_of_tree {n : Parameter} {p : Param}
    (h : n.tree = .node .parameter [.node .typeName [identifier p.type], space, identifier p.name]) :
    Param.read? n = some p := by
  obtain ⟨⟨path, start, t⟩, hk⟩ := n
  cases h
  rfl

/-- Type arguments are read back; brackets that are absent give none. -/
theorem readArguments?_of_tree {t : InterfaceType} {n : String} {args : List String}
    (h : t.tree = .node .interfaceType (identifier n :: Entry.argumentPart args)) :
    readArguments? (InterfaceType.arguments? t) = some args := by
  cases args with
  | nil =>
    obtain ⟨⟨path, start, t⟩, hk⟩ := t
    cases h
    rfl
  | cons a args =>
    obtain ⟨m, hm, htree⟩ := Node.exists_child? (k := .typeArguments) (n := t) (by rw [h]; rfl)
    have htypes := map_tree_of_brackets (k := .typeName) (fun _ => rfl) htree
    rw [InterfaceType.arguments?, hm, readArguments?]
    apply Node.mapM_eq_of_trees htypes
    intro n x hx
    obtain ⟨⟨path, start, t⟩, hk⟩ := n
    cases hx
    rfl

/-- Parameters are read back; brackets that are absent give none. -/
theorem readParameters?_of_tree {n : ParameterizedInterface} {e : Entry} (h : n.tree = e.tree) :
    readParameters? (ParameterizedInterface.parameters? n) = some e.parameters := by
  cases hps : e.parameters with
  | nil =>
    have hnone : (ParameterizedInterface.parameters? n).map Node.tree = none := by
      rw [ParameterizedInterface.parameters?, Node.map_tree_child?, h, Entry.tree, hps]
      rfl
    rw [Option.map_eq_none_iff.mp hnone]
    rfl
  | cons p ps =>
    obtain ⟨m, hm, htree⟩ := Node.exists_child? (k := .interfaceParameters) (n := n)
      (by rw [h, Entry.tree, hps]; rfl)
    have hparameters := map_tree_of_brackets (k := .parameter) (fun _ => rfl) htree
    rw [ParameterizedInterface.parameters?, hm, readParameters?]
    exact Node.mapM_eq_of_trees hparameters fun _ _ => Param.read?_of_tree

theorem bind_of_map {α β : Type} {f : α → Option β} {x : Option α} {y : Option β}
    (h : x.map f = y.map some) : x.bind f = y := by
  have hbind : (x.map f).bind id = (y.map some).bind id := congrArg (·.bind id) h
  rwa [Option.bind_map, Option.bind_map, Function.id_comp, Function.id_comp,
    Option.bind_fun_some] at hbind

theorem mapM_of_map {α β : Type} {f : α → Option β} {x : Option α} {y : Option β}
    (h : x.map f = y.map some) : x.mapM f = some y := by
  cases x with
  | none => cases y with
    | none => rfl
    | some b => cases h
  | some a => cases y with
    | none => cases h
    | some b =>
      have ha : f a = some b := Option.some.inj h
      rw [Option.mapM_some, ha]
      rfl

namespace Entry

variable {e : Entry}

theorem exists_reference? {n : ParameterizedInterface} (h : n.tree = e.tree) :
    ∃ r, ParameterizedInterface.reference? n = some r ∧ r.tree = e.reference :=
  Node.exists_child? (by rw [h]; rfl)

theorem map_spelling?_alias? {r : InterfaceReference} (h : r.tree = e.reference) :
    (InterfaceReference.alias? r).map Identifier.spelling? = e.alias?.map some := by
  obtain ⟨⟨path, start, t⟩, hk⟩ := r
  obtain rfl : t = e.reference := h
  cases ha : e.alias? with
  | none =>
    rw [alias?_reference_of_none ha]
    rfl
  | some a =>
    rw [alias?_reference_of_some ha]
    rfl

/-- A reference has an interface type exactly if its entry has a name. -/
theorem map_tree_type? {r : InterfaceReference} (h : r.tree = e.reference) :
    (InterfaceReference.type? r).map Node.tree = e.typePart.head? := by
  have htype : Forest.ofKind .interfaceType e.typePart = e.typePart := by
    unfold typePart
    split <;> rfl
  have halias : Forest.ofKind .interfaceType e.aliasPart = [] := by
    unfold aliasPart
    split
    · rfl
    · split <;> rfl
  rw [InterfaceReference.type?, Node.map_tree_child?, h, reference, Tree.children,
    Forest.ofKind_append, htype, halias, List.append_nil]

theorem type?_of_none {r : InterfaceReference} (h : r.tree = e.reference) (hn : e.name? = none) :
    InterfaceReference.type? r = none := by
  have htree := map_tree_type? h
  rw [typePart, hn] at htree
  exact Option.map_eq_none_iff.mp htree

theorem exists_type? {r : InterfaceReference} {m : String} (h : r.tree = e.reference)
    (hn : e.name? = some m) : ∃ t, InterfaceReference.type? r = some t ∧
      t.tree = .node .interfaceType (identifier m :: argumentPart e.arguments) := by
  have htree := map_tree_type? h
  rw [typePart, hn] at htree
  exact Option.map_eq_some_iff.mp htree

theorem readName?_of_tree {t : InterfaceType} {m : String} {ts : Forest}
    (h : t.tree = .node .interfaceType (identifier m :: ts)) :
    readName? (InterfaceType.name? t) = some m := by
  obtain ⟨⟨path, start, t⟩, hk⟩ := t
  cases h
  rfl

/-- An entry is read back as far as its layout shows it: without a name, no arguments. -/
theorem read?_of_tree {n : ParameterizedInterface} (h : n.tree = e.tree) :
    Entry.read? n = some e.shown := by
  obtain ⟨r, hr, htree⟩ := exists_reference? h
  have hparameters := readParameters?_of_tree h
  have halias : (InterfaceReference.alias? r).mapM Identifier.spelling? = some e.alias? :=
    mapM_of_map (map_spelling?_alias? htree)
  unfold Entry.read?
  rw [hr]
  cases hn : e.name? with
  | none =>
    simp [type?_of_none htree hn, halias, hparameters, shown, hn, readArguments?]
  | some m =>
    obtain ⟨t, ht, htype⟩ := exists_type? htree hn
    simp [ht, readName?_of_tree htype, halias, readArguments?_of_tree htype, hparameters, shown, hn]

end Entry

/-! ## Clauses and statements -/

theorem Bare.read?_of_tree {n : Declaration} {b : Bare} (h : n.tree = b.tree) :
    Bare.read? n = some b := by
  obtain ⟨⟨path, start, t⟩, hk⟩ := n
  obtain ⟨kind, name⟩ := b
  cases h
  cases kind <;> rfl

/-- A statement is read back: its target is the first identifier and its member the second. -/
theorem Statement.read?_of_tree {n : Nesc.Statement} {st : Statement} (h : n.tree = st.tree) :
    Statement.read? n = some st := by
  obtain ⟨⟨path, start, t⟩, hk⟩ := n
  obtain ⟨kind, target, member⟩ := st
  cases h
  cases kind <;> rfl

namespace Clause

variable {a : Access} {c : Clause}

theorem direction?_of_tree (h : a.tree = c.tree) : Access.direction? a = some c.direction := by
  rw [Access.direction?, Cursor.choice?_eq]
  change a.tree.children.findSome? _ = _
  rw [h, tree, Tree.children, List.cons_append, List.findSome?_cons]
  simp [mark, Tree.tokenKind?]

theorem exists_interfaces? {es : List Entry} (h : a.tree = c.tree) (hes : c.items = .interfaces es) :
    ∃ l, Access.interfaces? a = some l ∧ l.tree = Items.list es := by
  obtain ⟨⟨path, start, t⟩, hk⟩ := a
  obtain rfl : t = c.tree := h
  exact ⟨_, interfaces?_tree hes path start, rfl⟩

theorem interfaces?_of_declarations {bs : List Bare} (h : a.tree = c.tree)
    (hbs : c.items = .declarations bs) : Access.interfaces? a = none := by
  obtain ⟨⟨path, start, t⟩, hk⟩ := a
  obtain rfl : t = c.tree := h
  exact interfaces?_tree_of_declarations hbs path start

theorem exists_declarations? {bs : List Bare} (h : a.tree = c.tree)
    (hbs : c.items = .declarations bs) : ∃ l, Access.declarations? a = some l ∧
      (DeclarationList.declarations l).map Node.tree = bs.map Bare.tree := by
  obtain ⟨l, hl, htree⟩ := Node.exists_child? (k := .declarationList) (n := a)
    (by rw [h, tree, hbs]; rfl)
  refine ⟨l, hl, ?_⟩
  rw [DeclarationList.declarations, Node.map_tree_childrenOf, htree, Tree.children,
    ofKind_separated rfl, Forest.ofKind_map fun _ => rfl]

theorem map_tree_interfaces {l : ParameterizedInterfaceList} {es : List Entry}
    (h : l.tree = Items.list es) :
    (ParameterizedInterfaceList.interfaces l).map Node.tree = es.map Entry.tree := by
  rw [ParameterizedInterfaceList.interfaces, Node.map_tree_childrenOf, h, Items.list, Tree.children,
    Entry.ofKind_lines]

/-- The items of a clause are read back. Which list is there tells the two sorts apart. -/
theorem read?_items (h : a.tree = c.tree) : Items.read? a = some c.items.shown := by
  unfold Items.read?
  cases hitems : c.items with
  | interfaces es =>
    obtain ⟨l, hl, htree⟩ := exists_interfaces? h hitems
    have hentries := Node.mapM_of_trees (map_tree_interfaces htree) fun _ _ => Entry.read?_of_tree
    rw [hl]
    simp [hentries, Items.shown]
  | declarations bs =>
    obtain ⟨l, hl, htrees⟩ := exists_declarations? h hitems
    have hbares := Node.mapM_eq_of_trees htrees fun _ _ => Bare.read?_of_tree
    rw [interfaces?_of_declarations h hitems, hl]
    simp [hbares, Items.shown]

theorem read?_of_tree (h : a.tree = c.tree) : Clause.read? a = some c.shown := by
  simp [Clause.read?, direction?_of_tree h, read?_items h, shown]

end Clause

/-! ## Components and files -/

namespace Component

variable {n : Nesc.Component} {d : Component}

theorem kind?_of_tree (h : n.tree = d.tree) : Nesc.Component.kind? n = some d.kind := by
  rw [Nesc.Component.kind?, Cursor.choice?_eq]
  change n.tree.children.findSome? _ = _
  rw [h]
  obtain ⟨kind, isGeneric, name, clauses, statements⟩ := d
  cases kind <;> cases isGeneric <;> rfl

/-- The header says `generic` exactly if the component is. -/
theorem isGeneric_of_tree (h : n.tree = d.tree) : Nesc.Component.isGeneric n = d.isGeneric := by
  rw [Nesc.Component.isGeneric, Node.token?, Cursor.isSome_token?]
  change n.tree.children.any _ = _
  rw [h]
  obtain ⟨kind, isGeneric, name, clauses, statements⟩ := d
  cases kind <;> cases isGeneric <;> rfl

theorem readName?_of_tree (h : n.tree = d.tree) :
    readName? (Nesc.Component.name? n) = some d.name := by
  obtain ⟨⟨path, start, t⟩, hk⟩ := n
  obtain rfl : t = d.tree := h
  rw [name?_tree]
  rfl

theorem exists_specification? (h : n.tree = d.tree) :
    ∃ l, Nesc.Component.specification? n = some l ∧ l.tree = d.specification := by
  obtain ⟨⟨path, start, t⟩, hk⟩ := n
  obtain rfl : t = d.tree := h
  exact ⟨_, specification?_tree path start d, rfl⟩

theorem exists_implementation? (h : n.tree = d.tree) :
    ∃ i, Nesc.Component.implementation? n = some i ∧ i.tree = d.implementation := by
  obtain ⟨⟨path, start, t⟩, hk⟩ := n
  obtain rfl : t = d.tree := h
  exact ⟨_, implementation?_tree path start d, rfl⟩

theorem map_tree_accesses {l : AccessList} (h : l.tree = d.specification) :
    (AccessList.accesses l).map Node.tree = d.clauses.map Clause.tree := by
  rw [AccessList.accesses, Node.map_tree_childrenOf, h, specification, Tree.children, ofKind_block,
    Forest.ofKind_map fun _ => rfl]

theorem map_tree_statements {i : Implementation} (h : i.tree = d.implementation) :
    (Implementation.statements i).map Node.tree = d.statements.map Statement.tree := by
  have hkeyword : Forest.ofKind .statement [mark .implementationKw, space] = [] := rfl
  rw [Implementation.statements, Node.map_tree_childrenOf, h, implementation, Tree.children,
    Forest.ofKind_append, hkeyword, List.nil_append, ofKind_block, Forest.ofKind_map fun _ => rfl]

theorem read?_of_tree (h : n.tree = d.tree) : Component.read? n = some d.shown := by
  obtain ⟨l, hl, hspecification⟩ := exists_specification? h
  obtain ⟨i, hi, himplementation⟩ := exists_implementation? h
  have hclauses := Node.mapM_of_trees (map_tree_accesses hspecification)
    fun _ _ => Clause.read?_of_tree
  have hstatements := Node.mapM_eq_of_trees (map_tree_statements himplementation)
    fun _ _ => Statement.read?_of_tree
  unfold Component.read?
  simp [kind?_of_tree h, readName?_of_tree h, hl, hi, hclauses, hstatements, isGeneric_of_tree h,
    shown]

end Component

namespace File

/-- A file is read back as far as its layout shows it. -/
theorem read?_of_tree {u : SourceFile} {f : File} (h : u.tree = f.tree) :
    File.read? u = some f.shown := by
  have hend : Forest.ofKind .component [blank "\n"] = [] := rfl
  have htrees : (SourceFile.components u).map Node.tree = f.map Component.tree := by
    rw [SourceFile.components, Node.map_tree_childrenOf, h, tree, Tree.children,
      Forest.ofKind_append, ofKind_separated rfl, Forest.ofKind_map fun _ => rfl, hend,
      List.append_nil]
  exact Node.mapM_of_trees htrees fun _ _ => Component.read?_of_tree

/-- Descriptions with one layout agree in all that a layout shows. -/
theorem shown_eq_of_tree_eq {f g : File} (h : f.tree = g.tree) : f.shown = g.shown := by
  have hf := read?_of_tree (u := ⟨.root f.tree, rfl⟩) (f := f) rfl
  have hg := read?_of_tree (u := ⟨.root f.tree, rfl⟩) (f := g) h
  exact Option.some.inj (hf.symm.trans hg)

/-- A file that is laid out reads back as its description, less the type arguments of entries
without a name. So a layout tells two descriptions apart wherever they differ in anything else. -/
theorem read?_tree_eq_shown (f : File) :
    f.tree.file?.bind File.read? = some f.shown ∧
      ∀ g : File, g.tree = f.tree ↔ g.shown = f.shown := by
  refine ⟨?_, fun g => ⟨shown_eq_of_tree_eq, fun h => ?_⟩⟩
  · have hfile : f.tree.file? = some ⟨.root f.tree, rfl⟩ := rfl
    rw [hfile, Option.bind_some]
    exact read?_of_tree rfl
  · calc g.tree = g.shown.tree := g.tree_shown.symm
      _ = f.shown.tree := by rw [h]
      _ = f.tree := f.tree_shown

/-- Names that look like keywords or are empty, and type arguments of an entry without a name. -/
example :
    let d (arguments : List String) : Component := {
      kind := .configuration
      name := "generic"
      clauses := [⟨.uses, .interfaces [⟨some "as", some "", ["interface"], []⟩,
        ⟨none, some "as", arguments, [⟨"", "void"⟩]⟩]⟩]
      statements := [⟨.call, "signal", ""⟩] }
    (File.tree [d ["t"]]).file?.bind File.read? = some [d []] := by
  decide +kernel

end File

end Decl

end Nesc
