import Nesc.Node.Parts

/-! # The scope of a component

A scope is what a component's names are looked up in: the identifier that names the component and
the specification that declares its interfaces, commands and events, both nodes of one file. A scope
is bound to a component of the file, or to an identifier and a specification chosen freely. -/

namespace Nesc

/-- The tree as a file, if its root is of that kind. -/
def Tree.file? (t : Tree) : Option SourceFile := (Cursor.root t).as? .sourceFile

/-- A component's name and specification, in the file they belong to. -/
structure Scope where
  file : SourceFile
  identifier : Identifier
  specification : AccessList
  /-- The file is a whole tree. -/
  cursor_file : file.cursor = .root file.tree
  identifier_mem : identifier.cursor ∈ file.cursor.elements
  specification_mem : specification.cursor ∈ file.cursor.elements

namespace Scope

/-- The name of the component. -/
def name (s : Scope) : Except Malformed String := s.identifier.name

/-- The component that the identifier stands right below. -/
def component? (s : Scope) : Option Component :=
  (s.file.cursor.parent? s.identifier.cursor).bind (Cursor.as? .component)

/-- The targets of the statements in the component's implementation, in order. -/
def targets (s : Scope) : List Identifier :=
  (s.component?.bind Component.implementation?).toList.flatMap fun i =>
    (Implementation.statements i).filterMap Statement.target?

end Scope

/-! ## Choosing a component -/

namespace Component

/-- Whether the component has a name that can be read and is `s`. -/
def isNamed (s : String) (c : Component) : Bool :=
  (name? c).bind Identifier.spelling? == some s

/-- What is wrong with the component's name, if it has one. -/
def nameFault? (c : Component) : Option Malformed := do
  match Identifier.name (← name? c) with
  | .ok _ => none
  | .error m => some m

end Component

/-- The first component named `s`. -/
def SourceFile.component? (s : String) (u : SourceFile) : Option Component :=
  (components u).find? (Component.isNamed s)

/-- The broken names met before a component named `s` is found. -/
def SourceFile.faultsBefore (s : String) (u : SourceFile) : List Malformed :=
  ((components u).takeWhile fun c => !Component.isNamed s c).filterMap Component.nameFault?

/-- Why no scope can be bound. -/
inductive BindError where
  /-- The tree is not that of a file. -/
  | noFile
  | noComponent
  | noNode
  | malformed (fault : Malformed)
deriving DecidableEq, Repr

/-- What a scope is to be bound to. -/
inductive Binding where
  /-- A component right below the file, counted from zero. -/
  | index (i : Nat)
  /-- The first component right below the file that has a name. -/
  | name (s : String)
  /-- Any component of the file, however deep. -/
  | component (address : Selector)
  /-- Any identifier and any specification of the file. -/
  | nodes (identifier specification : Selector)
deriving DecidableEq, Repr

namespace Binding

/-- The faults that finding the component passes over. -/
def faults (t : Tree) : Binding → List Malformed
  | .name s => t.file?.toList.flatMap (SourceFile.faultsBefore s)
  | .index _ | .component _ | .nodes .. => []

/-- The component of the file that is asked for. -/
def componentIn? (u : SourceFile) : Binding → Option Component
  | .index i => (SourceFile.components u)[i]?
  | .name s => SourceFile.component? s u
  | .component address => (address.find? u.cursor).bind (Cursor.as? .component)
  | .nodes .. => none

theorem mem_elements_of_componentIn? {b : Binding} {u : SourceFile} {c : Component}
    (h : b.componentIn? u = some c) : c.cursor ∈ u.cursor.elements := by
  cases b with
  | index i =>
    exact Node.mem_elements_of_mem_childrenOf u.cursor.self_mem_elements (List.mem_of_getElem? h)
  | name s =>
    exact Node.mem_elements_of_mem_childrenOf u.cursor.self_mem_elements
      (List.mem_of_find?_eq_some h)
  | component address =>
    obtain ⟨d, hd, hc⟩ := Option.bind_eq_some_iff.mp h
    exact Cursor.as?_eq_some_iff.mp hc ▸ Selector.mem_elements_of_find? hd
  | nodes i l => cases h

end Binding

namespace Scope

/-- The scope of a component, wherever it stands in the file. The component must have a name and a
specification, and the lack of a name is noticed first. -/
def ofComponent (u : SourceFile) (hu : u.cursor = .root u.tree) (c : Component)
    (hc : c.cursor ∈ u.cursor.elements) : Except Malformed Scope :=
  match hi : Component.name? c with
  | none => .error (.of c .name)
  | some i =>
    match hs : Component.specification? c with
    | none => .error (.of c .specification)
    | some l => .ok ⟨u, i, l, hu, Node.mem_elements_of_child? hc hi,
        Node.mem_elements_of_child? hc hs⟩

/-- The scope of a chosen component; none may have been found. -/
def ofComponent? (u : SourceFile) (hu : u.cursor = .root u.tree)
    (c? : Option Component) (hc : ∀ c ∈ c?, c.cursor ∈ u.cursor.elements) :
    Except BindError Scope :=
  match c? with
  | none => .error .noComponent
  | some c => (ofComponent u hu c (hc c rfl)).mapError .malformed

/-- The scope of a chosen identifier and a chosen specification. -/
def ofNodes? (u : SourceFile) (hu : u.cursor = .root u.tree) (i? l? : Option Cursor)
    (hi : ∀ c ∈ i?, c ∈ u.cursor.elements) (hl : ∀ c ∈ l?, c ∈ u.cursor.elements) :
    Except BindError Scope :=
  match hi' : i?.bind (Cursor.as? .identifier), hl' : l?.bind (Cursor.as? .accessList) with
  | some i, some l =>
    .ok ⟨u, i, l, hu,
      by
        obtain ⟨c, hc, he⟩ := Option.bind_eq_some_iff.mp hi'
        exact Cursor.as?_eq_some_iff.mp he ▸ hi c hc,
      by
        obtain ⟨c, hc, he⟩ := Option.bind_eq_some_iff.mp hl'
        exact Cursor.as?_eq_some_iff.mp he ▸ hl c hc⟩
  | _, _ => .error .noNode

/-- The scope a tree has for a binding. -/
def bind (t : Tree) (b : Binding) : Except BindError Scope :=
  match hu : t.file? with
  | none => .error .noFile
  | some u =>
    have hroot : u.cursor = .root u.tree := by
      have := Cursor.as?_eq_some_iff.mp hu
      simp [Node.tree, this, Cursor.root]
    match b with
    | .index _ | .name _ | .component _ =>
      ofComponent? u hroot (b.componentIn? u) fun _ h => Binding.mem_elements_of_componentIn? h
    | .nodes i l =>
      ofNodes? u hroot (i.find? u.cursor) (l.find? u.cursor)
        (fun _ h => Selector.mem_elements_of_find? h) (fun _ h => Selector.mem_elements_of_find? h)

end Scope

end Nesc
