import Nesc.Choice
import Nesc.Tree.Cursor

/-! # Nodes of a known kind

`Node k` is a cursor on a node of kind `k`. The parts of a node are found among its children by
kind and by order alone: the first child of a kind, all children of a kind, the first child after a
keyword. So a part can be absent, and in a broken file it can stand anywhere. Every part of an
element of a tree is an element of it (`Node.mem_elements_of_child?` and its like). -/

namespace Nesc

/-- A node of kind `k` at its place. -/
structure Node (k : Kind) where
  cursor : Cursor
  nodeKind?_cursor : cursor.tree.nodeKind? = some k
deriving DecidableEq, Repr

abbrev SourceFile := Node .sourceFile
abbrev Component := Node .component
abbrev AccessList := Node .accessList
abbrev Access := Node .access
abbrev ParameterizedInterfaceList := Node .parameterizedInterfaceList
abbrev ParameterizedInterface := Node .parameterizedInterface
abbrev InterfaceReference := Node .interfaceReference
abbrev InterfaceType := Node .interfaceType
abbrev TypeArguments := Node .typeArguments
abbrev TypeName := Node .typeName
abbrev InterfaceParameters := Node .interfaceParameters
abbrev Parameter := Node .parameter
abbrev DeclarationList := Node .declarationList
abbrev Declaration := Node .declaration
abbrev Implementation := Node .implementation
abbrev Statement := Node .statement
abbrev Identifier := Node .identifier

namespace Cursor

/-- The cursor as a node of kind `k`. -/
def as? (k : Kind) (c : Cursor) : Option (Node k) :=
  if h : c.tree.nodeKind? = some k then some ⟨c, h⟩ else none

@[simp] theorem as?_eq_some_iff {k : Kind} {c : Cursor} {n : Node k} :
    c.as? k = some n ↔ n.cursor = c := by
  obtain ⟨d, hd⟩ := n
  simp only [as?]
  split
  · simp [eq_comm]
  next h => exact ⟨nofun, fun e => absurd (e ▸ hd) h⟩

/-- The first child that is a node of kind `k`. -/
def child? (k : Kind) (c : Cursor) : Option (Node k) := c.children.findSome? (as? k)

/-- All children that are nodes of kind `k`. -/
def childrenOf (k : Kind) (c : Cursor) : List (Node k) := c.children.filterMap (as? k)

/-- All nodes of kind `k` strictly below `c`, in document order. -/
def descendants (k : Kind) (c : Cursor) : List (Node k) := c.below.filterMap (as? k)

/-- The children that are tokens. -/
def tokens (c : Cursor) : List Cursor := c.children.filter (·.tree.isToken)

/-- The first child that is a token of kind `k`. -/
def token? (k : Kind) (c : Cursor) : Option Cursor :=
  c.children.find? (·.tree.tokenKind? = some k)

/-- The first child that is a node of kind `k` and comes after a token of kind `keyword`. -/
def childAfter? (keyword k : Kind) (c : Cursor) : Option (Node k) :=
  (c.children.dropWhile (·.tree.tokenKind? ≠ some keyword)).findSome? (as? k)

/-- The first of the token children that says one of the choices read by `f`. -/
def choice? {α : Type} (f : Kind → Option α) (c : Cursor) : Option α :=
  c.tokens.findSome? fun t => f t.kind

end Cursor

namespace Node

variable {k : Kind}

theorem ext_cursor {m n : Node k} (h : m.cursor = n.cursor) : m = n := by
  obtain ⟨c, hc⟩ := m
  obtain ⟨d, hd⟩ := n
  cases h
  rfl

def tree (n : Node k) : Tree := n.cursor.tree

def path (n : Node k) : List Nat := n.cursor.path

def range (n : Node k) : Range := n.cursor.range

/-- The whole text of a node, blanks and comments included. -/
def text (n : Node k) : String := n.cursor.text

def child? (j : Kind) (n : Node k) : Option (Node j) := n.cursor.child? j

def childrenOf (j : Kind) (n : Node k) : List (Node j) := n.cursor.childrenOf j

def descendants (j : Kind) (n : Node k) : List (Node j) := n.cursor.descendants j

def token? (j : Kind) (n : Node k) : Option Cursor := n.cursor.token? j

end Node

/-! ## Parts are elements -/

namespace Cursor

theorem mem_children_of_child? {k : Kind} {c : Cursor} {n : Node k} (h : c.child? k = some n) :
    n.cursor ∈ c.children := by
  obtain ⟨d, hd, hn⟩ := List.exists_of_findSome?_eq_some h
  rw [as?_eq_some_iff.mp hn]
  exact hd

theorem mem_childrenOf {k : Kind} {c : Cursor} {n : Node k} :
    n ∈ c.childrenOf k ↔ n.cursor ∈ c.children := by
  simp [childrenOf]

theorem mem_descendants {k : Kind} {c : Cursor} {n : Node k} :
    n ∈ c.descendants k ↔ n.cursor ∈ c.below := by
  simp [descendants]

end Cursor

namespace Node

theorem mem_elements_of_child? {k j : Kind} {root : Cursor} {n : Node k} {m : Node j}
    (hn : n.cursor ∈ root.elements) (h : n.child? j = some m) : m.cursor ∈ root.elements :=
  Cursor.mem_elements_of_mem_children hn (Cursor.mem_children_of_child? h)

theorem mem_elements_of_mem_childrenOf {k j : Kind} {root : Cursor} {n : Node k} {m : Node j}
    (hn : n.cursor ∈ root.elements) (h : m ∈ n.childrenOf j) : m.cursor ∈ root.elements :=
  Cursor.mem_elements_of_mem_children hn (Cursor.mem_childrenOf.mp h)

end Node

end Nesc
