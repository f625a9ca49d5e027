import Nesc.Node.Basic

/-! # Fields by name

Every kind of composite node but `error` declares fields: a name for a part, and how the part is
found. Reading a field by name works on any node; a node whose kind does not declare the field has
no value for it. A field that lists parts always has a value, possibly an empty list. -/

namespace Nesc

/-- The name of a part of a node. -/
inductive Field where
  | components | name | specification | implementation | accesses | direction | interfaces
  | declarations | reference | parameters | rename | arguments | types | type | kind | statements
  | target | member
deriving DecidableEq, Repr

namespace Field

def all : List Field := [
  .components, .name, .specification, .implementation, .accesses, .direction, .interfaces,
  .declarations, .reference, .parameters, .rename, .arguments, .types, .type, .kind, .statements,
  .target, .member
]

/-- The spelling of a field name. -/
def label : Field → String
  | .components => "components"
  | .name => "name"
  | .specification => "specification"
  | .implementation => "implementation"
  | .accesses => "accesses"
  | .direction => "direction"
  | .interfaces => "interfaces"
  | .declarations => "declarations"
  | .reference => "reference"
  | .parameters => "parameters"
  | .rename => "rename"
  | .arguments => "arguments"
  | .types => "types"
  | .type => "type"
  | .kind => "kind"
  | .statements => "statements"
  | .target => "target"
  | .member => "member"

/-- The field with the given spelling. -/
def ofLabel? (s : String) : Option Field := all.find? (·.label == s)

@[simp] theorem ofLabel?_label (f : Field) : ofLabel? f.label = some f := by
  cases f <;> decide +kernel

end Field

/-- How a part is found among the children of a node. -/
inductive Shape where
  /-- The first child of a kind. -/
  | child (kind : Kind)
  /-- The second child of a kind. -/
  | second (kind : Kind)
  /-- All children of a kind. -/
  | children (kind : Kind)
  /-- The first child of a kind after a keyword. -/
  | childAfter (keyword kind : Kind)
  /-- The first token of the first of these kinds that occurs at all. -/
  | token (kinds : List Kind)
deriving DecidableEq, Repr

/-- What a field holds. -/
inductive FieldValue where
  | node (cursor : Cursor)
  | nodes (cursors : List Cursor)
  | token (cursor : Cursor)
deriving DecidableEq, Repr

namespace FieldValue

/-- The node of a field that holds one. -/
def node? : FieldValue → Option Cursor
  | .node c => some c
  | _ => none

/-- The nodes of a field, one or many. -/
def toNodes : FieldValue → List Cursor
  | .node c => [c]
  | .nodes cs => cs
  | .token _ => []

/-- The token of a field that holds one. -/
def token? : FieldValue → Option Cursor
  | .token c => some c
  | _ => none

end FieldValue

/-- Find a part among the children of `c`. -/
def Shape.read (c : Cursor) : Shape → Option FieldValue
  | .child k => (c.child? k).map fun n => .node n.cursor
  | .second k => (c.childrenOf k)[1]?.map fun n => .node n.cursor
  | .children k => some (.nodes ((c.childrenOf k).map Node.cursor))
  | .childAfter w k => (c.childAfter? w k).map fun n => .node n.cursor
  | .token ks => (ks.findSome? c.token?).map .token

/-- The declared fields of a kind of node. -/
structure Schema where
  /-- The name of this sort of node. -/
  title : String
  slots : List (Field × Shape)
deriving Repr

/-- The fields that each kind of node declares, in order. -/
def Kind.schema? : Kind → Option Schema
  | .sourceFile => some ⟨"TranslationUnit", [(.components, .children .component)]⟩
  | .component => some ⟨"Component", [(.name, .child .identifier),
      (.specification, .child .accessList), (.implementation, .child .implementation)]⟩
  | .accessList => some ⟨"AccessList", [(.accesses, .children .access)]⟩
  | .access => some ⟨"Access", [(.direction, .token [.providesKw, .usesKw]),
      (.interfaces, .child .parameterizedInterfaceList),
      (.declarations, .child .declarationList)]⟩
  | .parameterizedInterfaceList =>
    some ⟨"ParameterizedInterfaceList", [(.interfaces, .children .parameterizedInterface)]⟩
  | .parameterizedInterface => some ⟨"ParameterizedInterface",
      [(.reference, .child .interfaceReference), (.parameters, .child .interfaceParameters)]⟩
  | .interfaceReference => some ⟨"InterfaceReference",
      [(.name, .child .interfaceType), (.rename, .childAfter .asKw .identifier)]⟩
  | .interfaceType => some ⟨"InterfaceType",
      [(.name, .child .identifier), (.arguments, .child .typeArguments)]⟩
  | .typeArguments => some ⟨"TypeArguments", [(.types, .children .typeName)]⟩
  | .typeName => some ⟨"TypeName", [(.name, .child .identifier)]⟩
  | .interfaceParameters =>
    some ⟨"InterfaceParameters", [(.parameters, .children .parameter)]⟩
  | .parameter => some ⟨"Parameter", [(.type, .child .typeName), (.name, .child .identifier)]⟩
  | .declarationList => some ⟨"DeclarationList", [(.declarations, .children .declaration)]⟩
  | .declaration => some ⟨"Declaration",
      [(.kind, .token [.commandKw, .eventKw]), (.name, .child .identifier)]⟩
  | .implementation => some ⟨"Implementation", [(.statements, .children .statement)]⟩
  | .statement => some ⟨"Statement",
      [(.target, .child .identifier), (.member, .second .identifier)]⟩
  | .identifier => some ⟨"Identifier", [(.name, .token [.ident])]⟩
  | _ => none

/-- The kind of node with the given title. -/
def Kind.ofTitle? (s : String) : Option Kind :=
  Kind.all.find? fun k => k.schema?.any (·.title == s)

namespace Cursor

/-- The declared fields of a node. -/
def schema? (c : Cursor) : Option Schema := c.tree.nodeKind?.bind Kind.schema?

/-- The value of a field, if the node declares it and the part is there. -/
def field? (f : Field) (c : Cursor) : Option FieldValue := do
  let shape ← (← c.schema?).slots.lookup f
  shape.read c

/-- The one node a field holds, if it is of kind `k`. -/
def nodeField? (f : Field) (k : Kind) (c : Cursor) : Option (Node k) := do
  (← (← c.field? f).node?).as? k

/-- The nodes of kind `k` that a field holds, over several parents. -/
def collectFields (f : Field) (k : Kind) (parents : List Cursor) : List (Node k) :=
  ((parents.filterMap (field? f)).flatMap FieldValue.toNodes).filterMap (as? k)

end Cursor

/-! ## Broken nodes -/

/-- A node of kind `kind` at `range` lacks a part it cannot do without. -/
structure Malformed where
  kind : Kind
  field : Field
  range : Range
deriving DecidableEq, Repr

namespace Malformed

/-- The complaint that a node lacks a part. -/
def of {k : Kind} (n : Node k) (field : Field) : Malformed := ⟨k, field, n.range⟩

def message (m : Malformed) : String :=
  s!"malformed {m.kind.name} node at {m.range.toText}: missing mandatory field `{m.field.label}`"

end Malformed

end Nesc
