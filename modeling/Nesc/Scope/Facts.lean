import Nesc.Repeats
import Nesc.Scope.Basic

/-! # What a specification declares

The facts of a scope, each a function of the scope alone. Interfaces are found through the access
clauses below the specification, at any depth; a clause contributes through its first list of
interfaces and its first list of bare declarations. Reading a name fails on a broken identifier, and
then the whole fact fails with the first such fault. -/

namespace Nesc

/-! ## From aliases to the interfaces they rename

The map takes the identifier of an alias to the identifier of the renamed interface. Its keys are
nodes, not names: aliases that are spelled alike are different keys, and keys are compared by node
identity. Entries keep the order in which their keys first came in. -/

/-- Pairs of an alias and the interface it renames, in order. -/
structure AliasMap where
  entries : List (Identifier × Identifier) := []
deriving Repr

namespace AliasMap

def size (m : AliasMap) : Nat := m.entries.length

/-- The interface renamed by the alias at a node. -/
def find? (m : AliasMap) (key : Identifier) : Option Identifier :=
  (m.entries.find? fun e => e.1.cursor.Same key.cursor).map (·.2)

/-- Put a value at a key. An entry for the same node keeps its place and its key and takes the new
value; otherwise a new entry comes last. -/
def insertEntry (key value : Identifier) :
    List (Identifier × Identifier) → List (Identifier × Identifier)
  | [] => [(key, value)]
  | e :: es =>
    if e.1.cursor.Same key.cursor then (e.1, value) :: es else e :: insertEntry key value es

def insert (m : AliasMap) (key value : Identifier) : AliasMap := ⟨insertEntry key value m.entries⟩

/-- Take in one reference; one that lacks an alias or an interface name leaves no entry. -/
def addReference (m : AliasMap) (r : InterfaceReference) : AliasMap :=
  match InterfaceReference.alias? r, InterfaceReference.interface? r with
  | some a, some i => m.insert a i
  | _, _ => m

/-- The map of a list of references. -/
def ofReferences (rs : List InterfaceReference) : AliasMap := rs.foldl addReference {}

/-- The aliases of the references that have an alias but no interface name. -/
def unresolved (rs : List InterfaceReference) : List Identifier :=
  rs.filterMap fun r =>
    if (InterfaceReference.interface? r).isNone then InterfaceReference.alias? r else none

end AliasMap

/-! ## Facts of a scope -/

namespace Identifier

/-- The first identifier named `s`. A broken identifier in front of it is a fault. -/
def firstNamed? (s : String) (is : List Identifier) : Except Malformed (Option Identifier) :=
  is.findM? (hasName s)

/-- All identifiers named `s`. A broken identifier anywhere is a fault. -/
def allNamed (s : String) : List Identifier → Except Malformed (List Identifier)
  | [] => .ok []
  | i :: is => do
    if ← hasName s i then return i :: (← allNamed s is) else allNamed s is

/-- The names of identifiers, in order. -/
def names (is : List Identifier) : Except Malformed (List String) := is.mapM name

end Identifier

namespace InterfaceReference

/-- The interface identifiers of the references without an alias. -/
def unaliased (rs : List InterfaceReference) : List Identifier :=
  rs.filterMap fun r => if (alias? r).isNone then interface? r else none

/-- The references that do not name an interface. -/
def nameless (rs : List InterfaceReference) : List InterfaceReference :=
  rs.filter fun r => (interface? r).isNone

end InterfaceReference

namespace Scope

/-- The access clauses of the specification, at any depth, in document order. -/
def accesses (s : Scope) : List Access := s.specification.descendants .access

/-- The interface references of the specification. A reference listed twice counts twice. -/
def references (s : Scope) : List InterfaceReference :=
  ((s.accesses.filterMap Access.interfaces?).flatMap fun l =>
    l.descendants .parameterizedInterface).filterMap ParameterizedInterface.reference?

/-- The identifiers of the referenced interfaces. -/
def interfaceIdentifiers (s : Scope) : List Identifier :=
  s.references.filterMap InterfaceReference.interface?

/-- The aliases given to references. -/
def aliasIdentifiers (s : Scope) : List Identifier :=
  s.references.filterMap InterfaceReference.alias?

/-- The aliases with the interfaces they rename. -/
def aliasMap (s : Scope) : AliasMap := .ofReferences s.references

/-- The set of the names of the referenced interfaces. -/
def interfaceNames (s : Scope) : Except Malformed (List String) :=
  (Identifier.names s.interfaceIdentifiers).map NameSet.ofList

/-- The names under which the implementation sees the referenced interfaces. -/
def localNames (s : Scope) : Except Malformed (List String) :=
  Identifier.names (s.references.filterMap InterfaceReference.local?)

/-- The identifiers of the bare declarations; they share the component's names with interfaces. -/
def declarationIdentifiers (s : Scope) : List Identifier :=
  ((s.accesses.filterMap Access.declarations?).flatMap
    DeclarationList.declarations).filterMap Declaration.name?

/-! ## Looking up an alias -/

/-- The first alias named `n`. -/
def aliasNamed? (s : Scope) (n : String) : Except Malformed (Option Identifier) :=
  Identifier.firstNamed? n s.aliasIdentifiers

/-- Whether `n` is an alias. -/
def isAliasName (s : Scope) (n : String) : Except Malformed Bool :=
  (s.aliasNamed? n).map Option.isSome

/-- The interface renamed by the alias at a node. -/
def interfaceOf? (s : Scope) (a : Identifier) : Option Identifier := s.aliasMap.find? a

/-- The interface renamed by the first alias named `n`. -/
def interfaceNamed? (s : Scope) (n : String) : Except Malformed (Option Identifier) :=
  (s.aliasNamed? n).map fun a? => a?.bind s.interfaceOf?

/-- The name of the interface renamed by the first alias named `n`. -/
def interfaceNameOf? (s : Scope) (n : String) : Except Malformed (Option String) := do
  match ← s.interfaceNamed? n with
  | none => return none
  | some i => return some (← i.name)

end Scope

/-! ## What a name stands for -/

/-- What a name stands for inside a component. -/
inductive NameTarget where
  /-- A local name; the interface is absent where the file does not name it. -/
  | localName (identifier : Identifier) (interface? : Option Identifier)
  /-- An interface that is known by its own name. -/
  | interface (identifier : Identifier)
  | unknown
deriving DecidableEq, Repr

/-- What `n` stands for. An alias hides the name of the interface it renames, and comes before
interfaces that go by their own names. -/
def Scope.resolve (s : Scope) (n : String) : Except Malformed NameTarget := do
  match ← s.aliasNamed? n with
  | some a => return .localName a (s.interfaceOf? a)
  | none =>
    match ← Identifier.firstNamed? n (InterfaceReference.unaliased s.references) with
    | some i => return .interface i
    | none => return .unknown

end Nesc
