import Nesc.Decl.Basic

/-! # Layout of component files

A description is laid out as a tree whose text reads as source:

```text
module Logger {
  provides interface Read as R;
  uses interface Timer<TMilli> as T[uint8_t id];
}
implementation {
  call R.read();
}
```

A clause with one interface names it in the clause's line; any other number of interfaces stands in
braces, one to a line. Every name becomes an identifier node over a single token. A description is
read back from a tree through the parts of its nodes (`Decl.File.read?`). -/

namespace Nesc

namespace Decl

open Nesc.Tree (mark blank space identifier)

/-- Trees side by side, with the same separator in front of each but the first. -/
def separated (separator : Forest) : List Tree → Forest
  | [] => []
  | t :: ts => t :: ts.flatMap fun u => separator ++ [u]

/-- A comma and a blank. -/
def commaSpace : Forest := [mark .comma, space]

namespace Entry

/-- Type arguments in angle brackets; nothing at all if there are none. -/
def argumentPart : List String → Forest
  | [] => []
  | args => [.node .typeArguments ([mark .less] ++
      separated commaSpace (args.map fun a => .node .typeName [identifier a]) ++ [mark .greater])]

/-- The interface type; an entry without a name has none, and drops its type arguments. -/
def typePart (e : Entry) : Forest :=
  match e.name? with
  | none => []
  | some n => [.node .interfaceType (identifier n :: argumentPart e.arguments)]

/-- The alias behind `as`, set off from the interface type if there is one. -/
def aliasPart (e : Entry) : Forest :=
  match e.alias? with
  | none => []
  | some a => (if e.name?.isSome then [space] else []) ++ [mark .asKw, space, identifier a]

def reference (e : Entry) : Tree := .node .interfaceReference (e.typePart ++ e.aliasPart)

/-- Parameters in square brackets; nothing at all if there are none. -/
def parameterPart : List Param → Forest
  | [] => []
  | ps => [.node .interfaceParameters ([mark .leftBracket] ++
      separated commaSpace (ps.map fun p =>
        .node .parameter [.node .typeName [identifier p.type], space, identifier p.name]) ++
      [mark .rightBracket])]

def tree (e : Entry) : Tree :=
  .node .parameterizedInterface
    ([mark .interfaceKw, space, e.reference] ++ parameterPart e.parameters)

end Entry

def Bare.tree (d : Bare) : Tree :=
  .node .declaration [mark d.kind.keyword, space, mark .voidKw, space, identifier d.name,
    mark .leftParen, mark .rightParen]

/-- What stands in a clause behind its keyword. -/
def Items.trees : Items → Forest
  | .interfaces [e] => [.node .parameterizedInterfaceList [e.tree], mark .semicolon]
  | .interfaces es => [mark .leftBrace,
      .node .parameterizedInterfaceList
        (es.flatMap fun e => [blank "\n    ", e.tree, mark .semicolon]),
      blank "\n  ", mark .rightBrace]
  | .declarations ds =>
    [.node .declarationList (separated [mark .semicolon, space] (ds.map Bare.tree)),
      mark .semicolon]

def Clause.tree (c : Clause) : Tree :=
  .node .access ([mark c.direction.keyword, space] ++ c.items.trees)

def Statement.tree (s : Statement) : Tree :=
  .node .statement [mark s.kind.keyword, space, identifier s.target, mark .dot,
    identifier s.member, mark .leftParen, mark .rightParen, mark .semicolon]

/-- Trees in braces, each on a line of its own. -/
def block (ts : List Tree) : Forest :=
  [mark .leftBrace] ++ (ts.flatMap fun t => [blank "\n  ", t]) ++ [blank "\n", mark .rightBrace]

namespace Component

def specification (c : Component) : Tree := .node .accessList (block (c.clauses.map Clause.tree))

def implementation (c : Component) : Tree :=
  .node .implementation
    ([mark .implementationKw, space] ++ block (c.statements.map Statement.tree))

/-- The header up to the specification. A generic component says so, and has an empty list of
parameters. -/
def header (c : Component) : Forest :=
  (if c.isGeneric then [mark .genericKw, space] else []) ++
    [mark c.kind.keyword, space, identifier c.name] ++
    (if c.isGeneric then [mark .leftParen, mark .rightParen] else []) ++ [space]

def tree (c : Component) : Tree :=
  .node .component (c.header ++ [c.specification, blank "\n", c.implementation])

end Component

/-- The tree of a file: its components with an empty line between them, and a final newline. -/
def File.tree (f : File) : Tree :=
  .node .sourceFile (separated [blank "\n\n"] (f.map Component.tree) ++ [blank "\n"])

/-! ## Reading back

The description of a file, read off its tree through the parts of its nodes alone. Layout plays no
role. Reading fails where a part that a description needs is absent or a name is broken. -/

/-- The name behind an optional identifier, which must be there. -/
def readName? (i? : Option Identifier) : Option String := i?.bind Identifier.spelling?

def Param.read? (p : Parameter) : Option Param := do
  let type ← readName? (← Parameter.type? p).name?
  let name ← readName? (Parameter.name? p)
  return ⟨type, name⟩

/-- The names of type arguments; none if the brackets are absent. -/
def readArguments? : Option TypeArguments → Option (List String)
  | none => some []
  | some a => (TypeArguments.types a).mapM fun t => readName? (TypeName.name? t)

/-- The parameters of an interface; none if the brackets are absent. -/
def readParameters? : Option InterfaceParameters → Option (List Param)
  | none => some []
  | some ps => (InterfaceParameters.parameters ps).mapM Param.read?

def Entry.read? (p : ParameterizedInterface) : Option Entry := do
  let r ← ParameterizedInterface.reference? p
  let type? := InterfaceReference.type? r
  let name? ← type?.mapM fun t => readName? (InterfaceType.name? t)
  let alias? ← (InterfaceReference.alias? r).mapM Identifier.spelling?
  let arguments ← readArguments? (type?.bind InterfaceType.arguments?)
  let parameters ← readParameters? (ParameterizedInterface.parameters? p)
  return ⟨name?, alias?, arguments, parameters⟩

def Bare.read? (d : Declaration) : Option Bare := do
  let kind ← Declaration.kind? d
  let name ← readName? (Declaration.name? d)
  return ⟨kind, name⟩

/-- What a clause lists: interfaces if it has a list of them, bare declarations otherwise. -/
def Items.read? (a : Access) : Option Items :=
  match Access.interfaces? a, Access.declarations? a with
  | some l, _ => return .interfaces (← (ParameterizedInterfaceList.interfaces l).mapM Entry.read?)
  | none, some l => return .declarations (← (DeclarationList.declarations l).mapM Bare.read?)
  | none, none => none

def Clause.read? (a : Access) : Option Clause := do
  let direction ← Access.direction? a
  let items ← Items.read? a
  return ⟨direction, items⟩

def Statement.read? (s : Nesc.Statement) : Option Statement := do
  let kind ← Statement.kind? s
  let target ← readName? (Statement.target? s)
  let member ← readName? (Statement.member? s)
  return ⟨kind, target, member⟩

def Component.read? (c : Nesc.Component) : Option Component := do
  let kind ← Component.kind? c
  let name ← readName? (Component.name? c)
  let specification ← Component.specification? c
  let implementation ← Component.implementation? c
  let clauses ← (AccessList.accesses specification).mapM Clause.read?
  let statements ← (Implementation.statements implementation).mapM Statement.read?
  return ⟨kind, Nesc.Component.isGeneric c, name, clauses, statements⟩

/-- The description of a file. -/
def File.read? (u : SourceFile) : Option File :=
  (SourceFile.components u).mapM Component.read?

end Decl

end Nesc
