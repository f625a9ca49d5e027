import Nesc.Choice
import Nesc.Rename

/-! # Descriptions of component files

What a component file declares, without its layout. Names are arbitrary texts, also empty ones: a
description can stand for a file that is still being typed. -/

namespace Nesc

namespace Decl

/-- A parameter of a parameterized interface, such as `uint8_t id`. -/
structure Param where
  type : String
  name : String
deriving DecidableEq, Repr

/-- One interface of an access clause. -/
structure Entry where
  /-- The referenced interface; without it the entry is unfinished. -/
  name? : Option String := none
  /-- The local name given by `as`. -/
  alias? : Option String := none
  arguments : List String := []
  parameters : List Param := []
deriving DecidableEq, Repr

/-- A command or event declared on its own. -/
structure Bare where
  kind : DeclarationKind
  name : String
deriving DecidableEq, Repr

/-- What an access clause lists. -/
inductive Items where
  | interfaces (entries : List Entry)
  | declarations (bares : List Bare)
deriving DecidableEq, Repr

namespace Items

/-- The interface entries of a clause. -/
def entries : Items → List Entry
  | .interfaces es => es
  | .declarations _ => []

/-- The bare declarations of a clause. -/
def bares : Items → List Bare
  | .interfaces _ => []
  | .declarations ds => ds

end Items

/-- A `provides` or `uses` clause. -/
structure Clause where
  direction : Direction
  items : Items
deriving DecidableEq, Repr

/-- A statement `call target.member();` or `signal target.member();`. -/
structure Statement where
  kind : StatementKind
  target : String
  member : String
deriving DecidableEq, Repr

/-- A component: its header, the clauses of its specification, the statements of its body. -/
structure Component where
  kind : ComponentKind
  isGeneric : Bool := false
  name : String
  clauses : List Clause := []
  statements : List Statement := []
deriving DecidableEq, Repr

/-- The components of a file, in order. -/
abbrev File := List Component

namespace Component

/-- The interface entries of all clauses, in order. -/
def entries (c : Component) : List Entry := c.clauses.flatMap (·.items.entries)

/-- The bare declarations of all clauses, in order. -/
def bares (c : Component) : List Bare := c.clauses.flatMap (·.items.bares)

/-- The same component, generic. -/
def generic (c : Component) : Component := { c with isGeneric := true }

/-- The component with one more clause. -/
def access (c : Component) (direction : Direction) (items : Items) : Component :=
  { c with clauses := c.clauses ++ [⟨direction, items⟩] }

/-- The component with one more statement. -/
def perform (c : Component) (kind : StatementKind) (target member : String) : Component :=
  { c with statements := c.statements ++ [⟨kind, target, member⟩] }

end Component

/-! ## Renaming

What renaming an alias means for a description: the first entry with the old alias gets the new one,
and the statements that name it follow if wanted. Other entries with the same alias, members,
interface names and bare declarations stay as they are. -/

/-- Give the first entry aliased as the old name the new alias. -/
def Entry.renameFirst (r : Request) : List Entry → List Entry
  | [] => []
  | e :: es =>
    if e.alias? = some r.old then { e with alias? := some r.new } :: es
    else e :: renameFirst r es

/-- Whether one of the entries is aliased as `old`. -/
def Items.hasAlias (old : String) (items : Items) : Bool :=
  items.entries.any fun e => e.alias? == some old

def Items.rename (r : Request) : Items → Items
  | .interfaces es => .interfaces (Entry.renameFirst r es)
  | .declarations ds => .declarations ds

/-- Rename in the first clause that has an entry aliased as the old name. -/
def Clause.renameFirst (r : Request) : List Clause → List Clause
  | [] => []
  | c :: cs =>
    if c.items.hasAlias r.old then { c with items := c.items.rename r } :: cs
    else c :: renameFirst r cs

/-- Rename the target of a statement, if it is the old name. -/
def Statement.rename (r : Request) (s : Statement) : Statement :=
  if s.target = r.old then { s with target := r.new } else s

/-- Rename an alias of a component, and its usages if they are wanted. -/
def Component.rename (r : Request) (usages : Bool) (c : Component) : Component :=
  { c with
    clauses := Clause.renameFirst r c.clauses
    statements := if usages then c.statements.map (Statement.rename r) else c.statements }

/-- Rename an alias of the component at an index. -/
def File.rename (i : Nat) (r : Request) (usages : Bool) (f : File) : File :=
  f.modify i (Component.rename r usages)

end Decl

end Nesc
