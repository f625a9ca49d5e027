import Nesc.Node.Field

/-! # The parts of each kind of node

Typed names for the parts that the fields of a node declare, and the choices its keywords say. -/

namespace Nesc

namespace Identifier

/-- The token that spells the name. -/
def token? (i : Identifier) : Option Cursor := Node.token? .ident i

/-- The name; an identifier without a name token is broken. -/
def name (i : Identifier) : Except Malformed String :=
  match token? i with
  | some t => .ok t.text
  | none => .error (.of i .name)

/-- The name, unless the identifier is broken. -/
def spelling? (i : Identifier) : Option String := (name i).toOption

/-- Whether the name is `s`. -/
def hasName (s : String) (i : Identifier) : Except Malformed Bool := (name i).map (· == s)

/-- The bytes of the name token; of the whole node if there is none. -/
def nameRange (i : Identifier) : Range :=
  match token? i with
  | some t => t.range
  | none => i.range

end Identifier

namespace SourceFile

def components (u : SourceFile) : List Component := u.childrenOf .component

end SourceFile

namespace Component

def kind? (c : Component) : Option ComponentKind := c.cursor.choice? ComponentKind.ofKeyword?

def isGeneric (c : Component) : Bool := (c.token? .genericKw).isSome

def name? (c : Component) : Option Identifier := c.child? .identifier

def specification? (c : Component) : Option AccessList := c.child? .accessList

def implementation? (c : Component) : Option Implementation := c.child? .implementation

end Component

namespace AccessList

def accesses (l : AccessList) : List Access := l.childrenOf .access

end AccessList

namespace Access

/-- What the first of the clause's direction keywords says. -/
def direction? (a : Access) : Option Direction := a.cursor.choice? Direction.ofKeyword?

/-- The first `provides`, or else the first `uses`. -/
def directionToken? (a : Access) : Option Cursor :=
  [Kind.providesKw, Kind.usesKw].findSome? a.cursor.token?

def interfaces? (a : Access) : Option ParameterizedInterfaceList :=
  a.child? .parameterizedInterfaceList

def declarations? (a : Access) : Option DeclarationList := a.child? .declarationList

end Access

namespace ParameterizedInterfaceList

def interfaces (l : ParameterizedInterfaceList) : List ParameterizedInterface :=
  l.childrenOf .parameterizedInterface

end ParameterizedInterfaceList

namespace ParameterizedInterface

def reference? (p : ParameterizedInterface) : Option InterfaceReference :=
  p.child? .interfaceReference

def parameters? (p : ParameterizedInterface) : Option InterfaceParameters :=
  p.child? .interfaceParameters

end ParameterizedInterface

namespace InterfaceType

def name? (t : InterfaceType) : Option Identifier := t.child? .identifier

def arguments? (t : InterfaceType) : Option TypeArguments := t.child? .typeArguments

end InterfaceType

namespace InterfaceReference

def type? (r : InterfaceReference) : Option InterfaceType := r.child? .interfaceType

/-- The local name given by `as`. -/
def alias? (r : InterfaceReference) : Option Identifier := r.cursor.childAfter? .asKw .identifier

/-- The identifier that names the referenced interface. -/
def interface? (r : InterfaceReference) : Option Identifier := (type? r).bind InterfaceType.name?

/-- The identifier under which the implementation sees the interface: its alias, or else its own. -/
def local? (r : InterfaceReference) : Option Identifier := (alias? r).or (interface? r)

end InterfaceReference

namespace TypeArguments

def types (a : TypeArguments) : List TypeName := a.childrenOf .typeName

end TypeArguments

namespace TypeName

def name? (t : TypeName) : Option Identifier := t.child? .identifier

end TypeName

namespace InterfaceParameters

def parameters (p : InterfaceParameters) : List Parameter := p.childrenOf .parameter

end InterfaceParameters

namespace Parameter

def type? (p : Parameter) : Option TypeName := p.child? .typeName

def name? (p : Parameter) : Option Identifier := p.child? .identifier

end Parameter

namespace DeclarationList

def declarations (l : DeclarationList) : List Declaration := l.childrenOf .declaration

end DeclarationList

namespace Declaration

/-- What the first of the declaration's kind keywords says. -/
def kind? (d : Declaration) : Option DeclarationKind :=
  d.cursor.choice? DeclarationKind.ofKeyword?

/-- The first `command`, or else the first `event`. -/
def kindToken? (d : Declaration) : Option Cursor :=
  [Kind.commandKw, Kind.eventKw].findSome? d.cursor.token?

def name? (d : Declaration) : Option Identifier := d.child? .identifier

end Declaration

namespace Implementation

def statements (i : Implementation) : List Statement := i.childrenOf .statement

end Implementation

namespace Statement

def kind? (s : Statement) : Option StatementKind := s.cursor.choice? StatementKind.ofKeyword?

def target? (s : Statement) : Option Identifier := s.child? .identifier

def member? (s : Statement) : Option Identifier := (s.childrenOf .identifier)[1]?

/-- All identifiers below a statement, however deep. -/
def identifiers (s : Statement) : List Identifier := s.descendants .identifier

end Statement

end Nesc
