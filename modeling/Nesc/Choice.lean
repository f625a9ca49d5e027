import Nesc.Kind

/-! # Choices between two keywords

At four places of a component file one of two keywords stands: in front of a component, of an
access clause, of a bare declaration and of a statement. Each choice is a type; `keyword` gives the
kind of the keyword that says it, and `ofKeyword?` reads it back (`ofKeyword?_keyword`). -/

namespace Nesc

/-- What sort of component is declared. -/
inductive ComponentKind where
  | module | configuration
deriving DecidableEq, Repr

/-- Whether a clause lists what the component provides or what it uses. -/
inductive Direction where
  | provides | uses
deriving DecidableEq, Repr

/-- What a bare declaration declares. -/
inductive DeclarationKind where
  | command | event
deriving DecidableEq, Repr

/-- What a statement does with the member it names. -/
inductive StatementKind where
  | call | signal
deriving DecidableEq, Repr

namespace ComponentKind

def keyword : ComponentKind → Kind
  | .module => .moduleKw
  | .configuration => .configurationKw

def ofKeyword? : Kind → Option ComponentKind
  | .moduleKw => some .module
  | .configurationKw => some .configuration
  | _ => none

@[simp] theorem ofKeyword?_keyword (c : ComponentKind) : ofKeyword? c.keyword = some c := by
  cases c <;> rfl

end ComponentKind

namespace Direction

def keyword : Direction → Kind
  | .provides => .providesKw
  | .uses => .usesKw

def ofKeyword? : Kind → Option Direction
  | .providesKw => some .provides
  | .usesKw => some .uses
  | _ => none

@[simp] theorem ofKeyword?_keyword (d : Direction) : ofKeyword? d.keyword = some d := by
  cases d <;> rfl

end Direction

namespace DeclarationKind

def keyword : DeclarationKind → Kind
  | .command => .commandKw
  | .event => .eventKw

def ofKeyword? : Kind → Option DeclarationKind
  | .commandKw => some .command
  | .eventKw => some .event
  | _ => none

@[simp] theorem ofKeyword?_keyword (d : DeclarationKind) : ofKeyword? d.keyword = some d := by
  cases d <;> rfl

end DeclarationKind

namespace StatementKind

def keyword : StatementKind → Kind
  | .call => .callKw
  | .signal => .signalKw

def ofKeyword? : Kind → Option StatementKind
  | .callKw => some .call
  | .signalKw => some .signal
  | _ => none

@[simp] theorem ofKeyword?_keyword (s : StatementKind) : ofKeyword? s.keyword = some s := by
  cases s <;> rfl

end StatementKind

end Nesc
