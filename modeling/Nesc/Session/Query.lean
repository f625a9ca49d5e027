import Nesc.Session.Basic

/-! # Questions to a session

Every question a session answers, as a value. `Query.answer` is what the answer is, from the scope
alone; `Query.run` is how a session finds it. A run of questions is asked one after the other, with
the facts found on the way kept in between. -/

namespace Nesc

/-- A question about a scope. -/
inductive Query where
  | file | specification | identifier | component | name
  | references | interfaces | aliases | declarations | aliasMap
  | interfaceOf (a : Identifier)
  | aliasNamed (n : String)
  | interfaceNamed (n : String)
  | interfaceNameOf (n : String)
  | isAliasName (n : String)
  | interfaceNames | localNames
  | resolve (n : String)
  | checkRename (request : Request)
  | renameEdits (request : Request) (usages : Bool)
deriving DecidableEq

/-- What sort of answer a question has. -/
abbrev Query.Answer : Query → Type
  | .file => SourceFile
  | .specification => AccessList
  | .identifier => Identifier
  | .component => Option Component
  | .name => Except Malformed String
  | .references => List InterfaceReference
  | .interfaces | .aliases | .declarations => List Identifier
  | .aliasMap => AliasMap
  | .interfaceOf _ => Option Identifier
  | .aliasNamed _ | .interfaceNamed _ => Except Malformed (Option Identifier)
  | .interfaceNameOf _ => Except Malformed (Option String)
  | .isAliasName _ => Except Malformed Bool
  | .interfaceNames | .localNames => Except Malformed (List String)
  | .resolve _ => Except Malformed NameTarget
  | .checkRename _ => Except Refusal Identifier
  | .renameEdits .. => Except Refusal (List Edit)

namespace Query

/-- The answer, from the scope alone. -/
def answer (s : Scope) : (q : Query) → q.Answer
  | .file => s.file
  | .specification => s.specification
  | .identifier => s.identifier
  | .component => s.component?
  | .name => s.name
  | .references => s.references
  | .interfaces => s.interfaceIdentifiers
  | .aliases => s.aliasIdentifiers
  | .declarations => s.declarationIdentifiers
  | .aliasMap => s.aliasMap
  | .interfaceOf a => s.interfaceOf? a
  | .aliasNamed n => s.aliasNamed? n
  | .interfaceNamed n => s.interfaceNamed? n
  | .interfaceNameOf n => s.interfaceNameOf? n
  | .isAliasName n => s.isAliasName n
  | .interfaceNames => s.interfaceNames
  | .localNames => s.localNames
  | .resolve n => s.resolve n
  | .checkRename r => s.checkRename r
  | .renameEdits r usages => s.renameEdits r usages

/-- The answer, as a session finds it. -/
def run (s : Scope) : (q : Query) → Session.Work q.Answer
  | .file => pure s.file
  | .specification => pure s.specification
  | .identifier => pure s.identifier
  | .component => pure s.component?
  | .name => (Session.name s).run
  | .references => Session.references s
  | .interfaces => Session.interfaces s
  | .aliases => Session.aliases s
  | .declarations => Session.declarations s
  | .aliasMap => Session.aliasMap s
  | .interfaceOf a => Session.interfaceOf? s a
  | .aliasNamed n => (Session.aliasNamed? s n).run
  | .interfaceNamed n => (Session.interfaceNamed? s n).run
  | .interfaceNameOf n => (Session.interfaceNameOf? s n).run
  | .isAliasName n => (Session.isAliasName s n).run
  | .interfaceNames => (Session.interfaceNames s).run
  | .localNames => (Session.localNames s).run
  | .resolve n => (Session.resolve s n).run
  | .checkRename r => (Session.checkRename s r).run
  | .renameEdits r usages => (Session.renameEdits s r usages).run

end Query

/-- A question with its answer and the events reported while it was answered. -/
structure Reply where
  query : Query
  answer : query.Answer
  events : List Event

namespace Session

/-- Ask one question in a session. -/
def ask (s : Scope) (q : Query) : Work Reply := do
  let before := (← get).log.length
  let a ← q.run s
  return ⟨q, a, (← get).log.drop before⟩

/-- Ask questions one after the other in one session. -/
def askAll (s : Scope) : List Query → Work (List Reply)
  | [] => return []
  | q :: qs => return (← ask s q) :: (← askAll s qs)

end Session

end Nesc
