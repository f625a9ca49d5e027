/-! # Kinds of tree elements

Every element of a tree carries a kind. The kinds come in a fixed order, and a kind's `code` is its
place in that order (`ofCode?_code`, `ofCode?_eq_some_iff`); so a class of kinds, such as the
keywords, is an interval of codes. A kind says nothing about shape: a token may carry the kind of a
composite, and a composite the kind of a token. -/

namespace Nesc

/-- What a token or a composite node stands for. -/
inductive Kind where
  -- Blanks and comments.
  | whitespace | lineComment | blockComment
  -- Words and numbers.
  | ident | integer
  -- Punctuation.
  | leftBrace | rightBrace | leftBracket | rightBracket | leftParen | rightParen | less | greater
  | semicolon | comma | dot | equals | arrow
  -- Keywords.
  | moduleKw | configurationKw | genericKw | interfaceKw | providesKw | usesKw | asKw
  | implementationKw | componentsKw | commandKw | eventKw | taskKw | callKw | signalKw | postKw
  | asyncKw | voidKw | typedefKw | structKw | returnKw
  -- Composite nodes.
  | sourceFile | component | accessList | access | parameterizedInterfaceList
  | parameterizedInterface | interfaceReference | interfaceType | typeArguments | typeName
  | interfaceParameters | parameter | declarationList | declaration | implementation | statement
  | identifier | error
deriving DecidableEq, Repr, Inhabited

namespace Kind

/-- All kinds, in their fixed order. -/
def all : List Kind := [
  .whitespace, .lineComment, .blockComment, .ident, .integer, .leftBrace, .rightBrace,
  .leftBracket, .rightBracket, .leftParen, .rightParen, .less, .greater, .semicolon, .comma,
  .dot, .equals, .arrow, .moduleKw, .configurationKw, .genericKw, .interfaceKw, .providesKw,
  .usesKw, .asKw, .implementationKw, .componentsKw, .commandKw, .eventKw, .taskKw, .callKw,
  .signalKw, .postKw, .asyncKw, .voidKw, .typedefKw, .structKw, .returnKw, .sourceFile,
  .component, .accessList, .access, .parameterizedInterfaceList, .parameterizedInterface,
  .interfaceReference, .interfaceType, .typeArguments, .typeName, .interfaceParameters,
  .parameter, .declarationList, .declaration, .implementation, .statement, .identifier, .error
]

/-- The place of a kind in the fixed order, counted from zero. -/
def code (k : Kind) : Nat := k.ctorIdx

/-- The kind at a place of the fixed order. -/
def ofCode? (n : Nat) : Option Kind := all[n]?

/-- The name of a kind. -/
def name : Kind → String
  | .whitespace => "WHITESPACE"
  | .lineComment => "LINE_COMMENT"
  | .blockComment => "BLOCK_COMMENT"
  | .ident => "IDENT"
  | .integer => "INTEGER"
  | .leftBrace => "L_BRACE"
  | .rightBrace => "R_BRACE"
  | .leftBracket => "L_BRACKET"
  | .rightBracket => "R_BRACKET"
  | .leftParen => "L_PAREN"
  | .rightParen => "R_PAREN"
  | .less => "LT"
  | .greater => "GT"
  | .semicolon => "SEMICOLON"
  | .comma => "COMMA"
  | .dot => "DOT"
  | .equals => "EQ"
  | .arrow => "ARROW"
  | .moduleKw => "MODULE_KW"
  | .configurationKw => "CONFIGURATION_KW"
  | .genericKw => "GENERIC_KW"
  | .interfaceKw => "INTERFACE_KW"
  | .providesKw => "PROVIDES_KW"
  | .usesKw => "USES_KW"
  | .asKw => "AS_KW"
  | .implementationKw => "IMPLEMENTATION_KW"
  | .componentsKw => "COMPONENTS_KW"
  | .commandKw => "COMMAND_KW"
  | .eventKw => "EVENT_KW"
  | .taskKw => "TASK_KW"
  | .callKw => "CALL_KW"
  | .signalKw => "SIGNAL_KW"
  | .postKw => "POST_KW"
  | .asyncKw => "ASYNC_KW"
  | .voidKw => "VOID_KW"
  | .typedefKw => "TYPEDEF_KW"
  | .structKw => "STRUCT_KW"
  | .returnKw => "RETURN_KW"
  | .sourceFile => "TRANSLATION_UNIT"
  | .component => "COMPONENT"
  | .accessList => "ACCESS_LIST"
  | .access => "ACCESS"
  | .parameterizedInterfaceList => "PARAMETERIZED_INTERFACE_LIST"
  | .parameterizedInterface => "PARAMETERIZED_INTERFACE"
  | .interfaceReference => "INTERFACE_REFERENCE"
  | .interfaceType => "INTERFACE_TYPE"
  | .typeArguments => "TYPE_ARGUMENTS"
  | .typeName => "TYPE_NAME"
  | .interfaceParameters => "INTERFACE_PARAMETERS"
  | .parameter => "PARAMETER"
  | .declarationList => "DECLARATION_LIST"
  | .declaration => "DECLARATION"
  | .implementation => "IMPLEMENTATION"
  | .statement => "STATEMENT"
  | .identifier => "IDENTIFIER"
  | .error => "ERROR"

/-- The kind with the given name. -/
def ofName? (s : String) : Option Kind := all.find? (·.name == s)

/-! ## Classes of kinds -/

/-- The code of `k` lies between those of `first` and `last`, both included. -/
def between (first last k : Kind) : Bool := first.code ≤ k.code && k.code ≤ last.code

/-- Blanks and comments: kept in the text, without meaning. -/
def isTrivia : Kind → Bool := between .whitespace .blockComment

def isPunctuation : Kind → Bool := between .leftBrace .arrow

def isKeyword : Kind → Bool := between .moduleKw .returnKw

/-- The kinds meant for composite nodes. -/
def isComposite : Kind → Bool := between .sourceFile .error

/-! ## Spelling -/

/-- The one spelling of a punctuation mark or keyword; empty for the kinds whose tokens vary. -/
def spelling : Kind → String
  | .leftBrace => "\x7b"
  | .rightBrace => "\x7d"
  | .leftBracket => "["
  | .rightBracket => "]"
  | .leftParen => "("
  | .rightParen => ")"
  | .less => "<"
  | .greater => ">"
  | .semicolon => ";"
  | .comma => ","
  | .dot => "."
  | .equals => "="
  | .arrow => "->"
  | .moduleKw => "module"
  | .configurationKw => "configuration"
  | .genericKw => "generic"
  | .interfaceKw => "interface"
  | .providesKw => "provides"
  | .usesKw => "uses"
  | .asKw => "as"
  | .implementationKw => "implementation"
  | .componentsKw => "components"
  | .commandKw => "command"
  | .eventKw => "event"
  | .taskKw => "task"
  | .callKw => "call"
  | .signalKw => "signal"
  | .postKw => "post"
  | .asyncKw => "async"
  | .voidKw => "void"
  | .typedefKw => "typedef"
  | .structKw => "struct"
  | .returnKw => "return"
  | _ => ""

/-- The keyword kind spelled `s`. -/
def ofKeyword? (s : String) : Option Kind := all.find? fun k => k.isKeyword && k.spelling == s

/-! ## Codes and names determine the kind -/

@[simp] theorem ofCode?_code (k : Kind) : ofCode? k.code = some k := by
  cases k <;> rfl

theorem ofCode?_eq_some_iff {n : Nat} {k : Kind} : ofCode? n = some k ↔ k.code = n := by
  refine ⟨fun h => ?_, fun h => h ▸ ofCode?_code k⟩
  obtain ⟨hn, rfl⟩ := List.getElem?_eq_some_iff.mp h
  have hall : ∀ m : Fin all.length, (all.get m).code = m.val := by decide
  exact hall ⟨n, hn⟩

theorem ofCode?_eq_none_iff {n : Nat} : ofCode? n = none ↔ 56 ≤ n :=
  List.getElem?_eq_none_iff

@[simp] theorem ofName?_name (k : Kind) : ofName? k.name = some k := by
  cases k <;> decide +kernel

end Kind

end Nesc
