import Nesc.Scope.Facts

/-! # Renaming an alias

A request pairs the alias to rename with its new name. The new name alone can already be refused:
for its spelling, or because nothing would change. The rename is then checked against the scope: the
old name must be an alias, the first of its spelling is meant, and the new name must not be in use
for an interface, a command or an event of the component. The edits replace the name of that alias
and, if wanted, the target of every statement of the component's implementation that is spelled as
the old name. Nothing is applied. -/

namespace Nesc

/-! ## Reserved words and identifiers

A name that a user may introduce is spelled as an identifier and is not reserved. Both tests look
at the spelling only. Identifiers are ASCII: letters, digits and underscores, not starting with a
digit. -/

namespace Word

/-- The words nesC reserves on top of those of C. -/
def nescReserved : List String := [
  "abstract", "as", "async", "atomic", "call", "command", "component", "components",
  "configuration", "event", "extends", "generic", "implementation", "includes", "interface",
  "module", "new", "norace", "post", "provides", "signal", "task", "uses"
]

/-- The words C reserves. -/
def cReserved : List String := [
  "auto", "break", "case", "char", "const", "continue", "default", "do", "double", "else", "enum",
  "extern", "float", "for", "goto", "if", "inline", "int", "long", "register", "restrict",
  "return", "short", "signed", "sizeof", "static", "struct", "switch", "typedef", "union",
  "unsigned", "void", "volatile", "while"
]

/-- Whether a word is reserved, by either table. -/
def isReserved (w : String) : Bool := nescReserved.contains w || cReserved.contains w

/-- The characters an identifier may start with. -/
def isStart (c : Char) : Bool := c == '_' || c.isAlpha

/-- The characters an identifier may go on with. -/
def isRest (c : Char) : Bool := c == '_' || c.isAlphanum

/-- Whether a word is spelled as an identifier; reserved words are. -/
def isIdentifier (w : String) : Bool :=
  match w.toList with
  | [] => false
  | c :: cs => isStart c && cs.all isRest

theorem isReserved_iff {w : String} : isReserved w ↔ w ∈ nescReserved ∨ w ∈ cReserved := by
  simp [isReserved]

@[simp] theorem isIdentifier_empty : isIdentifier "" = false := rfl

end Word

/-! ## Requests

Refusals are ranked; the first that applies is given (`Request.validate_eq_ok_iff` says when none
does). -/

/-- Why a rename is refused. -/
inductive Refusal where
  | emptyName
  | invalidIdentifier (name : String)
  | reservedWord (name : String)
  | unchanged (name : String)
  /-- The old name is no alias of the component. -/
  | notAnAlias (name component : String)
  /-- The new name is taken in the component. -/
  | nameInUse (name component : String)
  /-- The file is broken where it had to be read. -/
  | malformed (fault : Malformed)
deriving DecidableEq, Repr

def Refusal.message : Refusal → String
  | .emptyName => "the new name must not be empty"
  | .invalidIdentifier n => s!"`{n}` is not a valid identifier"
  | .reservedWord n => s!"`{n}` is a reserved word"
  | .unchanged n => s!"the new name is the same as the old name `{n}`"
  | .notAnAlias n c => s!"`{n}` is not an interface alias in component `{c}`"
  | .nameInUse n c => s!"`{n}` is already used for an interface in component `{c}`"
  | .malformed m => m.message

/-- The alias to rename, and its new name. -/
structure Request where
  old : String
  new : String
deriving DecidableEq, Repr

namespace Request

/-- A request before a new name is chosen. -/
def begin (old : String) : Request := ⟨old, old⟩

/-- The request with another new name. -/
def withNew (r : Request) (new : String) : Request := { r with new }

/-- Whether the new name could be given to some alias, by its spelling. -/
def validate (r : Request) : Except Refusal Unit :=
  if r.new = "" then .error .emptyName
  else if !Word.isIdentifier r.new then .error (.invalidIdentifier r.new)
  else if Word.isReserved r.new then .error (.reservedWord r.new)
  else if r.new = r.old then .error (.unchanged r.old)
  else .ok ()

/-- A request is valid exactly if the new name is an identifier, is not reserved, and differs from
the old one. -/
theorem validate_eq_ok_iff {r : Request} :
    r.validate = .ok () ↔
      Word.isIdentifier r.new = true ∧ Word.isReserved r.new = false ∧ r.new ≠ r.old := by
  simp only [validate]
  grind [Word.isIdentifier_empty]

end Request

/-! ## Edits of a rename -/

namespace Refusal

/-- Reading the file, with its faults as refusals. -/
def ofRead {α : Type} (x : Except Malformed α) : Except Refusal α := x.mapError .malformed

end Refusal

namespace Edit

/-- Edits that give a new name to identifiers, in the order of their offsets and without repeats. -/
def respell (new : String) (is : List Identifier) : List Edit :=
  dropRepeats (fun a b => a.range == b.range)
    ((is.map fun i => ⟨i.nameRange, new⟩).mergeSort fun a b =>
      decide (a.range.start ≤ b.range.start))

end Edit

namespace Scope

/-- Whether a rename can proceed; if so, the alias it renames. -/
def checkRename (s : Scope) (r : Request) : Except Refusal Identifier := do
  r.validate
  let component ← Refusal.ofRead s.name
  match ← Refusal.ofRead (s.aliasNamed? r.old) with
  | none => throw (.notAnAlias r.old component)
  | some a =>
    if (← Refusal.ofRead s.localNames).contains r.new then
      throw (.nameInUse r.new component)
    match ← Refusal.ofRead (Identifier.firstNamed? r.new s.declarationIdentifiers) with
    | some _ => throw (.nameInUse r.new component)
    | none => return a

/-- The targets to rename along with an alias; none unless usages are wanted. -/
def usages (s : Scope) (r : Request) (wanted : Bool) : Except Malformed (List Identifier) :=
  if wanted then Identifier.allNamed r.old s.targets else .ok []

/-- The edits of a rename, with or without the usages of the alias. -/
def renameEdits (s : Scope) (r : Request) (wanted : Bool) : Except Refusal (List Edit) := do
  let a ← s.checkRename r
  let targets ← Refusal.ofRead (s.usages r wanted)
  return Edit.respell r.new (a :: targets)

end Scope

end Nesc
