import Nesc.Rename

/-! # Sessions

A session answers questions about one scope. A fact is found when it is first needed, reported, and
kept; facts build on each other through the store. A fact whose value cannot be had is not kept, and
is tried again when it is next needed. -/

namespace Nesc

/-! ## Facts that are kept

The facts of a scope that are worth keeping, and a store that holds those found so far. `Fact.eval`
is what each fact is; a store that agrees with it is coherent (`Store.Coherent`). -/

/-- A fact about a scope that is found once and then kept. -/
inductive Fact where
  | references | interfaces | aliases | aliasMap | interfaceNames | localNames | declarations
deriving DecidableEq, Repr

/-- What is known when a fact is known. -/
abbrev Fact.Value : Fact → Type
  | .references => List InterfaceReference
  | .interfaces | .aliases | .declarations => List Identifier
  | .aliasMap => AliasMap
  | .interfaceNames | .localNames => List String

/-- The value of a fact for a scope; broken names can leave it without one. -/
def Fact.eval (s : Scope) : (f : Fact) → Except Malformed f.Value
  | .references => .ok s.references
  | .interfaces => .ok s.interfaceIdentifiers
  | .aliases => .ok s.aliasIdentifiers
  | .aliasMap => .ok s.aliasMap
  | .interfaceNames => s.interfaceNames
  | .localNames => s.localNames
  | .declarations => .ok s.declarationIdentifiers

/-- The facts found so far. -/
def Store : Type := (f : Fact) → Option f.Value

namespace Store

/-- Nothing has been found. -/
def empty : Store := fun _ => none

/-- The store with one more fact. -/
def put (σ : Store) (f : Fact) (v : f.Value) : Store := fun g =>
  if h : g = f then some (h ▸ v) else σ g

@[simp] theorem empty_apply (f : Fact) : empty f = none := rfl

@[simp] theorem put_self (σ : Store) (f : Fact) (v : f.Value) : σ.put f v f = some v := by
  simp [put]

theorem put_of_ne (σ : Store) {f g : Fact} (v : f.Value) (h : g ≠ f) : σ.put f v g = σ g := by
  simp [put, h]

/-- Every stored value is the value of its fact for the scope. -/
def Coherent (s : Scope) (σ : Store) : Prop :=
  ∀ f v, σ f = some v → f.eval s = .ok v

theorem coherent_empty (s : Scope) : Coherent s empty := fun _ _ h => nomatch h

/-- A store stays coherent if what is put in is the value of its fact. -/
theorem Coherent.put {s : Scope} {σ : Store} (h : Coherent s σ) {f : Fact} {v : f.Value}
    (hv : f.eval s = .ok v) : Coherent s (σ.put f v) := by
  intro g w hw
  by_cases hg : g = f
  · subst hg
    simp only [put_self, Option.some.injEq] at hw
    exact hw ▸ hv
  · rw [put_of_ne σ v hg] at hw
    exact h g w hw

end Store

/-! ## Events

What a session reports while it works: a summary when a fact has been found, details of what it
leaves out, and a warning for every fault it meets. -/

inductive Level where
  | trace | debug | warn
deriving DecidableEq, Repr

def Level.name : Level → String
  | .trace => "TRACE"
  | .debug => "DEBUG"
  | .warn => "WARN"

/-- A value reported with an event. -/
inductive Datum where
  | count (n : Nat)
  | text (s : String)
deriving DecidableEq, Repr

/-- Something a session reports. -/
inductive Event where
  | collectedReferences (component : String) (accesses references : Nat)
  /-- A reference that names no interface, by its range. -/
  | referenceWithoutName (range : Range)
  | collectedInterfaces (count : Nat)
  | collectedAliases (count : Nat)
  /-- An alias of a reference that names no interface, by its range. -/
  | aliasWithoutInterface (range : Range)
  | builtAliasMap (count : Nat)
  | collectedDeclarations (count : Nat)
  | computedRename (old new component : String) (edits : Nat)
  | fault (fault : Malformed)
deriving DecidableEq, Repr

namespace Event

def level : Event → Level
  | .referenceWithoutName _ | .aliasWithoutInterface _ => .trace
  | .fault _ => .warn
  | _ => .debug

def message : Event → String
  | .collectedReferences .. => "collected interface references"
  | .referenceWithoutName _ => "reference without interface name"
  | .collectedInterfaces _ => "collected referenced interface identifiers"
  | .collectedAliases _ => "collected interface alias identifiers"
  | .aliasWithoutInterface _ => "alias without interface name"
  | .builtAliasMap _ => "built alias map"
  | .collectedDeclarations _ => "collected command and event names"
  | .computedRename .. => "computed alias rename"
  | .fault _ => "malformed AST node"

/-- The values of an event, by name. -/
def data : Event → List (String × Datum)
  | .collectedReferences c accesses references =>
    [("component", .text c), ("accesses", .count accesses), ("references", .count references)]
  | .referenceWithoutName r | .aliasWithoutInterface r => [("range", .text r.toText)]
  | .collectedInterfaces n | .collectedAliases n | .builtAliasMap n | .collectedDeclarations n =>
    [("count", .count n)]
  | .computedRename old new c edits =>
    [("old", .text old), ("new", .text new), ("component", .text c), ("edits", .count edits)]
  | .fault m =>
    [("kind", .text m.kind.name), ("range", .text m.range.toText), ("field", .text m.field.label)]

end Event

/-! ## The state of a session -/

/-- The state of a session: the facts found, and the events reported, in order. -/
structure Session where
  store : Store := .empty
  log : List Event := []

/-- Work of a session. -/
abbrev Session.Work := StateM Session

/-- Work of a session that a broken file can stop. -/
abbrev Session.Reading := ExceptT Malformed Session.Work

/-- Work of a session that ends in a refusal or a result. -/
abbrev Session.Renaming := ExceptT Refusal Session.Work

namespace Session

/-- Report events. -/
def report (es : List Event) : Work Unit := modify fun σ => { σ with log := σ.log ++ es }

/-- Keep a fact. -/
def keep (f : Fact) (v : f.Value) : Work Unit := modify fun σ => { σ with store := σ.store.put f v }

/-- A fact from the store, or else found now and kept. -/
def once (f : Fact) (find : Work f.Value) : Work f.Value := do
  match (← get).store f with
  | some v => return v
  | none =>
    let v ← find
    keep f v
    return v

/-- A fact from the store, or else found now and kept if it can be found. -/
def tryOnce (f : Fact) (find : Reading f.Value) : Reading f.Value := do
  match (← get).store f with
  | some v => return v
  | none =>
    let v ← find
    keep f v
    return v

/-- Use what was read from the file; a fault is reported and stops the work. -/
def read {α : Type} : Except Malformed α → Reading α
  | .ok a => pure a
  | .error m => do
    report [.fault m]
    throw m

/-- Reading as part of a rename. -/
def reading {α : Type} (x : Reading α) : Renaming α := x.adapt .malformed

/-- Bind a scope. Every fault met is reported, also those passed over. -/
def bind (t : Tree) (b : Binding) : Work (Except BindError Scope) := do
  report ((b.faults t).map .fault)
  match Scope.bind t b with
  | .error (.malformed m) =>
    report [.fault m]
    return .error (.malformed m)
  | bound => return bound

variable (s : Scope)

/-! ## Facts

Each of these is the fact of the scope that its cell of the store is for. The summary is reported
when the fact is found, after the details of what it leaves out. -/

def references : Work (List InterfaceReference) := once .references do
  report [.collectedReferences s.identifier.text s.accesses.length s.references.length]
  return s.references

def interfaces : Work (List Identifier) := once .interfaces do
  let rs ← references s
  let is := rs.filterMap InterfaceReference.interface?
  report ((InterfaceReference.nameless rs).map (.referenceWithoutName ·.range))
  report [.collectedInterfaces is.length]
  return is

def aliases : Work (List Identifier) := once .aliases do
  let as := (← references s).filterMap InterfaceReference.alias?
  report [.collectedAliases as.length]
  return as

def aliasMap : Work AliasMap := once .aliasMap do
  let rs ← references s
  let m := AliasMap.ofReferences rs
  report ((AliasMap.unresolved rs).map (.aliasWithoutInterface ·.nameRange))
  report [.builtAliasMap m.size]
  return m

def declarations : Work (List Identifier) := once .declarations do
  report [.collectedDeclarations s.declarationIdentifiers.length]
  return s.declarationIdentifiers

def interfaceNames : Reading (List String) := tryOnce .interfaceNames do
  return NameSet.ofList (← read (Identifier.names (← interfaces s)))

def localNames : Reading (List String) := tryOnce .localNames do
  read (Identifier.names ((← references s).filterMap InterfaceReference.local?))

/-! ## Lookups

Each of these gives what the lookup of the same name in the scope gives, from the facts in the
store. -/

def name : Reading String := read s.name

def aliasNamed? (n : String) : Reading (Option Identifier) := do
  read (Identifier.firstNamed? n (← aliases s))

def isAliasName (n : String) : Reading Bool := return (← aliasNamed? s n).isSome

def interfaceOf? (a : Identifier) : Work (Option Identifier) := return (← aliasMap s).find? a

/-- The interface renamed by the first alias named `n`. The map is built only if there is one. -/
def interfaceNamed? (n : String) : Reading (Option Identifier) := do
  match ← aliasNamed? s n with
  | none => return none
  | some a => interfaceOf? s a

def interfaceNameOf? (n : String) : Reading (Option String) := do
  match ← interfaceNamed? s n with
  | none => return none
  | some i => return some (← read i.name)

def resolve (n : String) : Reading NameTarget := do
  match ← aliasNamed? s n with
  | some a => return .localName a (← interfaceOf? s a)
  | none =>
    match ← read (Identifier.firstNamed? n (InterfaceReference.unaliased (← references s))) with
    | some i => return .interface i
    | none => return .unknown

/-! ## Renaming -/

/-- The check of a rename. The declarations are collected even if a local interface already has
the new name. -/
def checkRename (r : Request) : Renaming Identifier := do
  ExceptT.mk (pure r.validate)
  let component ← reading (name s)
  match ← reading (aliasNamed? s r.old) with
  | none => throw (.notAnAlias r.old component)
  | some a =>
    let locals ← reading (localNames s)
    let declared ← declarations s
    if locals.contains r.new then
      throw (.nameInUse r.new component)
    match ← reading (read (Identifier.firstNamed? r.new declared)) with
    | some _ => throw (.nameInUse r.new component)
    | none => return a

/-- The edits of a rename. A refused rename reports no edits. -/
def renameEdits (r : Request) (wanted : Bool) : Renaming (List Edit) := do
  let a ← checkRename s r
  let targets ← reading (read (s.usages r wanted))
  let edits := Edit.respell r.new (a :: targets)
  report [.computedRename r.old r.new s.identifier.text edits.length]
  return edits

end Session

end Nesc
