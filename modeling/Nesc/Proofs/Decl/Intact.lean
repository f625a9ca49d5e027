import Nesc.Decl.Render
import Nesc.Proofs.Node.Broken

/-!
# Layouts have no broken identifiers

Every name of a description, also an empty one, is laid out as an identifier over a name token. So
the layout of any file is intact (`Decl.File.intact_tree`), and nothing that reads its names fails.
-/

namespace Nesc

open Nesc.Tree (mark blank space identifier)

/-! ## Intact pieces -/

namespace Tree

@[simp] theorem isIntact_token (k : Kind) (s : String) : (Tree.token k s).isIntact = true := rfl

@[simp] theorem isIntact_identifier (n : String) : (identifier n).isIntact = true := rfl

@[simp] theorem isIntact_node {k : Kind} (h : k ≠ .identifier) (ts : Forest) :
    (Tree.node k ts).isIntact = Forest.isIntact ts := by
  simp [isIntact, h]

end Tree

namespace Forest

@[simp] theorem isIntact_nil : isIntact [] = true := rfl

@[simp] theorem isIntact_cons (t : Tree) (ts : Forest) :
    isIntact (t :: ts) = (t.isIntact && isIntact ts) := rfl

@[simp] theorem isIntact_append (ts us : Forest) :
    isIntact (ts ++ us) = (isIntact ts && isIntact us) := by
  induction ts with
  | nil => rfl
  | cons t ts ih => simp [ih, Bool.and_assoc]

@[simp] theorem isIntact_flatMap {α : Type} (f : α → Forest) (xs : List α) :
    isIntact (xs.flatMap f) = xs.all fun x => isIntact (f x) := by
  induction xs with
  | nil => rfl
  | cons x xs ih => simp [ih]

@[simp] theorem isIntact_map {α : Type} (f : α → Tree) (xs : List α) :
    isIntact (xs.map f) = xs.all fun x => (f x).isIntact := by
  induction xs with
  | nil => rfl
  | cons x xs ih => simp [ih]

/-- Separators that are intact leave the question to the trees between them. -/
theorem isIntact_separated {separator : Forest} (h : isIntact separator = true) (ts : List Tree) :
    isIntact (Decl.separated separator ts) = isIntact ts := by
  cases ts with
  | nil => rfl
  | cons t ts =>
    have hrest : isIntact ts = ts.all Tree.isIntact := by
      simpa using isIntact_map id ts
    simp [Decl.separated, h, hrest]

end Forest

namespace Decl

/-! ## Layouts -/

theorem Entry.isIntact_argumentPart (args : List String) :
    Forest.isIntact (argumentPart args) = true := by
  unfold argumentPart
  split
  · rfl
  · simp [mark, Forest.isIntact_separated, commaSpace, space, blank]

theorem Entry.isIntact_parameterPart (ps : List Param) :
    Forest.isIntact (parameterPart ps) = true := by
  unfold parameterPart
  split
  · rfl
  · simp [mark, Forest.isIntact_separated, commaSpace, space, blank]

/-- The identifiers of a reference are those of its interface, its arguments and its alias, and each
is laid out over a name token. -/
theorem Entry.isIntact_reference (e : Entry) : e.reference.isIntact = true := by
  have htype : Forest.isIntact e.typePart = true := by
    unfold typePart
    split <;> simp [isIntact_argumentPart]
  have halias : Forest.isIntact e.aliasPart = true := by
    unfold aliasPart
    split
    · rfl
    · split <;> simp [mark, space, blank]
  simp [reference, htype, halias]

theorem Entry.isIntact_tree (e : Entry) : e.tree.isIntact = true := by
  simp [tree, mark, space, blank, isIntact_reference, isIntact_parameterPart]

theorem Clause.isIntact_tree (c : Clause) : c.tree.isIntact = true := by
  have hitems : Forest.isIntact c.items.trees = true := by
    unfold Items.trees
    split <;>
      simp [mark, space, blank, Entry.isIntact_tree, Forest.isIntact_separated, Bare.tree]
  simp [tree, mark, space, blank, hitems]

theorem isIntact_block (ts : List Tree) : Forest.isIntact (block ts) = ts.all Tree.isIntact := by
  simp [block, mark, blank]

theorem Component.isIntact_tree (c : Component) : c.tree.isIntact = true := by
  have hheader : Forest.isIntact c.header = true := by
    unfold header
    split <;> simp [mark, space, blank]
  simp [tree, hheader, specification, implementation, isIntact_block, Clause.isIntact_tree,
    Statement.tree, mark, space, blank]

/-- No layout has a broken identifier, whatever the names are, also if they are empty. -/
theorem File.intact_tree (f : File) : (File.tree f).Intact := by
  rw [← Tree.isIntact_iff]
  simp [File.tree, Forest.isIntact_separated, Component.isIntact_tree, blank]

end Decl

end Nesc
