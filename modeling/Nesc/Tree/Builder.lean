import Nesc.Tree.Basic

/-! # Building trees step by step

A tree is built from left to right. Opening a node sets the elements made so far aside; closing it
gathers the elements made since into one. At the end a single element must remain, and it must be a
node. Nodes that were never closed leave no trace but the elements made inside them
(`Builder.elements`), so no text is lost (`Builder.text_elements_step`). -/

namespace Nesc

/-- One instruction to a builder. -/
inductive Step where
  | start (kind : Kind)
  | finish
  | token (kind : Kind) (text : String)
  /-- A word, as a keyword if it is one and else as a name. -/
  | keyword (text : String)
  | whitespace (text : String)
  | space
  /-- An identifier node over one name token. -/
  | identifier (name : String)
deriving DecidableEq, Repr

/-- Why a list of instructions makes no tree. -/
inductive BuildError where
  /-- A node is closed and none is open. -/
  | noOpenNode
  /-- What remains at the end is not one node. -/
  | notOneNode
deriving DecidableEq, Repr

/-- An open node: its kind, and the elements that were made before it and after the node around
it was opened. -/
structure Frame where
  kind : Kind
  before : Forest
deriving Repr

/-- A tree under construction. -/
structure Builder where
  /-- The elements made since the innermost open node was opened. -/
  current : Forest := []
  /-- The open nodes, innermost first. -/
  frames : List Frame := []
deriving Repr

namespace Builder

/-- All elements made so far, as if no node were open. -/
def elements (b : Builder) : Forest := (b.frames.reverse.flatMap Frame.before) ++ b.current

def push (b : Builder) (t : Tree) : Builder := { b with current := b.current ++ [t] }

/-- Carry out one instruction. -/
def step (b : Builder) : Step → Except BuildError Builder
  | .start k => .ok ⟨[], ⟨k, b.current⟩ :: b.frames⟩
  | .finish =>
    match b.frames with
    | [] => .error .noOpenNode
    | f :: fs => .ok ⟨f.before ++ [.node f.kind b.current], fs⟩
  | .token k s => .ok (b.push (.token k s))
  | .keyword s => .ok (b.push (.token ((Kind.ofKeyword? s).getD .ident) s))
  | .whitespace s => .ok (b.push (.blank s))
  | .space => .ok (b.push .space)
  | .identifier n => .ok (b.push (.identifier n))

/-- The tree that has been built. -/
def result (b : Builder) : Except BuildError Tree :=
  match b.elements with
  | [.node k ts] => .ok (.node k ts)
  | _ => .error .notOneNode

end Builder

/-- The tree that a list of instructions builds. -/
def Tree.build (steps : List Step) : Except BuildError Tree := do
  (← steps.foldlM Builder.step {}).result

/-- The text a step adds. -/
def Step.text : Step → String
  | .start _ | .finish => ""
  | .token _ s | .keyword s | .whitespace s | .identifier s => s
  | .space => " "

/-- A step adds its text at the end: opening and closing nodes changes the shape only. -/
theorem Builder.text_elements_step {b b' : Builder} {s : Step} (h : b.step s = .ok b') :
    Forest.text b'.elements = Forest.text b.elements ++ s.text := by
  cases s with
  | finish =>
    cases hf : b.frames with
    | nil => simp [step, hf] at h
    | cons f fs =>
      simp only [step, hf, Except.ok.injEq] at h
      simp [← h, elements, hf, Forest.text, Tree.text, Step.text]
  | _ =>
    simp only [step, Except.ok.injEq] at h
    simp [← h, elements, push, Forest.text, Tree.text, Step.text, Tree.blank, Tree.space,
      Tree.identifier, String.append_assoc]

end Nesc
