import Nesc.Kind

/-! # Lossless trees

A tree keeps every character of the text it stands for: its leaves are tokens, and the text of a
tree is that of its tokens in order (`Tree.text_eq_join_tokens`). Nothing relates kinds to shape, so
trees of broken files are trees as well.

A list of trees side by side is a `Forest`; functions on trees recurse through forests. Widths count
bytes (`Tree.width_eq`). -/

namespace Nesc

/-- A token with its text, or a node over the elements below it. -/
inductive Tree where
  | token (kind : Kind) (text : String)
  | node (kind : Kind) (children : List Tree)
deriving Repr

/-- Trees side by side, such as the children of a node. -/
abbrev Forest := List Tree

namespace Tree

/-- What holds of all tokens, and of a node whenever it holds of its children, holds of all
trees. -/
@[elab_as_elim]
theorem induction {motive : Tree → Prop} (t : Tree)
    (token : ∀ k s, motive (.token k s))
    (node : ∀ k ts, (∀ t ∈ ts, motive t) → motive (.node k ts)) : motive t :=
  @Tree.rec motive (fun ts => ∀ t ∈ ts, motive t) token node
    (fun _ h => absurd h List.not_mem_nil)
    (fun _ _ hd tl t ht => (List.mem_cons.mp ht).elim (fun e => e ▸ hd) (tl t)) t

/-! ## Equality -/

mutual

/-- Whether two trees have the same shape, kinds and texts. -/
def decEq : (a b : Tree) → Decidable (a = b)
  | .token k s, .token k' s' => decidable_of_iff (k = k' ∧ s = s') (by simp)
  | .node k ts, .node k' ts' =>
    have := decEqAll ts ts'
    decidable_of_iff (k = k' ∧ ts = ts') (by simp)
  | .token .., .node .. => .isFalse nofun
  | .node .., .token .. => .isFalse nofun

/-- Whether two forests are equal, tree by tree. -/
def decEqAll : (as bs : List Tree) → Decidable (as = bs)
  | [], [] => .isTrue rfl
  | a :: as, b :: bs =>
    have := decEq a b
    have := decEqAll as bs
    decidable_of_iff (a = b ∧ as = bs) (by simp)
  | [], _ :: _ => .isFalse nofun
  | _ :: _, [] => .isFalse nofun

end

instance : DecidableEq Tree := decEq

/-! ## Parts -/

def kind : Tree → Kind
  | .token k _ => k
  | .node k _ => k

/-- The kind of a node; tokens have none, whatever kind they carry. -/
def nodeKind? : Tree → Option Kind
  | .token .. => none
  | .node k _ => some k

/-- The kind of a token; nodes have none. -/
def tokenKind? : Tree → Option Kind
  | .token k _ => some k
  | .node .. => none

def isNode (t : Tree) : Bool := t.nodeKind?.isSome

def isToken (t : Tree) : Bool := t.tokenKind?.isSome

def children : Tree → Forest
  | .token .. => []
  | .node _ ts => ts

end Tree

/-! ## Text -/

mutual

/-- The text a tree stands for. -/
def Tree.text : Tree → String
  | .token _ s => s
  | .node _ ts => Forest.text ts

/-- The texts of a forest, one after the other. -/
def Forest.text : Forest → String
  | [] => ""
  | t :: ts => t.text ++ Forest.text ts

end

mutual

/-- The number of bytes of a tree's text. -/
def Tree.width : Tree → Nat
  | .token _ s => s.utf8ByteSize
  | .node _ ts => Forest.width ts

/-- The number of bytes of a forest's text. -/
def Forest.width : Forest → Nat
  | [] => 0
  | t :: ts => t.width + Forest.width ts

end

mutual

/-- The texts of the tokens of a tree, in order. -/
def Tree.tokenTexts : Tree → List String
  | .token _ s => [s]
  | .node _ ts => Forest.tokenTexts ts

/-- The texts of the tokens of a forest, in order. -/
def Forest.tokenTexts : Forest → List String
  | [] => []
  | t :: ts => t.tokenTexts ++ Forest.tokenTexts ts

end

namespace Forest

@[simp] theorem text_append (ts us : Forest) : text (ts ++ us) = text ts ++ text us := by
  induction ts with
  | nil => simp [text]
  | cons t ts ih => simp [text, ih, String.append_assoc]

@[simp] theorem width_append (ts us : Forest) : width (ts ++ us) = width ts + width us := by
  induction ts with
  | nil => simp [width]
  | cons t ts ih => simp [width, ih, Nat.add_assoc]

/-- The width of a forest is the byte length of its text, if this is so for its trees. -/
theorem width_eq {ts : Forest} (h : ∀ t ∈ ts, t.width = t.text.utf8ByteSize) :
    width ts = (text ts).utf8ByteSize := by
  induction ts with
  | nil => rfl
  | cons t ts ih =>
    simp only [List.forall_mem_cons] at h
    simp [width, text, h.1, ih h.2]

/-- The text of a forest is that of its tokens, if this is so for its trees. -/
theorem text_eq_join {ts : Forest} (h : ∀ t ∈ ts, t.text = String.join t.tokenTexts) :
    text ts = String.join (tokenTexts ts) := by
  induction ts with
  | nil => rfl
  | cons t ts ih =>
    simp only [List.forall_mem_cons] at h
    simp [text, tokenTexts, h.1, ih h.2]

end Forest

namespace Tree

theorem width_eq (t : Tree) : t.width = t.text.utf8ByteSize := by
  induction t using Tree.induction with
  | token k s => rfl
  | node k ts ih => exact Forest.width_eq ih

theorem text_eq_join_tokens (t : Tree) : t.text = String.join t.tokenTexts := by
  induction t using Tree.induction with
  | token k s => simp [text, tokenTexts]
  | node k ts ih => exact Forest.text_eq_join ih

/-! ## Tokens by spelling -/

/-- The token of a punctuation mark or keyword. -/
def mark (k : Kind) : Tree := .token k k.spelling

def blank (s : String) : Tree := .token .whitespace s

/-- One blank. -/
def space : Tree := blank " "

/-- An identifier node over its one token. -/
def identifier (name : String) : Tree := .node .identifier [.token .ident name]

end Tree

end Nesc
