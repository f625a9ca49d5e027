import Nesc.Text
import Nesc.Tree.Basic

/-! # Elements at their place

The same subtree can occur at many places. A cursor is an element of a tree together with its place:
the child indices that lead to it, counting tokens and nodes alike, and the byte offset where its
text starts. Walking a tree in document order lists the cursor of every element
(`Cursor.elements_eq`), and the path of a listed cursor leads back to it (`Cursor.at?_path`). Two
cursors can be the same stored node although their places differ (`Cursor.Same`). Nodes are addressed
by path or by kind (`Selector`), and tokens are respelled by path (`Tree.respell`). -/

namespace Nesc

/-- An element of a tree, with the path that leads to it and the offset where its text starts. -/
structure Cursor where
  path : List Nat
  start : Nat
  tree : Tree
deriving DecidableEq, Repr

namespace Cursor

/-- A whole tree, at the start of its own text. -/
def root (t : Tree) : Cursor := ⟨[], 0, t⟩

def kind (c : Cursor) : Kind := c.tree.kind

def text (c : Cursor) : String := c.tree.text

/-- The bytes an element covers. -/
def range (c : Cursor) : Range := .ofWidth c.start c.tree.width

/-- The number of nodes an element lies below. -/
def depth (c : Cursor) : Nat := c.path.length

/-! ## Children -/

/-- The elements of a forest below `path`: the first one has index `i` and starts at `start`. -/
def row (path : List Nat) (i start : Nat) : Forest → List Cursor
  | [] => []
  | t :: ts => ⟨path ++ [i], start, t⟩ :: row path (i + 1) (start + t.width) ts

/-- The elements right below a node, in order; tokens have none. -/
def children (c : Cursor) : List Cursor := row c.path 0 c.start c.tree.children

/-- The element reached from `c` by child indices. -/
def at? (c : Cursor) : List Nat → Option Cursor
  | [] => some c
  | i :: is => c.children[i]?.bind (·.at? is)

/-- The node right above `c` in the tree of `root`. -/
def parent? (root c : Cursor) : Option Cursor :=
  if c.path = [] then none else root.at? c.path.dropLast

end Cursor

/-! ## Document order -/

mutual

/-- The elements of a tree that stands at `path` and `start`, itself first. -/
def Tree.elementsAt (path : List Nat) (start : Nat) : Tree → List Cursor
  | .token k s => [⟨path, start, .token k s⟩]
  | .node k ts => ⟨path, start, .node k ts⟩ :: Forest.elementsAt path 0 start ts

/-- The elements of a forest below `path`, tree by tree. -/
def Forest.elementsAt (path : List Nat) (i start : Nat) : Forest → List Cursor
  | [] => []
  | t :: ts =>
    t.elementsAt (path ++ [i]) start ++ Forest.elementsAt path (i + 1) (start + t.width) ts

end

namespace Cursor

/-- The element itself and everything below it, in document order. -/
def elements (c : Cursor) : List Cursor := c.tree.elementsAt c.path c.start

/-- Everything below an element, in document order. -/
def below (c : Cursor) : List Cursor := c.children.flatMap elements

theorem forest_elementsAt (path : List Nat) (i start : Nat) (ts : Forest) :
    Forest.elementsAt path i start ts = (row path i start ts).flatMap elements := by
  induction ts generalizing i start with
  | nil => rfl
  | cons t ts ih => simp [Forest.elementsAt, row, elements, ih]

theorem elements_eq (c : Cursor) : c.elements = c :: c.below := by
  obtain ⟨path, start, t⟩ := c
  cases t with
  | token k s => rfl
  | node k ts =>
    simp [elements, Tree.elementsAt, below, children, Tree.children, forest_elementsAt]

theorem self_mem_elements (c : Cursor) : c ∈ c.elements := by
  simp [elements_eq]

/-! ## Places in a row -/

theorem getElem?_row {path : List Nat} {i start n : Nat} {ts : Forest} {d : Cursor}
    (h : (row path i start ts)[n]? = some d) : d.path = path ++ [i + n] := by
  induction ts generalizing i start n with
  | nil => simp [row] at h
  | cons t ts ih =>
    cases n with
    | zero => simp [row] at h; simp [← h]
    | succ n =>
      simp only [row, List.getElem?_cons_succ] at h
      rw [ih h, show i + 1 + n = i + (n + 1) by omega]

theorem path_getElem?_children {c d : Cursor} {n : Nat} (h : c.children[n]? = some d) :
    d.path = c.path ++ [n] := by
  simpa using getElem?_row h

/-- The path of a child extends that of its parent by its index. -/
theorem exists_index_of_mem_children {c d : Cursor} (h : d ∈ c.children) :
    ∃ n, c.children[n]? = some d ∧ d.path = c.path ++ [n] := by
  obtain ⟨n, hn⟩ := List.mem_iff_getElem?.mp h
  exact ⟨n, hn, path_getElem?_children hn⟩

theorem tree_mem_of_mem_row {path : List Nat} {i start : Nat} {ts : Forest} {d : Cursor}
    (h : d ∈ row path i start ts) : d.tree ∈ ts := by
  induction ts generalizing i start with
  | nil => simp [row] at h
  | cons t ts ih =>
    rcases List.mem_cons.mp h with rfl | h
    · simp
    · exact List.mem_cons_of_mem t (ih h)

theorem tree_mem_of_mem_children {c d : Cursor} (h : d ∈ c.children) : d.tree ∈ c.tree.children :=
  tree_mem_of_mem_row h

/-! ## Paths lead to elements -/

theorem at?_append (c : Cursor) (p q : List Nat) : c.at? (p ++ q) = (c.at? p).bind (·.at? q) := by
  induction p generalizing c with
  | nil => rfl
  | cons i p ih =>
    simp only [List.cons_append, at?]
    cases c.children[i]? with
    | none => rfl
    | some d => simp [ih]

theorem path_of_at? {c d : Cursor} {p : List Nat} (h : c.at? p = some d) :
    d.path = c.path ++ p := by
  induction p generalizing c with
  | nil => simp only [at?, Option.some.injEq] at h; simp [h]
  | cons i p ih =>
    simp only [at?, Option.bind_eq_some_iff] at h
    obtain ⟨e, he, hd⟩ := h
    rw [ih hd, path_getElem?_children he]
    simp

/-- What a path leads to is listed. -/
theorem mem_elements_of_at? {c d : Cursor} {p : List Nat} (h : c.at? p = some d) :
    d ∈ c.elements := by
  induction p generalizing c with
  | nil =>
    simp only [at?, Option.some.injEq] at h
    exact h ▸ self_mem_elements c
  | cons i p ih =>
    simp only [at?, Option.bind_eq_some_iff] at h
    obtain ⟨e, he, hd⟩ := h
    rw [elements_eq]
    exact List.mem_cons_of_mem c
      (List.mem_flatMap.mpr ⟨e, List.mem_of_getElem? he, ih hd⟩)

/-- What is listed is reached by a path. -/
theorem exists_at?_of_mem_elements {c d : Cursor} (h : d ∈ c.elements) : ∃ p, c.at? p = some d := by
  obtain ⟨path, start, t⟩ := c
  induction t using Tree.induction generalizing path start with
  | token k s =>
    simp only [elements, Tree.elementsAt, List.mem_singleton] at h
    exact ⟨[], by simp [at?, h]⟩
  | node k ts ih =>
    rw [elements_eq] at h
    rcases List.mem_cons.mp h with rfl | h
    · exact ⟨[], rfl⟩
    · obtain ⟨e, he, hd⟩ := List.mem_flatMap.mp h
      obtain ⟨n, hn, -⟩ := exists_index_of_mem_children he
      obtain ⟨p, hp⟩ := ih e.tree (tree_mem_of_mem_children he) e.path e.start hd
      exact ⟨n :: p, by simp [at?, hn, hp]⟩

/-- The path of an element of a whole tree leads to it. -/
theorem at?_path {t : Tree} {d : Cursor} (h : d ∈ (root t).elements) :
    (root t).at? d.path = some d := by
  obtain ⟨p, hp⟩ := exists_at?_of_mem_elements h
  rw [path_of_at? hp]
  exact hp

/-- Elements of an element are elements. -/
theorem mem_elements_trans {c d e : Cursor} (hd : d ∈ c.elements) (he : e ∈ d.elements) :
    e ∈ c.elements := by
  obtain ⟨p, hp⟩ := exists_at?_of_mem_elements hd
  obtain ⟨q, hq⟩ := exists_at?_of_mem_elements he
  exact mem_elements_of_at? (p := p ++ q) (by simp [at?_append, hp, hq])

theorem mem_elements_of_mem_children {c d e : Cursor} (hd : d ∈ c.elements)
    (he : e ∈ d.children) : e ∈ c.elements := by
  refine mem_elements_trans hd ?_
  rw [elements_eq]
  exact List.mem_cons_of_mem d (List.mem_flatMap.mpr ⟨e, he, self_mem_elements e⟩)

end Cursor

/-! ## Addressing nodes

A node of a tree is addressed by the child indices that lead to it, or as the n-th node of a kind in
document order. What is found is always a node of the tree (`Selector.mem_elements_of_find?`). -/

/-- The address of a node. -/
inductive Selector where
  | path (indices : List Nat)
  /-- Nodes of one kind are counted from zero, in document order. -/
  | nth (kind : Kind) (n : Nat)
deriving DecidableEq, Repr

/-- All nodes of a tree, in document order. -/
def Cursor.nodes (c : Cursor) : List Cursor := c.elements.filter (·.tree.isNode)

/-- The node at an address below `root`. -/
def Selector.find? (root : Cursor) : Selector → Option Cursor
  | .path p => (root.at? p).filter (·.tree.isNode)
  | .nth k n => (root.elements.filter (·.tree.nodeKind? = some k))[n]?

theorem Selector.mem_elements_of_find? {root c : Cursor} {s : Selector}
    (h : s.find? root = some c) : c ∈ root.elements := by
  cases s with
  | path p =>
    simp only [find?, Option.filter_eq_some_iff] at h
    exact Cursor.mem_elements_of_at? h.1
  | nth k n =>
    simp only [find?] at h
    exact (List.mem_filter.mp (List.mem_of_getElem? h)).1

/-! ## Respelling tokens

A tree with other texts at some of its tokens. Shape and kinds stay as they are; the tokens to
change are chosen by their paths. This is what a rename does to a tree, said without offsets. -/

mutual

/-- The tree at `path` with the text `new` at its chosen tokens. -/
def Tree.respellAt (chosen : List Nat → Bool) (new : String) (path : List Nat) : Tree → Tree
  | .token k s => .token k (if chosen path then new else s)
  | .node k ts => .node k (Forest.respellAt chosen new path 0 ts)

/-- The forest below `path`, from index `i` on, with the text `new` at its chosen tokens. -/
def Forest.respellAt (chosen : List Nat → Bool) (new : String) (path : List Nat) (i : Nat) :
    Forest → Forest
  | [] => []
  | t :: ts =>
    t.respellAt chosen new (path ++ [i]) :: Forest.respellAt chosen new path (i + 1) ts

end

/-- The tree with the text `new` at the tokens whose paths are chosen. -/
def Tree.respell (chosen : List Nat → Bool) (new : String) (t : Tree) : Tree :=
  t.respellAt chosen new []

/-- Respelling changes no kind and turns no token into a node. -/
theorem Tree.nodeKind?_respellAt (chosen : List Nat → Bool) (new : String) (path : List Nat)
    (t : Tree) : (t.respellAt chosen new path).nodeKind? = t.nodeKind? := by
  cases t <;> rfl

/-! ## Identity of nodes

Small nodes are stored once: a node of at most three children, all of them compact, shares its
storage with every equal node. Two cursors are the same when they stand on the same stored node at
the same offset. For a node with text this comes down to the same place; two empty nodes at one
offset can be the same although their paths differ. -/

mutual

/-- Whether a node above may still be stored once. A node without children that is of the kind of
blanks does not allow it. -/
def Tree.isCompact : Tree → Bool
  | .token .. => true
  | .node k ts =>
    ts.length ≤ 3 && Forest.isCompact ts && !(k == .whitespace && ts.isEmpty)

/-- Whether all trees of a forest are compact. -/
def Forest.isCompact : Forest → Bool
  | [] => true
  | t :: ts => t.isCompact && Forest.isCompact ts

end

/-- Whether equal copies of a tree share their storage. -/
def Tree.isStoredOnce : Tree → Bool
  | .token .. => true
  | .node _ ts => ts.length ≤ 3 && Forest.isCompact ts

namespace Cursor

/-- Two cursors on one stored element at one offset. -/
def Same (a b : Cursor) : Prop :=
  a = b ∨ a.start = b.start ∧ a.tree = b.tree ∧ a.tree.isStoredOnce = true

instance (a b : Cursor) : Decidable (Same a b) := inferInstanceAs (Decidable (_ ∨ _))

namespace Same

theorem refl (a : Cursor) : Same a a := .inl rfl

theorem symm {a b : Cursor} (h : Same a b) : Same b a :=
  h.elim (fun e => .inl e.symm) fun ⟨hs, ht, h1⟩ => .inr ⟨hs.symm, ht.symm, ht ▸ h1⟩

/-- Being the same stored element passes on: equal trees are stored once together. -/
theorem trans {a b c : Cursor} (hab : Same a b) (hbc : Same b c) : Same a c := by
  rcases hab with rfl | ⟨hs, ht, h1⟩
  · exact hbc
  · rcases hbc with rfl | ⟨hs', ht', -⟩
    · exact .inr ⟨hs, ht, h1⟩
    · exact .inr ⟨hs.trans hs', ht.trans ht', h1⟩

theorem start {a b : Cursor} (h : Same a b) : a.start = b.start :=
  h.elim (fun e => e ▸ rfl) (·.1)

theorem tree {a b : Cursor} (h : Same a b) : a.tree = b.tree :=
  h.elim (fun e => e ▸ rfl) (·.2.1)

end Same

end Cursor

end Nesc
