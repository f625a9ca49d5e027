import Mathlib.Data.List.Forall2
import Nesc.Proofs.Node.Names
import Nesc.Proofs.Tree.Places
import Nesc.Tree.Cursor

/-!
# Two trees of one shape

A tree and its respelling have the same paths and the same kinds along them; only texts, and with
them offsets, differ. A cursor of the one mirrors a cursor of the other if both stand at the same
path. Whatever is found from a cursor by kinds and order alone is then found from its mirror image at
the same path: children, elements, and every part of a node (`Node.Mirrors.child?` and its like).
-/

namespace Nesc

/-! ## Searching related lists -/

section Lists

variable {α β γ δ : Type} {R : α → β → Prop} {S : γ → δ → Prop} {xs : List α} {ys : List β}

/-- Searches through related lists find related things. -/
theorem forall₂_findSome? {f : α → Option γ} {g : β → Option δ} (h : List.Forall₂ R xs ys)
    (hfg : ∀ a b, R a b → Option.Rel S (f a) (g b)) :
    Option.Rel S (xs.findSome? f) (ys.findSome? g) := by
  induction h with
  | nil => exact .none
  | cons hab _ ih =>
    have hrel := hfg _ _ hab
    rw [List.findSome?_cons, List.findSome?_cons]
    generalize f _ = u, g _ = v at hrel
    cases hrel with
    | some hs => exact .some hs
    | none => exact ih

theorem forall₂_find? {p : α → Bool} {q : β → Bool} (h : List.Forall₂ R xs ys)
    (hpq : ∀ a ∈ xs, ∀ b, R a b → p a = q b) : Option.Rel R (xs.find? p) (ys.find? q) := by
  induction h with
  | nil => exact .none
  | cons hab _ ih =>
    obtain ⟨hhead, htail⟩ := List.forall_mem_cons.mp hpq
    rw [List.find?_cons, List.find?_cons, ← hhead _ hab]
    cases p _ with
    | true => exact .some hab
    | false => exact ih htail

theorem forall₂_dropWhile {p : α → Bool} {q : β → Bool} (h : List.Forall₂ R xs ys)
    (hpq : ∀ a b, R a b → p a = q b) : List.Forall₂ R (xs.dropWhile p) (ys.dropWhile q) := by
  induction h with
  | nil => exact .nil
  | cons hab hrest ih =>
    rw [List.dropWhile_cons, List.dropWhile_cons, ← hpq _ _ hab]
    split
    · exact ih
    · exact .cons hab hrest

theorem forall₂_getElem? (h : List.Forall₂ R xs ys) (i : Nat) : Option.Rel R xs[i]? ys[i]? := by
  induction h generalizing i with
  | nil => exact .none
  | cons hab _ ih =>
    cases i with
    | zero => exact .some hab
    | succ i => exact ih i

theorem forall₂_exists_right (h : List.Forall₂ R xs ys) {a : α} (ha : a ∈ xs) :
    ∃ b ∈ ys, R a b := by
  induction h with
  | nil => exact absurd ha List.not_mem_nil
  | cons hab _ ih =>
    rcases List.mem_cons.mp ha with rfl | ha
    · exact ⟨_, List.mem_cons_self, hab⟩
    · obtain ⟨b, hb, hr⟩ := ih ha
      exact ⟨b, List.mem_cons_of_mem _ hb, hr⟩

theorem forall₂_exists_left (h : List.Forall₂ R xs ys) {b : β} (hb : b ∈ ys) :
    ∃ a ∈ xs, R a b :=
  forall₂_exists_right h.flip hb

end Lists

/-! ## Cursors -/

namespace Cursor

/-- The second cursor stands in the respelled tree where the first stands in the tree. -/
structure Mirrors (chosen : List Nat → Bool) (new : String) (c c' : Cursor) : Prop where
  path_eq : c'.path = c.path
  tree_eq : c'.tree = c.tree.respellAt chosen new c.path

variable {chosen : List Nat → Bool} {new : String} {c c' : Cursor}

theorem mirrors_root (chosen : List Nat → Bool) (new : String) (t : Tree) :
    Mirrors chosen new (root t) (root (t.respell chosen new)) :=
  ⟨rfl, rfl⟩

/-- Rows of a forest and its respelling mirror each other, whatever their offsets. -/
theorem mirrors_row (path : List Nat) (i start start' : Nat) (ts : Forest) :
    List.Forall₂ (Mirrors chosen new) (row path i start ts)
      (row path i start' (Forest.respellAt chosen new path i ts)) := by
  induction ts generalizing i start start' with
  | nil => exact .nil
  | cons t ts ih => exact .cons ⟨rfl, rfl⟩ (ih ..)

namespace Mirrors

theorem nodeKind?_eq (h : Mirrors chosen new c c') : c'.tree.nodeKind? = c.tree.nodeKind? := by
  rw [h.tree_eq, Tree.nodeKind?_respellAt]

theorem tokenKind?_eq (h : Mirrors chosen new c c') : c'.tree.tokenKind? = c.tree.tokenKind? := by
  rw [h.tree_eq]
  cases c.tree <;> rfl

theorem children (h : Mirrors chosen new c c') :
    List.Forall₂ (Mirrors chosen new) c.children c'.children := by
  unfold Cursor.children
  rw [h.path_eq, h.tree_eq]
  cases c.tree with
  | token k s => exact .nil
  | node k ts => exact mirrors_row ..

/-- The elements of a tree and its respelling correspond in document order. -/
theorem elements (h : Mirrors chosen new c c') :
    List.Forall₂ (Mirrors chosen new) c.elements c'.elements := by
  obtain ⟨path, start, t⟩ := c
  induction t using Tree.induction generalizing path start c' with
  | token k s =>
    have hnil : c'.children = [] := List.forall₂_nil_left_iff.mp h.children
    rw [elements_eq, elements_eq c', Cursor.below, Cursor.below, hnil]
    exact .cons h .nil
  | node k ts ih =>
    rw [elements_eq, elements_eq]
    refine .cons h ?_
    have hmem : ∀ d ∈ Cursor.children ⟨path, start, .node k ts⟩, d.tree ∈ ts :=
      fun d hd => tree_mem_of_mem_children hd
    have hchildren := (List.forall₂_and_left _ _).mpr ⟨hmem, h.children⟩
    exact List.rel_flatMap hchildren fun d d' hd => ih d.tree hd.1 d.path d.start hd.2

theorem below (h : Mirrors chosen new c c') :
    List.Forall₂ (Mirrors chosen new) c.below c'.below :=
  List.rel_flatMap h.children fun _ _ hd => hd.elements

/-- A path leads to mirrored elements, or nowhere on both sides. -/
theorem at? (h : Mirrors chosen new c c') (p : List Nat) :
    Option.Rel (Mirrors chosen new) (c.at? p) (c'.at? p) := by
  induction p generalizing c c' with
  | nil => exact .some h
  | cons i p ih =>
    have hrel := forall₂_getElem? h.children i
    rw [Cursor.at?, Cursor.at?]
    generalize c.children[i]? = u, c'.children[i]? = v at hrel
    cases hrel with
    | none => exact .none
    | some hd => exact ih hd

end Mirrors

end Cursor

/-! ## Nodes and their parts -/

namespace Node

/-- The second node stands in the respelled tree where the first stands in the tree. -/
def Mirrors (chosen : List Nat → Bool) (new : String) {k : Kind} (n n' : Node k) : Prop :=
  Cursor.Mirrors chosen new n.cursor n'.cursor

end Node

variable {chosen : List Nat → Bool} {new : String}

namespace Cursor.Mirrors

variable {c c' : Cursor}

theorem as? (h : Mirrors chosen new c c') (k : Kind) :
    Option.Rel (Node.Mirrors chosen new) (c.as? k) (c'.as? k) := by
  unfold Cursor.as?
  by_cases hk : c.tree.nodeKind? = some k
  · rw [dif_pos hk, dif_pos (h.nodeKind?_eq.trans hk)]
    exact .some h
  · rw [dif_neg hk, dif_neg fun hk' => hk (h.nodeKind?_eq.symm.trans hk')]
    exact .none

theorem child? (h : Mirrors chosen new c c') (k : Kind) :
    Option.Rel (Node.Mirrors chosen new) (c.child? k) (c'.child? k) :=
  forall₂_findSome? h.children fun _ _ hd => hd.as? k

theorem descendants (h : Mirrors chosen new c c') (k : Kind) :
    List.Forall₂ (Node.Mirrors chosen new) (c.descendants k) (c'.descendants k) :=
  List.rel_filterMap (fun _ _ hd => hd.as? k) h.below

/-- Behind a keyword the same child is found: respelling changes no kind of token. -/
theorem childAfter? (h : Mirrors chosen new c c') (w k : Kind) :
    Option.Rel (Node.Mirrors chosen new) (c.childAfter? w k) (c'.childAfter? w k) := by
  refine forall₂_findSome? (forall₂_dropWhile h.children fun d d' hd => ?_) fun _ _ hd => hd.as? k
  rw [hd.tokenKind?_eq]

theorem token? (h : Mirrors chosen new c c') (k : Kind) :
    Option.Rel (Mirrors chosen new) (c.token? k) (c'.token? k) := by
  refine forall₂_find? h.children fun d _ d' hd => ?_
  rw [hd.tokenKind?_eq]

end Cursor.Mirrors

namespace Node.Mirrors

variable {k : Kind} {n n' : Node k}

theorem child? (h : n.Mirrors chosen new n') (j : Kind) :
    Option.Rel (Node.Mirrors chosen new) (n.child? j) (n'.child? j) :=
  Cursor.Mirrors.child? h j

theorem descendants (h : n.Mirrors chosen new n') (j : Kind) :
    List.Forall₂ (Node.Mirrors chosen new) (n.descendants j) (n'.descendants j) :=
  Cursor.Mirrors.descendants h j

end Node.Mirrors

/-- The mirror image of an identifier is spelled as the identifier, unless its name token is
chosen. -/
theorem Identifier.spelling?_mirror {i i' : Identifier} (h : i.Mirrors chosen new i') :
    spelling? i' = (token? i).map fun d => if chosen d.path then new else d.text := by
  have hrel : Option.Rel (Cursor.Mirrors chosen new) (token? i) (token? i') :=
    Cursor.Mirrors.token? h .ident
  cases hd : token? i with
  | none =>
    rw [hd] at hrel
    cases hd' : token? i' with
    | none => rw [spelling?, name, hd']; rfl
    | some d' => rw [hd'] at hrel; cases hrel
  | some d =>
    rw [hd] at hrel
    cases hd' : token? i' with
    | none => rw [hd'] at hrel; cases hrel
    | some d' =>
      rw [hd'] at hrel
      cases hrel with
      | some hm =>
        refine spelling?_eq_some_iff.mpr ⟨d', hd', ?_⟩
        rw [Cursor.text, hm.tree_eq, (token?_eq_some hd).2]
        rfl

end Nesc
