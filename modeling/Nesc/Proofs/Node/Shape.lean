import Mathlib.Data.List.Forall2
import Nesc.Node.Parts

/-!
# What depends on the tree alone

Most of what is read off a node does not depend on where the node stands. The trees of the children
of a kind are found in the forest below the node (`Node.map_tree_childrenOf`), and so are the choices
that its keywords say (`Cursor.choice?_eq`). If the trees of a list of nodes are known, then reading
the nodes one by one is reading their trees (`Node.mapM_of_trees`, `Node.flatMap_of_trees`).
-/

namespace Nesc

/-- The trees of a forest that are nodes of kind `k`. -/
def Forest.ofKind (k : Kind) (ts : Forest) : List Tree := ts.filter (·.nodeKind? = some k)

namespace Forest

@[simp] theorem ofKind_append (k : Kind) (ts us : Forest) :
    ofKind k (ts ++ us) = ofKind k ts ++ ofKind k us :=
  List.filter_append ..

theorem ofKind_flatMap {α : Type} (k : Kind) (f : α → Forest) (xs : List α) :
    ofKind k (xs.flatMap f) = xs.flatMap fun x => ofKind k (f x) :=
  List.filter_flatMap ..

theorem ofKind_map {α : Type} {k : Kind} {f : α → Tree} (h : ∀ x, (f x).nodeKind? = some k)
    (xs : List α) : ofKind k (xs.map f) = xs.map f := by
  apply List.filter_eq_self.mpr
  intro t ht
  obtain ⟨x, -, rfl⟩ := List.mem_map.mp ht
  exact decide_eq_true (h x)

end Forest

namespace Cursor

/-- A row holds the trees of its forest, in order; places play no part. -/
theorem map_tree_row (path : List Nat) (i start : Nat) (ts : Forest) :
    (row path i start ts).map Cursor.tree = ts := by
  induction ts generalizing i start with
  | nil => rfl
  | cons t ts ih => rw [row, List.map_cons, ih]

theorem map_tree_children (c : Cursor) : c.children.map Cursor.tree = c.tree.children :=
  map_tree_row ..

/-- The trees of the nodes of a kind are those of the trees that are of the kind. -/
theorem map_tree_filterMap_as? (k : Kind) (cs : List Cursor) :
    (cs.filterMap (as? k)).map Node.tree = Forest.ofKind k (cs.map Cursor.tree) := by
  induction cs with
  | nil => rfl
  | cons c cs ih =>
    unfold Forest.ofKind at *
    by_cases h : c.tree.nodeKind? = some k
    · rw [List.filterMap_cons_some ((as?_eq_some_iff (n := ⟨c, h⟩)).mpr rfl), List.map_cons, ih,
        List.map_cons, List.filter_cons_of_pos (by simpa using h)]
      rfl
    · rw [List.filterMap_cons_none (dif_neg h), ih, List.map_cons,
        List.filter_cons_of_neg (by simpa using h)]

/-- The choice of a node depends on its tree alone. -/
theorem choice?_eq {α : Type} (f : Kind → Option α) (c : Cursor) :
    c.choice? f = c.tree.children.findSome? fun t => t.tokenKind?.bind f := by
  rw [choice?, tokens, ← map_tree_children, List.findSome?_map]
  induction c.children with
  | nil => rfl
  | cons d ds ih =>
    obtain ⟨path, start, t⟩ := d
    cases t with
    | token k s =>
      rw [List.filter_cons_of_pos rfl, List.findSome?_cons, List.findSome?_cons, ih]
      rfl
    | node k ts =>
      rw [List.filter_cons_of_neg Bool.false_ne_true, List.findSome?_cons, ih]
      rfl

theorem isSome_token? (k : Kind) (c : Cursor) :
    (c.token? k).isSome = c.tree.children.any (·.tokenKind? = some k) := by
  rw [token?, List.isSome_find?, ← map_tree_children, List.any_map]
  rfl

end Cursor

namespace Node

variable {k : Kind} {α β γ : Type} {ns : List (Node k)} {xs : List α} {f : α → Tree}

theorem map_tree_childrenOf {j : Kind} (n : Node j) :
    (n.childrenOf k).map tree = Forest.ofKind k n.tree.children := by
  rw [childrenOf, Cursor.childrenOf, Cursor.map_tree_filterMap_as?, Cursor.map_tree_children]
  rfl

theorem map_tree_child? {j : Kind} (n : Node j) :
    (n.child? k).map tree = (Forest.ofKind k n.tree.children).head? := by
  rw [← map_tree_childrenOf, List.head?_map, childrenOf, Cursor.childrenOf, List.head?_filterMap]
  rfl

theorem exists_child? {j : Kind} {n : Node j} {t : Tree}
    (h : (Forest.ofKind k n.tree.children).head? = some t) :
    ∃ m : Node k, n.child? k = some m ∧ m.tree = t := by
  rw [← map_tree_child?] at h
  exact Option.map_eq_some_iff.mp h

theorem forall₂_of_trees (h : ns.map tree = xs.map f) :
    List.Forall₂ (fun n x => n.tree = f x) ns xs := by
  rwa [← List.forall₂_eq_eq_eq, List.forall₂_map_left_iff, List.forall₂_map_right_iff] at h

/-- Reading nodes laid out from a list reads the list, if each node gives the value of its item. -/
theorem mapM_of_trees (h : ns.map tree = xs.map f) {read : Node k → Option β} {value : α → β}
    (hread : ∀ n x, n.tree = f x → read n = some (value x)) :
    ns.mapM read = some (xs.map value) := by
  have hall := forall₂_of_trees h
  clear h
  induction hall with
  | nil => rfl
  | cons hx _ ih =>
    rw [List.mapM_cons, hread _ _ hx, ih]
    rfl

/-- The same where the nodes read as what their trees were made from. -/
theorem mapM_eq_of_trees (h : ns.map tree = xs.map f) {read : Node k → Option α}
    (hread : ∀ n x, n.tree = f x → read n = some x) : ns.mapM read = some xs := by
  rw [mapM_of_trees h hread, List.map_id']

/-- Parts collected from nodes laid out from a list, in the order of the list. -/
theorem flatMap_of_trees (h : ns.map tree = xs.map f) {read : Node k → List β} {view : β → γ}
    {value : α → List γ} (hread : ∀ n x, n.tree = f x → (read n).map view = value x) :
    (ns.flatMap read).map view = xs.flatMap value := by
  have hall := forall₂_of_trees h
  clear h
  induction hall with
  | nil => rfl
  | cons hx _ ih => rw [List.flatMap_cons, List.map_append, hread _ _ hx, ih, List.flatMap_cons]

/-- At most one part from each node laid out from a list, in the order of the list. -/
theorem filterMap_of_trees (h : ns.map tree = xs.map f) {read : Node k → Option β} {view : β → γ}
    {value : α → Option γ} (hread : ∀ n x, n.tree = f x → (read n).map view = value x) :
    (ns.filterMap read).map view = xs.filterMap value := by
  rw [List.filterMap_eq_flatMap_toList, List.filterMap_eq_flatMap_toList]
  apply flatMap_of_trees h
  intro n x hx
  rw [← Option.toList_map, hread n x hx]

/-- The same where each reading finds something. -/
theorem filterMap_eq_map_of_trees (h : ns.map tree = xs.map f) {read : Node k → Option β}
    {view : β → γ} {value : α → γ}
    (hread : ∀ n x, n.tree = f x → (read n).map view = some (value x)) :
    (ns.filterMap read).map view = xs.map value := by
  rw [filterMap_of_trees h hread]
  exact congrFun List.filterMap_eq_map xs

/-- A test that depends on the layout alone holds first at the same index in the nodes and in the
list. -/
theorem findIdx?_of_trees (h : ns.map tree = xs.map f) {p : Node k → Bool} {q : α → Bool}
    (hpq : ∀ n x, n.tree = f x → p n = q x) : ns.findIdx? p = xs.findIdx? q := by
  have hall := forall₂_of_trees h
  clear h
  induction hall with
  | nil => rfl
  | cons hx _ ih => rw [List.findIdx?_cons, List.findIdx?_cons, hpq _ _ hx, ih]

/-- What a search finds stands at the same position among the nodes. -/
theorem exists_of_findIdx? (h : ns.map tree = xs.map f) {q : α → Bool} {i : Nat}
    (hi : xs.findIdx? q = some i) :
    ∃ n x, ns[i]? = some n ∧ xs[i]? = some x ∧ n.tree = f x ∧ q x = true := by
  obtain ⟨hlt, hq, -⟩ := List.findIdx?_eq_some_iff_getElem.mp hi
  have htree : (ns.map tree)[i]? = some (f xs[i]) := by
    rw [h, List.getElem?_map, List.getElem?_eq_getElem hlt]
    rfl
  rw [List.getElem?_map] at htree
  obtain ⟨n, hn, hnx⟩ := Option.map_eq_some_iff.mp htree
  exact ⟨n, xs[i], hn, List.getElem?_eq_getElem hlt, hnx, hq⟩

end Node

end Nesc
