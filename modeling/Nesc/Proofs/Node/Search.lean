import Mathlib.Data.List.Basic
import Mathlib.Data.List.TakeWhile
import Nesc.Node.Parts
import Nesc.Proofs.Tree.Places

/-!
# Where a search among children ends

Parts of a node are found by kind and by order: the search for a child of a kind finds the first one
(`Cursor.child?_eq_some_iff`), and so does the search for a token (`Cursor.token?_eq_some_iff`). If
the children of a node are known, so is what a search finds and where it stands
(`Cursor.child?_of_split`), and behind a keyword the search starts anew
(`Cursor.childAfter?_of_split`). A search at any depth stays among the children if no node of the
kind lies deeper (`Cursor.descendants_eq_childrenOf`).
-/

namespace Nesc

theorem Tree.nodeKind?_of_isToken {t : Tree} (h : t.isToken = true) : t.nodeKind? = none := by
  cases t with
  | token k s => rfl
  | node k ts => cases h

theorem Tree.children_of_isToken {t : Tree} (h : t.isToken = true) : t.children = [] := by
  cases t with
  | token k s => rfl
  | node k ts => cases h

/-! ## Trees without nodes of a kind -/

mutual

/-- Whether no node of the tree is of kind `k`. -/
def Tree.lacks (k : Kind) : Tree → Bool
  | .token .. => true
  | .node j ts => j != k && Forest.lacks k ts

/-- Whether no node of the forest is of kind `k`. -/
def Forest.lacks (k : Kind) : Forest → Bool
  | [] => true
  | t :: ts => t.lacks k && Forest.lacks k ts

end

theorem Tree.lacks_of_isToken {t : Tree} (h : t.isToken = true) (k : Kind) : t.lacks k = true := by
  cases t with
  | token j s => rfl
  | node j ts => cases h

theorem Forest.lacks_iff {k : Kind} {ts : Forest} :
    Forest.lacks k ts = true ↔ ∀ t ∈ ts, t.lacks k = true := by
  induction ts with
  | nil => exact ⟨fun _ => nofun, fun _ => rfl⟩
  | cons t ts ih => rw [lacks, Bool.and_eq_true, ih, List.forall_mem_cons]

@[simp] theorem Forest.lacks_append (k : Kind) (ts us : Forest) :
    Forest.lacks k (ts ++ us) = (Forest.lacks k ts && Forest.lacks k us) := by
  induction ts with
  | nil => rfl
  | cons t ts ih => rw [List.cons_append, lacks, lacks, ih, Bool.and_assoc]

theorem Forest.lacks_flatMap {α : Type} {k : Kind} {f : α → Forest} {xs : List α}
    (h : ∀ x ∈ xs, Forest.lacks k (f x) = true) : Forest.lacks k (xs.flatMap f) = true := by
  refine lacks_iff.mpr fun t ht => ?_
  obtain ⟨x, hx, ht⟩ := List.mem_flatMap.mp ht
  exact lacks_iff.mp (h x hx) t ht

namespace Cursor

theorem as?_eq_none_iff {k : Kind} {c : Cursor} : c.as? k = none ↔ c.tree.nodeKind? ≠ some k := by
  simp [as?]

theorem as?_of_isToken {c : Cursor} (h : c.tree.isToken = true) (k : Kind) : c.as? k = none := by
  refine as?_eq_none_iff.mpr fun hk => ?_
  rw [Tree.nodeKind?_of_isToken h] at hk
  cases hk

/-- A tree without nodes of a kind has no element of that kind. -/
theorem filterMap_elements_of_lacks {k : Kind} {c : Cursor} (h : c.tree.lacks k = true) :
    c.elements.filterMap (as? k) = [] := by
  obtain ⟨path, start, t⟩ := c
  induction t using Tree.induction generalizing path start with
  | token j s =>
    rw [List.filterMap_eq_nil_iff]
    intro d hd
    rw [List.mem_singleton.mp hd]
    exact as?_of_isToken rfl k
  | node j ts ih =>
    rw [Tree.lacks, Bool.and_eq_true, bne_iff_ne, Forest.lacks_iff] at h
    have hself : as? k ⟨path, start, .node j ts⟩ = none :=
      as?_eq_none_iff.mpr fun hj => h.1 (Option.some.inj hj)
    rw [elements_eq, List.filterMap_cons_none hself, below, List.filterMap_flatMap,
      List.flatMap_eq_nil_iff]
    intro d hd
    have hmem : d.tree ∈ ts := tree_mem_of_mem_children hd
    exact ih d.tree hmem d.path d.start (h.2 d.tree hmem)

/-- If no node of the kind lies below a child, the nodes below are children. -/
theorem descendants_eq_childrenOf {k : Kind} {c : Cursor}
    (h : ∀ t ∈ c.tree.children, Forest.lacks k t.children = true) :
    c.descendants k = c.childrenOf k := by
  have hbelow : ∀ d ∈ c.children, d.elements.filterMap (as? k) = [d].filterMap (as? k) := by
    intro d hd
    have hdeeper : d.below.filterMap (as? k) = [] := by
      rw [below, List.filterMap_flatMap, List.flatMap_eq_nil_iff]
      intro e he
      have hlacks := Forest.lacks_iff.mp (h d.tree (tree_mem_of_mem_children hd))
      exact filterMap_elements_of_lacks (hlacks e.tree (tree_mem_of_mem_children he))
    rw [elements_eq, ← List.singleton_append, List.filterMap_append, hdeeper, List.append_nil]
  rw [descendants, below, List.filterMap_flatMap, List.flatMap_congr hbelow,
    ← List.filterMap_flatMap, List.flatMap_singleton']
  rfl

end Cursor

/-! ## The first child of a kind -/

/-- The first node of its kind among the children of `c`. -/
def Node.IsFirstChild {k : Kind} (n : Node k) (c : Cursor) : Prop :=
  ∃ before after, c.children = before ++ n.cursor :: after ∧
    ∀ d ∈ before, d.tree.nodeKind? ≠ some k

namespace Cursor

/-- The search for a child of a kind finds the first one. -/
theorem child?_eq_some_iff {k : Kind} {c : Cursor} {n : Node k} :
    c.child? k = some n ↔ n.IsFirstChild c := by
  rw [child?, List.findSome?_eq_some_iff]
  constructor
  · rintro ⟨before, d, after, hc, hd, hbefore⟩
    rw [← as?_eq_some_iff.mp hd] at hc
    exact ⟨before, after, hc, fun e he => as?_eq_none_iff.mp (hbefore e he)⟩
  · rintro ⟨before, after, hc, hbefore⟩
    exact ⟨before, n.cursor, after, hc, as?_eq_some_iff.mpr rfl,
      fun e he => as?_eq_none_iff.mpr (hbefore e he)⟩

theorem mem_children_of_isFirstChild {k : Kind} {c : Cursor} {n : Node k} (h : n.IsFirstChild c) :
    n.cursor ∈ c.children :=
  mem_children_of_child? (child?_eq_some_iff.mpr h)

/-- The first token of kind `k` among the children of `c`. -/
def IsFirstToken (k : Kind) (d c : Cursor) : Prop :=
  d.tree.tokenKind? = some k ∧ ∃ before after, c.children = before ++ d :: after ∧
    ∀ e ∈ before, e.tree.tokenKind? ≠ some k

/-- The search for a token of a kind finds the first one. -/
theorem token?_eq_some_iff {k : Kind} {c d : Cursor} :
    c.token? k = some d ↔ d.IsFirstToken k c := by
  simp only [token?, List.find?_eq_some_iff_append, IsFirstToken, decide_eq_true_eq,
    Bool.not_eq_true', decide_eq_false_iff_not]

/-! ## Searching a row -/

theorem findSome?_row_eq_none {k : Kind} {path : List Nat} {i start : Nat} {ts : Forest}
    (h : ∀ t ∈ ts, t.nodeKind? ≠ some k) : (row path i start ts).findSome? (as? k) = none := by
  rw [List.findSome?_eq_none_iff]
  intro d hd
  exact as?_eq_none_iff.mpr (h d.tree (tree_mem_of_mem_row hd))

/-- The first node of the kind in a row, with its index and offset. -/
theorem findSome?_row_of_split {k : Kind} {path : List Nat} {i start : Nat} (us vs : Forest)
    {t : Tree} (hus : ∀ u ∈ us, u.nodeKind? ≠ some k) (ht : t.nodeKind? = some k) :
    (row path i start (us ++ t :: vs)).findSome? (as? k) =
      some ⟨⟨path ++ [i + us.length], start + Forest.width us, t⟩, ht⟩ := by
  rw [row_append, List.findSome?_append, findSome?_row_eq_none hus, Option.none_or, row,
    List.findSome?_cons, (as?_eq_some_iff (n := ⟨_, ht⟩)).mpr rfl]

theorem child?_eq_none {j k : Kind} {path : List Nat} {start : Nat} {ts : Forest}
    (h : ∀ t ∈ ts, t.nodeKind? ≠ some k) : child? k ⟨path, start, .node j ts⟩ = none :=
  findSome?_row_eq_none h

/-- If nothing of the kind stands in front, the search finds the tree at the cut, with its index and
offset. -/
theorem child?_of_split {j k : Kind} (path : List Nat) (start : Nat) (us vs : Forest) {t : Tree}
    (hus : ∀ u ∈ us, u.nodeKind? ≠ some k) (ht : t.nodeKind? = some k) :
    child? k ⟨path, start, .node j (us ++ t :: vs)⟩ =
      some ⟨⟨path ++ [us.length], start + Forest.width us, t⟩, ht⟩ := by
  rw [child?, children, Tree.children, findSome?_row_of_split us vs hus ht]
  simp only [Nat.zero_add]

theorem childAfter?_eq_none {w j k : Kind} {path : List Nat} {start : Nat} {ts : Forest}
    (h : ∀ t ∈ ts, t.tokenKind? ≠ some w) :
    childAfter? w k ⟨path, start, .node j ts⟩ = none := by
  rw [childAfter?, List.dropWhile_eq_nil_iff.mpr, List.findSome?_nil]
  intro d hd
  exact decide_eq_true (h d.tree (tree_mem_of_mem_children hd))

/-- The first node of the kind behind the first token `w`. -/
theorem childAfter?_of_split {w j k : Kind} (path : List Nat) (start : Nat) (us vs ws : Forest)
    {m t : Tree} (hus : ∀ u ∈ us, u.tokenKind? ≠ some w) (hm : m.tokenKind? = some w)
    (hvs : ∀ v ∈ m :: vs, v.nodeKind? ≠ some k) (ht : t.nodeKind? = some k) :
    childAfter? w k ⟨path, start, .node j (us ++ (m :: vs ++ t :: ws))⟩ =
      some ⟨⟨path ++ [us.length + (m :: vs).length],
        start + Forest.width us + Forest.width (m :: vs), t⟩, ht⟩ := by
  have hskip : ∀ d ∈ row path 0 start us, decide (d.tree.tokenKind? ≠ some w) = true := by
    intro d hd
    exact decide_eq_true (hus d.tree (tree_mem_of_mem_row hd))
  -- The row behind `us` begins with the token, so nothing more is skipped.
  have hstop : ∀ i start, (row path i start (m :: vs ++ t :: ws)).dropWhile
      (fun d => decide (d.tree.tokenKind? ≠ some w)) = row path i start (m :: vs ++ t :: ws) := by
    intro i start
    rw [List.cons_append, row, List.dropWhile_cons_of_neg]
    simp [hm]
  rw [childAfter?, children, Tree.children, row_append, List.dropWhile_append_of_pos hskip, hstop,
    findSome?_row_of_split (m :: vs) ws hvs ht]
  simp only [Nat.zero_add]

end Cursor

end Nesc
