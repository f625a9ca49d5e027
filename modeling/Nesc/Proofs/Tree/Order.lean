import Mathlib.Logic.Relation
import Nesc.Node.Basic
import Nesc.Proofs.Tree.Places

/-!
# Document order

Paths say how two elements of a tree lie to each other. An element lies below another if a chain of
children leads down to it (`Cursor.LiesBelow`), and to the left of another if their paths part and
its own takes the smaller index (`Cursor.LeftOf`). Document order compares paths lexicographically,
so that an element precedes what lies below it and what it is left of (`Cursor.Precedes`). Listing
the elements of a tree lists them in this order: of two elements in the list, the second lies below
the first or to the right of it (`Cursor.pairwise_elements`).
-/

namespace Nesc

namespace Cursor

/-- A chain of children leads from `c` down to `d`. -/
def LiesBelow (d c : Cursor) : Prop := Relation.TransGen (fun e f => f ∈ e.children) c d

/-- The paths part, and `a` goes on with the smaller index. -/
def LeftOf (a b : Cursor) : Prop :=
  ∃ p i j u v, a.path = p ++ i :: u ∧ b.path = p ++ j :: v ∧ i < j

/-- Document order. -/
def Precedes (a b : Cursor) : Prop := a.path < b.path

variable {a b c d e x y : Cursor}

/-! ## Below -/

theorem LiesBelow.trans (hd : d.LiesBelow c) (he : e.LiesBelow d) : e.LiesBelow c :=
  Relation.TransGen.trans hd he

/-- What is listed below an element lies below it. -/
theorem mem_below_iff : d ∈ c.below ↔ d.LiesBelow c := by
  constructor
  · intro h
    obtain ⟨e, he, hd⟩ := List.mem_flatMap.mp h
    exact elements_induction hd (.single he) fun f g _ hf hg => hf.tail hg
  · intro h
    induction h with
    | single hd => exact List.mem_flatMap.mpr ⟨_, hd, self_mem_elements _⟩
    | tail _ hd ih =>
      obtain ⟨f, hf, he⟩ := List.mem_flatMap.mp ih
      exact List.mem_flatMap.mpr ⟨f, hf, mem_elements_of_mem_children he hd⟩

theorem path_of_mem_elements (h : d ∈ c.elements) : ∃ q, d.path = c.path ++ q := by
  obtain ⟨p, hp⟩ := exists_at?_of_mem_elements h
  exact ⟨p, path_of_at? hp⟩

theorem LiesBelow.precedes (h : d.LiesBelow c) : c.Precedes d := by
  obtain ⟨e, he, hd⟩ := List.mem_flatMap.mp (mem_below_iff.mpr h)
  obtain ⟨n, -, hn⟩ := exists_index_of_mem_children he
  obtain ⟨q, hq⟩ := path_of_mem_elements hd
  have happend : c.path ++ [] < c.path ++ (n :: q) := List.append_left_lt (List.nil_lt_cons n q)
  rw [List.append_nil] at happend
  rwa [Precedes, hq, hn, List.append_assoc]

/-! ## To the left -/

/-- What lies in an element that is left of another is left of all that lies in the other. -/
theorem LeftOf.mono (h : a.LeftOf b) (hx : x ∈ a.elements) (hy : y ∈ b.elements) : x.LeftOf y := by
  obtain ⟨p, i, j, u, v, ha, hb, hij⟩ := h
  obtain ⟨q, hq⟩ := path_of_mem_elements hx
  obtain ⟨r, hr⟩ := path_of_mem_elements hy
  exact ⟨p, i, j, u ++ q, v ++ r, by simp [hq, ha], by simp [hr, hb], hij⟩

theorem LeftOf.precedes (h : a.LeftOf b) : a.Precedes b := by
  obtain ⟨p, i, j, u, v, ha, hb, hij⟩ := h
  rw [Precedes, ha, hb]
  exact List.append_left_lt (List.cons_lt_cons_iff.mpr (.inl hij))

theorem Precedes.path_ne (h : a.Precedes b) : a.path ≠ b.path := by
  intro hpath
  rw [Precedes, hpath] at h
  exact List.lt_irrefl _ h

/-- Neighbours in a row stand from left to right, with all that is in them. -/
theorem pairwise_leftOf_row (path : List Nat) (i start : Nat) (ts : Forest) :
    (row path i start ts).Pairwise LeftOf := by
  induction ts generalizing i start with
  | nil => exact .nil
  | cons t ts ih =>
    refine List.pairwise_cons.mpr ⟨fun d hd => ?_, ih (i + 1) (start + t.width)⟩
    obtain ⟨us, vs, -, hpath, -⟩ := exists_split_of_mem_row hd
    exact ⟨path, i, i + 1 + us.length, [], [], rfl, hpath, by omega⟩

theorem pairwise_leftOf_children (c : Cursor) : c.children.Pairwise LeftOf :=
  pairwise_leftOf_row ..

/-- Of two listed elements the second lies below the first or to the right of it. -/
theorem pairwise_elements (c : Cursor) :
    c.elements.Pairwise fun a b => b.LiesBelow a ∨ a.LeftOf b := by
  obtain ⟨path, start, t⟩ := c
  induction t using Tree.induction generalizing path start with
  | token k s => exact List.pairwise_singleton ..
  | node k ts ih =>
    rw [elements_eq]
    refine List.pairwise_cons.mpr ⟨fun d hd => .inl (mem_below_iff.mp hd), ?_⟩
    rw [below, List.pairwise_flatMap]
    refine ⟨fun d hd => ih d.tree (tree_mem_of_mem_children hd) d.path d.start, ?_⟩
    exact (pairwise_leftOf_children _).imp fun hab x hx y hy => .inr (hab.mono hx hy)

/-- Of two elements listed in order, the second lies below the first or to the right of it. -/
theorem pairwise_below (c : Cursor) : c.below.Pairwise fun a b => b.LiesBelow a ∨ a.LeftOf b := by
  have h := pairwise_elements c
  rw [elements_eq] at h
  exact (List.pairwise_cons.mp h).2

/-! ## Nodes of a kind -/

variable {k : Kind}

theorem mem_descendants_iff {n : Node k} : n ∈ c.descendants k ↔ n.cursor.LiesBelow c := by
  rw [mem_descendants, mem_below_iff]

theorem pairwise_descendants (k : Kind) (c : Cursor) : (c.descendants k).Pairwise fun m n =>
    n.cursor.LiesBelow m.cursor ∨ m.cursor.LeftOf n.cursor := by
  apply List.pairwise_filterMap.mpr
  apply (pairwise_below c).imp
  intro a b hab m hm n hn
  rwa [as?_eq_some_iff.mp hm, as?_eq_some_iff.mp hn]

/-- The nodes of a kind are found in document order. -/
theorem pairwise_precedes_descendants (k : Kind) (c : Cursor) :
    (c.descendants k).Pairwise fun m n => m.cursor.Precedes n.cursor :=
  (pairwise_descendants k c).imp fun h => h.elim LiesBelow.precedes LeftOf.precedes

/-- No node of kind `k` below `c` lies inside another. -/
def Unnested (k : Kind) (c : Cursor) : Prop :=
  ∀ m n : Node k, m.cursor.LiesBelow c → n.cursor.LiesBelow c → ¬ n.cursor.LiesBelow m.cursor

/-- Nodes of a kind are not nested exactly if none has one below it. -/
theorem unnested_iff : c.Unnested k ↔ ∀ m ∈ c.descendants k, m.descendants k = [] := by
  constructor
  · intro h m hm
    apply List.eq_nil_iff_forall_not_mem.mpr
    intro n hn
    have hm := mem_descendants_iff.mp hm
    have hn := mem_descendants_iff.mp hn
    exact h m n hm (hm.trans hn) hn
  · intro h m n hm _ hn
    have hmem : n ∈ m.descendants k := mem_descendants_iff.mpr hn
    rw [h m (mem_descendants_iff.mpr hm)] at hmem
    exact absurd hmem List.not_mem_nil

instance (k : Kind) (c : Cursor) : Decidable (c.Unnested k) := decidable_of_iff' _ unnested_iff

theorem Unnested.mono (h : c.Unnested k) (hd : d.LiesBelow c) : d.Unnested k :=
  fun m n hm hn => h m n (hd.trans hm) (hd.trans hn)

end Cursor

namespace Node

variable {j k : Kind} {ms : List (Node j)}

/-- Each of the nodes stands to the left of those behind it. -/
def LeftToRight (ns : List (Node k)) : Prop := ns.Pairwise fun m n => m.cursor.LeftOf n.cursor

theorem LeftToRight.pairwise_precedes {ns : List (Node k)} (h : LeftToRight ns) :
    ns.Pairwise fun m n => m.cursor.Precedes n.cursor :=
  h.imp Cursor.LeftOf.precedes

theorem nodup_of_pairwise_precedes {ns : List (Node k)}
    (h : ns.Pairwise fun m n => m.cursor.Precedes n.cursor) : ns.Nodup := by
  apply h.imp
  rintro m n hmn rfl
  exact hmn.path_ne rfl

theorem leftToRight_childrenOf (k : Kind) (n : Node j) : LeftToRight (n.childrenOf k) := by
  apply List.pairwise_filterMap.mpr
  apply n.cursor.pairwise_leftOf_children.imp
  intro a b hab m hm n hn
  rwa [Cursor.as?_eq_some_iff.mp hm, Cursor.as?_eq_some_iff.mp hn]

/-- Where a kind is not nested, its nodes stand from left to right. -/
theorem leftToRight_descendants {n : Node j} (h : n.cursor.Unnested k) :
    LeftToRight (n.descendants k) := by
  apply (Cursor.pairwise_descendants k n.cursor).imp_of_mem
  intro a b ha hb hab
  have hnested := h a b (Cursor.mem_descendants_iff.mp ha) (Cursor.mem_descendants_iff.mp hb)
  exact hab.resolve_left hnested

/-- Lists of what lies in nodes, joined, stand from left to right if the nodes do. -/
theorem LeftToRight.flatMap {f : Node j → List (Node k)} (h : LeftToRight ms)
    (hf : ∀ m ∈ ms, LeftToRight (f m))
    (hmem : ∀ m ∈ ms, ∀ n ∈ f m, n.cursor ∈ m.cursor.elements) : LeftToRight (ms.flatMap f) := by
  refine List.pairwise_flatMap.mpr ⟨hf, ?_⟩
  apply List.Pairwise.imp_of_mem _ h
  intro a b ha hb hab x hx y hy
  exact hab.mono (hmem a ha x hx) (hmem b hb y hy)

theorem LeftToRight.filterMap_child? (h : LeftToRight ms) (k : Kind) :
    LeftToRight (ms.filterMap (child? k)) := by
  apply List.pairwise_filterMap.mpr
  apply List.Pairwise.imp _ h
  intro a b hab x hx y hy
  exact hab.mono (mem_elements_of_child? a.cursor.self_mem_elements hx)
    (mem_elements_of_child? b.cursor.self_mem_elements hy)

end Node

end Nesc
