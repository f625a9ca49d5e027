import Mathlib.Data.List.Induction
import Nesc.Tree.Cursor

/-!
# Where elements stand

A cursor claims that its element stands at its offset. For the elements of a tree the claim is true:
the text of an element is the stretch of the tree's text at its range (`Cursor.text_around`,
`Cursor.slice_range`). Tokens follow one another in document order without overlap
(`Cursor.pairwise_leaves`), and of any two elements one lies in the other or they lie apart
(`Cursor.nested_or_apart`). A path leads to one element only, so a child has one parent
(`Cursor.eq_of_path_eq`, `Cursor.parent_unique`). For an element with text, being the same stored
element is being at the same place (`Cursor.same_iff_path_eq`).
-/

namespace Nesc

namespace Cursor

/-- The offset just behind an element. -/
def stop (c : Cursor) : Nat := c.start + c.tree.width

@[simp] theorem start_range (c : Cursor) : c.range.start = c.start := rfl

@[simp] theorem stop_range (c : Cursor) : c.range.stop = c.stop := rfl

@[simp] theorem width_range (c : Cursor) : c.range.width = c.tree.width :=
  Range.width_ofWidth ..

@[simp] theorem length_bytes_text (t : Tree) : (Text.bytes t.text).length = t.width := by
  rw [Text.length_bytes, Tree.width_eq]

@[simp] theorem length_bytes_forest (ts : Forest) :
    (Text.bytes (Forest.text ts)).length = Forest.width ts := by
  rw [Text.length_bytes, Forest.width_eq fun t _ => t.width_eq]

theorem width_children (t : Tree) : Forest.width t.children ≤ t.width := by
  cases t with
  | token k s => exact Nat.zero_le _
  | node k ts => exact Nat.le_refl _

/-! ## Children in a row -/

theorem row_append (path : List Nat) (i start : Nat) (ts us : Forest) :
    row path i start (ts ++ us) =
      row path i start ts ++ row path (i + ts.length) (start + Forest.width ts) us := by
  induction ts generalizing i start with
  | nil => rfl
  | cons t ts ih =>
    have hi : i + (t :: ts).length = i + 1 + ts.length := by
      rw [List.length_cons]; omega
    have hstart : start + Forest.width (t :: ts) = start + t.width + Forest.width ts := by
      rw [Forest.width]; omega
    rw [List.cons_append, row, row, ih, hi, hstart, List.cons_append]

/-- An element of a row splits the forest: what is in front of it gives its index and offset. -/
theorem exists_split_of_mem_row {path : List Nat} {i start : Nat} {ts : Forest} {d : Cursor}
    (h : d ∈ row path i start ts) :
    ∃ us vs, ts = us ++ d.tree :: vs ∧ d.path = path ++ [i + us.length] ∧
      d.start = start + Forest.width us := by
  induction ts generalizing i start with
  | nil => exact absurd h List.not_mem_nil
  | cons t ts ih =>
    rcases List.mem_cons.mp h with rfl | h
    · exact ⟨[], ts, rfl, rfl, rfl⟩
    · obtain ⟨us, vs, hts, hpath, hstart⟩ := ih h
      refine ⟨t :: us, vs, by rw [hts, List.cons_append], ?_, ?_⟩
      · rw [hpath, List.length_cons, show i + 1 + us.length = i + (us.length + 1) by omega]
      · rw [hstart, Forest.width, Nat.add_assoc]

theorem row_bounds {path : List Nat} {i start : Nat} {ts : Forest} {d : Cursor}
    (h : d ∈ row path i start ts) : start ≤ d.start ∧ d.stop ≤ start + Forest.width ts := by
  obtain ⟨us, vs, hts, -, hstart⟩ := exists_split_of_mem_row h
  have hwidth : Forest.width ts = Forest.width us + (d.tree.width + Forest.width vs) := by
    rw [hts, Forest.width_append, Forest.width]
  rw [stop]
  omega

/-- The elements of a row follow one another without overlap. -/
theorem pairwise_row (path : List Nat) (i start : Nat) (ts : Forest) :
    (row path i start ts).Pairwise fun a b => a.stop ≤ b.start := by
  induction ts generalizing i start with
  | nil => exact .nil
  | cons t ts ih =>
    exact List.pairwise_cons.mpr ⟨fun d hd => (row_bounds hd).1, ih (i + 1) (start + t.width)⟩

/-- In a list of elements that follow one another, two of them are the same or do not overlap. -/
theorem eq_or_apart_of_pairwise {cs : List Cursor} (h : cs.Pairwise fun a b => a.stop ≤ b.start)
    {a b : Cursor} (ha : a ∈ cs) (hb : b ∈ cs) :
    a = b ∨ a.stop ≤ b.start ∨ b.stop ≤ a.start := by
  refine List.Pairwise.forall_of_forall_of_flip (R := fun a b => a = b ∨ a.stop ≤ b.start ∨
    b.stop ≤ a.start) (fun _ _ => .inl rfl) ?_ ?_ ha hb
  · exact h.imp fun hab => .inr (.inl hab)
  · exact h.imp fun hab => .inr (.inr hab)

theorem children_bounds {c d : Cursor} (h : d ∈ c.children) : c.start ≤ d.start ∧ d.stop ≤ c.stop := by
  obtain ⟨hstart, hstop⟩ := row_bounds h
  have hwidth := width_children c.tree
  refine ⟨hstart, Nat.le_trans hstop ?_⟩
  exact Nat.add_le_add_left hwidth c.start

/-! ## Elements lie inside -/

/-- What passes from an element to its children passes to all elements below it. -/
@[elab_as_elim]
theorem elements_induction {motive : Cursor → Prop} {c d : Cursor} (h : d ∈ c.elements)
    (self : motive c) (child : ∀ e f, e ∈ c.elements → motive e → f ∈ e.children → motive f) :
    motive d := by
  obtain ⟨p, hp⟩ := exists_at?_of_mem_elements h
  clear h
  induction p using List.reverseRecOn generalizing d with
  | nil =>
    cases hp
    exact self
  | append_singleton p i ih =>
    rw [at?_append, Option.bind_eq_some_iff] at hp
    obtain ⟨e, he, hd⟩ := hp
    simp only [at?, Option.bind_eq_some_iff, Option.some.injEq, exists_eq_right] at hd
    exact child e d (mem_elements_of_at? he) (ih he) (List.mem_of_getElem? hd)

/-- What is below an element lies within its bytes. -/
theorem elements_bounds {c d : Cursor} (h : d ∈ c.elements) : c.start ≤ d.start ∧ d.stop ≤ c.stop := by
  refine elements_induction h ⟨Nat.le_refl _, Nat.le_refl _⟩ fun e f _ he hf => ?_
  have hbounds := children_bounds hf
  omega

/-- The text of an element, with what stands in front of it and behind it. -/
theorem text_around {c d : Cursor} (h : d ∈ c.elements) :
    ∃ before after, Text.bytes c.text = before ++ Text.bytes d.text ++ after ∧
      d.start = c.start + before.length := by
  refine elements_induction h ⟨[], [], by simp, rfl⟩ fun e f _ he hf => ?_
  obtain ⟨before, after, htext, hstart⟩ := he
  obtain ⟨us, vs, hts, -, hf'⟩ := exists_split_of_mem_row hf
  have hte : e.text = Forest.text us ++ (f.text ++ Forest.text vs) := by
    cases he : e.tree with
    | token k s => simp [he, Tree.children] at hts
    | node k ts =>
      rw [he, Tree.children] at hts
      rw [text, he, Tree.text, hts, Forest.text_append, Forest.text, text]
  refine ⟨before ++ Text.bytes (Forest.text us), Text.bytes (Forest.text vs) ++ after, ?_, ?_⟩
  · rw [htext, hte]
    simp only [Text.bytes_append, List.append_assoc]
  · rw [hf', hstart, List.length_append, length_bytes_forest, Nat.add_assoc]

/-- The bytes of a tree at the range of one of its elements are the text of the element. -/
theorem slice_range {t : Tree} {d : Cursor} (h : d ∈ (root t).elements) :
    d.range.slice (Text.bytes t.text) = Text.bytes d.text := by
  obtain ⟨before, after, htext, hstart⟩ := text_around h
  have hbefore : d.start = before.length := by rw [hstart]; exact Nat.zero_add _
  have hwidth : d.tree.width = (Text.bytes d.text).length := (length_bytes_text d.tree).symm
  rw [Range.slice, start_range, width_range]
  rw [text, root] at htext
  rw [htext, hbefore, List.append_assoc, List.drop_left, hwidth, List.take_left]

/-! ## Tokens in document order -/

/-- The tokens of an element, in document order. -/
def leaves (c : Cursor) : List Cursor := c.elements.filter (·.tree.isToken)

theorem mem_leaves {c d : Cursor} : d ∈ c.leaves ↔ d ∈ c.elements ∧ d.tree.isToken = true :=
  List.mem_filter

theorem leaves_of_isToken {c : Cursor} (h : c.tree.isToken = true) : c.leaves = [c] := by
  obtain ⟨path, start, t⟩ := c
  cases t with
  | token k s => rfl
  | node k ts => cases h

/-- The tokens of a node are those of its children, one after the other. -/
theorem leaves_of_isNode {c : Cursor} (h : c.tree.isToken = false) :
    c.leaves = c.children.flatMap leaves := by
  rw [leaves, elements_eq, below, List.filter_cons_of_neg (by rw [h]; decide), List.filter_flatMap]
  rfl

theorem leaves_bounds {c d : Cursor} (h : d ∈ c.leaves) : c.start ≤ d.start ∧ d.stop ≤ c.stop :=
  elements_bounds (mem_leaves.mp h).1

/-- Each token ends before the next begins. -/
theorem pairwise_leaves (c : Cursor) : c.leaves.Pairwise fun a b => a.stop ≤ b.start := by
  obtain ⟨path, start, t⟩ := c
  induction t using Tree.induction generalizing path start with
  | token k s => rw [leaves_of_isToken rfl]; exact List.pairwise_singleton ..
  | node k ts ih =>
    rw [leaves_of_isNode rfl, List.pairwise_flatMap]
    refine ⟨fun d hd => ih d.tree (tree_mem_of_mem_children hd) d.path d.start, ?_⟩
    refine (pairwise_row path 0 start ts).imp fun {a b} hab x hx y hy => ?_
    have hxa := leaves_bounds hx
    have hyb := leaves_bounds hy
    omega

/-! ## Nesting and paths -/

/-- Of two elements one lies in the other, or they lie apart. -/
theorem nested_or_apart {c a b : Cursor} (ha : a ∈ c.elements) (hb : b ∈ c.elements) :
    a ∈ b.elements ∨ b ∈ a.elements ∨ a.stop ≤ b.start ∨ b.stop ≤ a.start := by
  obtain ⟨path, start, t⟩ := c
  induction t using Tree.induction generalizing path start with
  | token k s =>
    rw [List.mem_singleton.mp ha, List.mem_singleton.mp hb]
    exact .inl (self_mem_elements _)
  | node k ts ih =>
    rw [elements_eq] at ha hb
    rcases List.mem_cons.mp ha with rfl | ha
    · exact .inr (.inl (elements_eq _ ▸ hb))
    rcases List.mem_cons.mp hb with rfl | hb
    · exact .inl (elements_eq _ ▸ List.mem_cons_of_mem _ ha)
    obtain ⟨x, hx, hax⟩ := List.mem_flatMap.mp ha
    obtain ⟨y, hy, hby⟩ := List.mem_flatMap.mp hb
    rcases eq_or_apart_of_pairwise (pairwise_row path 0 start ts) hx hy with rfl | hapart
    · exact ih x.tree (tree_mem_of_mem_children hx) x.path x.start hax hby
    · have := elements_bounds hax
      have := elements_bounds hby
      omega

theorem eq_of_path_eq {t : Tree} {a b : Cursor} (ha : a ∈ (root t).elements)
    (hb : b ∈ (root t).elements) (h : a.path = b.path) : a = b := by
  have h' := at?_path hb
  rw [← h, at?_path ha] at h'
  exact Option.some.inj h'

/-- An element is a child of one element only. -/
theorem parent_unique {t : Tree} {a b d : Cursor} (ha : a ∈ (root t).elements)
    (hb : b ∈ (root t).elements) (hda : d ∈ a.children) (hdb : d ∈ b.children) : a = b := by
  obtain ⟨m, -, hm⟩ := exists_index_of_mem_children hda
  obtain ⟨n, -, hn⟩ := exists_index_of_mem_children hdb
  refine eq_of_path_eq ha hb ?_
  have h := congrArg List.dropLast (hm.symm.trans hn)
  rwa [List.dropLast_concat, List.dropLast_concat] at h

theorem parent?_eq_some {t : Tree} {c d : Cursor} (hc : c ∈ (root t).elements)
    (hd : d ∈ c.children) : (root t).parent? d = some c := by
  obtain ⟨n, -, hn⟩ := exists_index_of_mem_children hd
  rw [parent?, hn, if_neg (by simp), List.dropLast_concat, at?_path hc]

/-- The parent of an element is the element that has it among its children. -/
theorem parent?_eq_some_iff {t : Tree} {c d : Cursor} (hd : d ∈ (root t).elements) :
    (root t).parent? d = some c ↔ c ∈ (root t).elements ∧ d ∈ c.children := by
  refine ⟨fun h => ?_, fun h => parent?_eq_some h.1 h.2⟩
  unfold parent? at h
  split at h
  next => cases h
  next hpath =>
    have hat := at?_path hd
    rw [← List.dropLast_concat_getLast hpath, at?_append, h, Option.bind_some] at hat
    obtain ⟨e, he, hed⟩ := Option.bind_eq_some_iff.mp hat
    cases hed
    exact ⟨mem_elements_of_at? h, List.mem_of_getElem? he⟩

end Cursor

/-! ## Identity of elements with text

Two elements at one offset are nested or one of them is empty; and an element is never equal to one
strictly inside it, for a part is smaller than the whole (`Cursor.sizeOf_lt_of_mem_below`). -/

namespace Cursor

theorem sizeOf_lt_of_mem_children {c d : Cursor} (h : d ∈ c.children) :
    sizeOf d.tree < sizeOf c.tree := by
  have hmem := tree_mem_of_mem_children h
  cases hc : c.tree with
  | token k s =>
    rw [hc] at hmem
    exact absurd hmem List.not_mem_nil
  | node k ts =>
    rw [hc] at hmem
    have hlt := List.sizeOf_lt_of_mem hmem
    rw [Tree.node.sizeOf_spec]
    simp only [Tree.children] at hlt
    omega

theorem sizeOf_le_of_mem_elements {c d : Cursor} (h : d ∈ c.elements) :
    sizeOf d.tree ≤ sizeOf c.tree := by
  refine elements_induction h (Nat.le_refl _) fun e f _ he hf => ?_
  have hlt := sizeOf_lt_of_mem_children hf
  omega

theorem sizeOf_lt_of_mem_below {c d : Cursor} (h : d ∈ c.below) : sizeOf d.tree < sizeOf c.tree := by
  obtain ⟨e, he, hd⟩ := List.mem_flatMap.mp h
  exact Nat.lt_of_le_of_lt (sizeOf_le_of_mem_elements hd) (sizeOf_lt_of_mem_children he)

/-- An element is never equal to one strictly inside it. -/
theorem eq_of_mem_elements_of_tree_eq {c d : Cursor} (h : d ∈ c.elements) (htree : d.tree = c.tree) :
    d = c := by
  rw [elements_eq] at h
  rcases List.mem_cons.mp h with rfl | h
  · rfl
  · have hlt := sizeOf_lt_of_mem_below h
    rw [htree] at hlt
    exact absurd hlt (Nat.lt_irrefl _)

/-- Two elements of a tree that are the same stored element and have text are at the same place. -/
theorem Same.eq_of_width_pos {c a b : Cursor} (h : Same a b) (ha : a ∈ c.elements)
    (hb : b ∈ c.elements) (hwidth : 0 < a.tree.width) : a = b := by
  rcases nested_or_apart ha hb with hab | hba | hapart
  · exact eq_of_mem_elements_of_tree_eq hab h.tree
  · exact (eq_of_mem_elements_of_tree_eq hba h.tree.symm).symm
  · have hstart := h.start
    have hstop : a.stop = a.start + a.tree.width := rfl
    have hstop' : b.stop = b.start + a.tree.width := by rw [h.tree]; rfl
    omega

theorem width_pos_iff {c : Cursor} : 0 < c.tree.width ↔ c.text ≠ "" := by
  rw [Tree.width_eq, Nat.pos_iff_ne_zero, ne_eq, String.utf8ByteSize_eq_zero_iff]
  rfl

/-- An element with text is the same as the elements at its own path only. -/
theorem same_iff_path_eq {t : Tree} {a b : Cursor} (ha : a ∈ (root t).elements)
    (hb : b ∈ (root t).elements) (htext : a.text ≠ "") : a.Same b ↔ a.path = b.path := by
  constructor
  · intro h
    rw [h.eq_of_width_pos ha hb (width_pos_iff.mpr htext)]
  · intro h
    exact .inl (eq_of_path_eq ha hb h)

end Cursor

end Nesc
