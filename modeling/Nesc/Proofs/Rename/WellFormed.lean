import Nesc.Proofs.Rename.Accepted

/-!
# The edits of a rename are well formed

In any file, also a broken one, the edits of an accepted rename come in order, do not overlap, and
each replaces one name token that is spelled as the old name. Only the starts are sorted on and only
neighbours of one range are merged; that this is enough rests on all ranges having the width of the
old name and on name tokens never overlapping (`Tree.HasNameAt.eq_or_apart`). An old name may be
empty: then all ranges are, and several tokens can share one edit.
-/

namespace Nesc

/-- A token of the kind of words that is spelled `name` stands at `r`, right below an identifier of
the tree. -/
def Tree.HasNameAt (t : Tree) (name : String) (r : Range) : Prop :=
  ∃ i : Identifier, i.cursor ∈ (Cursor.root t).elements ∧
    ∃ d ∈ i.cursor.children, d.tree = .token .ident name ∧ d.range = r

namespace Tree.HasNameAt

variable {t : Tree} {m n : String} {q r : Range}

theorem exists_leaf (h : t.HasNameAt n r) :
    ∃ d ∈ (Cursor.root t).leaves, d.text = n ∧ d.range = r := by
  obtain ⟨i, hi, d, hd, htree, hrange⟩ := h
  have hmem := Cursor.mem_elements_of_mem_children hi hd
  exact ⟨d, Cursor.mem_leaves.mpr ⟨hmem, by rw [htree]; rfl⟩, by rw [Cursor.text, htree]; rfl, hrange⟩

theorem slice_eq (h : t.HasNameAt n r) : r.slice (Text.bytes t.text) = Text.bytes n := by
  obtain ⟨d, hd, rfl, rfl⟩ := h.exists_leaf
  exact Cursor.slice_range (Cursor.mem_leaves.mp hd).1

theorem width_eq (h : t.HasNameAt n r) : r.width = n.utf8ByteSize := by
  obtain ⟨d, hd, rfl, rfl⟩ := h.exists_leaf
  rw [Cursor.width_range, Tree.width_eq]
  rfl

/-- Names stand at one range or apart, as they are whole tokens. -/
theorem eq_or_apart (hr : t.HasNameAt n r) (hq : t.HasNameAt m q) :
    r = q ∨ r.stop ≤ q.start ∨ q.stop ≤ r.start := by
  obtain ⟨d, hd, -, rfl⟩ := hr.exists_leaf
  obtain ⟨e, he, -, rfl⟩ := hq.exists_leaf
  rcases Cursor.eq_or_apart_of_pairwise (Cursor.pairwise_leaves _) hd he with rfl | h
  · exact .inl rfl
  · exact .inr h

end Tree.HasNameAt

/-- An identifier of the tree that can be read has its name at its name range. -/
theorem Identifier.hasNameAt_nameRange {t : Tree} {i : Identifier} {n : String}
    (hi : i.cursor ∈ (Cursor.root t).elements) (hname : spelling? i = some n) :
    t.HasNameAt n i.nameRange := by
  obtain ⟨d, hd, rfl⟩ := spelling?_eq_some_iff.mp hname
  obtain ⟨hmem, htree⟩ := token?_eq_some hd
  exact ⟨i, hi, d, hmem, htree, (nameRange_of_token? hd).symm⟩

namespace Scope

variable {s : Scope} {r : Request} {wanted : Bool} {edits : List Edit} {a : Identifier}
  {is : List Identifier}

/-- Every edit replaces a name token that is spelled as the old name. -/
theorem hasNameAt_of_mem_respell (ha : s.checkRename r = .ok a) (his : s.usages r wanted = .ok is)
    {e : Edit} (he : e ∈ Edit.respell r.new (a :: is)) :
    e.newText = r.new ∧ s.file.tree.HasNameAt r.old e.range := by
  obtain ⟨i, hi, rfl⟩ := Edit.mem_respell.mp he
  obtain ⟨hmem, hname⟩ := renamed_spelled ha his i hi
  rw [s.cursor_file] at hmem
  exact ⟨rfl, Identifier.hasNameAt_nameRange hmem hname⟩

/-- The edits come in order and do not overlap. All have the width of the old name, so that edits of
one start would be one. -/
theorem pairwise_respell (ha : s.checkRename r = .ok a) (his : s.usages r wanted = .ok is) :
    (Edit.respell r.new (a :: is)).Pairwise fun e f =>
      e.range.start < f.range.start ∧ e.range.stop ≤ f.range.start := by
  have hwidth : ∀ i ∈ a :: is, i.nameRange.width = r.old.utf8ByteSize := by
    intro i hi
    obtain ⟨hmem, hname⟩ := renamed_spelled ha his i hi
    rw [s.cursor_file] at hmem
    exact (Identifier.hasNameAt_nameRange hmem hname).width_eq
  refine (Edit.pairwise_start_respell hwidth).imp_of_mem ?_
  intro e f he hf hlt
  have hef := (hasNameAt_of_mem_respell ha his he).2.eq_or_apart
    (hasNameAt_of_mem_respell ha his hf).2
  refine ⟨hlt, ?_⟩
  rcases hef with heq | hle | hle
  · rw [heq] at hlt
    exact absurd hlt (Nat.lt_irrefl _)
  · exact hle
  · have := f.range.start_le_stop
    omega

/-- What a scope bound to a component renames lies inside the component. -/
theorem IsOf.mem_of_renamed {c : Component} (hc : s.IsOf c) (ha : s.checkRename r = .ok a)
    (his : s.usages r wanted = .ok is) : ∀ i ∈ a :: is, i.cursor ∈ c.cursor.elements := by
  rw [List.forall_mem_cons]
  constructor
  · have hspec : s.specification.cursor ∈ c.cursor.elements :=
      Node.mem_elements_of_child? c.cursor.self_mem_elements hc.specification?
    exact Cursor.mem_elements_trans hspec
      (mem_specification_of_mem_aliasIdentifiers (mem_aliasIdentifiers_of_checkRename ha).1)
  · intro i hi
    obtain ⟨c', hc', st, hst, hchild⟩ :=
      exists_statement_of_mem_targets ((usages_sublist his).mem hi)
    rw [hc.component?_eq] at hc'
    cases hc'
    exact Cursor.mem_elements_of_mem_children hst hchild

/-- The edits of a scope bound to a component stay in the bytes of the component. -/
theorem IsOf.bounds_of_renamed {c : Component} (hc : s.IsOf c) (ha : s.checkRename r = .ok a)
    (his : s.usages r wanted = .ok is) {e : Edit} (he : e ∈ Edit.respell r.new (a :: is)) :
    c.range.start ≤ e.range.start ∧ e.range.stop ≤ c.range.stop := by
  obtain ⟨i, hi, rfl⟩ := Edit.mem_respell.mp he
  exact Identifier.nameRange_bounds (hc.mem_of_renamed ha his i hi) (renamed_spelled ha his i hi).2

/-- The edits of an accepted rename, in any file: there is one at the alias, and no other unless
usages are wanted; they are in strictly increasing order and do not overlap; each replaces, by the
new name, a name token spelled as the old one; and if the scope is that of a component, they stay
inside it. -/
theorem renameEdits_wellFormed (h : s.renameEdits r wanted = .ok edits) :
    ∃ a, s.checkRename r = .ok a ∧ edits ≠ [] ∧
      (edits.Pairwise fun e f => e.range.start < f.range.start ∧ e.range.stop ≤ f.range.start) ∧
      (∀ e ∈ edits, e.newText = r.new ∧ s.file.tree.HasNameAt r.old e.range ∧
        e.range.slice (Text.bytes s.file.tree.text) = Text.bytes r.old) ∧
      ⟨a.nameRange, r.new⟩ ∈ edits ∧ (wanted = false → edits = [⟨a.nameRange, r.new⟩]) ∧
      ∀ c, s.IsOf c → ∀ e ∈ edits, c.range.start ≤ e.range.start ∧ e.range.stop ≤ c.range.stop := by
  obtain ⟨a, is, ha, his, rfl⟩ := renameEdits_eq_ok_iff.mp h
  have halias : ⟨a.nameRange, r.new⟩ ∈ Edit.respell r.new (a :: is) :=
    Edit.mem_respell.mpr ⟨a, List.mem_cons_self, rfl⟩
  refine ⟨a, ha, List.ne_nil_of_mem halias, pairwise_respell ha his, fun e he => ?_, halias, ?_,
    fun c hc e he => hc.bounds_of_renamed ha his he⟩
  · obtain ⟨hnew, hat⟩ := hasNameAt_of_mem_respell ha his he
    exact ⟨hnew, hat, hat.slice_eq⟩
  · rintro rfl
    obtain rfl : is = [] := usages_eq_ok his
    exact Edit.respell_of_increasing (List.pairwise_singleton ..)

/-- The alias and two targets are empty and stand at one offset. -/
theorem renameEdits_wellFormed_emptyNames :
    let t : Tree := .node .sourceFile [.node .component [.identifier "M",
      .node .accessList [.node .access [.node .parameterizedInterfaceList [
        .node .parameterizedInterface [.node .interfaceReference [.mark .asKw, .identifier ""]]]]],
      .node .implementation [.node .statement [.identifier ""],
        .node .statement [.node .identifier [.token .ident "", .token .ident "x"]]]]]
    ∃ s edits, bind t (.index 0) = .ok s ∧ s.renameEdits ⟨"", "X"⟩ true = .ok edits ∧
      (∃ a, s.checkRename ⟨"", "X"⟩ = .ok a ∧ ⟨a.nameRange, "X"⟩ ∈ edits) ∧
      ∀ e ∈ edits, e.newText = "X" ∧ s.file.tree.HasNameAt "" e.range := by
  intro t
  obtain ⟨s, edits, hs, h⟩ := Tree.accepts_iff.mp
    (by decide +kernel : t.accepts (.index 0) ⟨"", "X"⟩ true = true)
  obtain ⟨a, ha, -, -, hnames, hmem, -⟩ := renameEdits_wellFormed h
  exact ⟨s, edits, hs, h, ⟨a, ha, hmem⟩, fun e he => ⟨(hnames e he).1, (hnames e he).2.1⟩⟩

end Scope

end Nesc
