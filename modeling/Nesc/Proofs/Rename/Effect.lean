import Mathlib.Data.List.Sort
import Nesc.Proofs.Rename.WellFormed
import Nesc.Proofs.Tree.Respelled

/-!
# What a rename does to a file

The edits of a rename speak of offsets in a text; what they are for is to respell some tokens of a
tree. `Scope.Respells` says which ones, by where they stand: the name token of the alias and, if
usages are wanted, those name tokens of the targets that are spelled as the old name. If the old name
is not empty the edits are exactly the respellings of these tokens in document order
(`Scope.renameEdits_eq_respellings`), so carrying them out gives the text of the respelled tree. With
an empty old name this can fail: tokens that share an offset share an edit.
-/

namespace Nesc

namespace Scope

variable {s : Scope} {r : Request} {wanted : Bool} {edits : List Edit} {a : Identifier}
  {is : List Identifier} {p : List Nat}

/-- Renaming the alias `a` respells the token that stands at `p`: the first name token of `a` or, if
usages are wanted, the first name token of a target, where it is spelled as the old name. -/
def Respells (s : Scope) (r : Request) (wanted : Bool) (a : Identifier) (p : List Nat) : Prop :=
  ∃ d : Cursor, d.path = p ∧ (d.IsFirstToken .ident a.cursor ∨
    wanted = true ∧ d.text = r.old ∧ ∃ i, s.IsTarget i ∧ d.IsFirstToken .ident i.cursor)

/-- What is respelled, by the identifiers to look through. -/
theorem respells_iff : s.Respells r wanted a p ↔ ∃ i ∈ a :: if wanted then
      s.targets.filter fun i => Identifier.spelling? i == some r.old else [],
    (Identifier.token? i).any (fun d => d.path == p) = true := by
  have htoken : ∀ {i : Identifier} {d : Cursor},
      Identifier.token? i = some d ↔ d.IsFirstToken .ident i.cursor := Cursor.token?_eq_some_iff
  simp only [Option.any_eq_true, beq_iff_eq, List.mem_cons, exists_eq_or_imp, Respells, htoken]
  constructor
  · rintro ⟨d, hp, hd | ⟨rfl, hold, i, hi, hd⟩⟩
    · exact .inl ⟨d, hd, hp⟩
    · refine .inr ⟨i, List.mem_filter.mpr ⟨mem_targets_iff.mpr hi, beq_iff_eq.mpr ?_⟩, d, hd, hp⟩
      exact Identifier.spelling?_eq_some_iff.mpr ⟨d, htoken.mpr hd, hold⟩
  · rintro (⟨d, hd, hp⟩ | ⟨i, hi, d, hd, hp⟩)
    · exact ⟨d, hp, .inl hd⟩
    · split at hi
      next hwanted =>
        obtain ⟨hi, hspelled⟩ := List.mem_filter.mp hi
        obtain ⟨e, he, hold⟩ := Identifier.spelling?_eq_some_iff.mp (beq_iff_eq.mp hspelled)
        cases he.symm.trans (htoken.mpr hd)
        exact ⟨d, hp, .inr ⟨hwanted, hold, i, mem_targets_iff.mp hi, hd⟩⟩
      next => cases hi

instance : Decidable (s.Respells r wanted a p) := decidable_of_iff _ respells_iff.symm

/-- Whether renaming the alias `a` respells the token at a path. -/
def isRenamed (s : Scope) (r : Request) (wanted : Bool) (a : Identifier) (p : List Nat) : Bool :=
  decide (s.Respells r wanted a p)

/-- What is respelled, in terms of the usages that were read. -/
theorem isRenamed_iff (his : s.usages r wanted = .ok is) :
    s.isRenamed r wanted a p = true ↔
      ∃ i ∈ a :: is, ∃ d, Identifier.token? i = some d ∧ d.path = p := by
  rw [isRenamed, decide_eq_true_iff, respells_iff, ← usages_eq_ok his]
  simp only [Option.any_eq_true, beq_iff_eq]

/-- A token that is respelled is a name token spelled as the old name, and conversely the name
tokens of the renamed identifiers are respelled. -/
theorem mem_leaves_isRenamed_iff (ha : s.checkRename r = .ok a)
    (his : s.usages r wanted = .ok is) {d : Cursor} :
    d ∈ (Cursor.root s.file.tree).leaves ∧ s.isRenamed r wanted a d.path = true ↔
      ∃ i ∈ a :: is, Identifier.token? i = some d := by
  -- A name token of a renamed identifier is an element of the file, so its path leads to it.
  have hmem : ∀ i ∈ a :: is, ∀ e, Identifier.token? i = some e →
      e ∈ (Cursor.root s.file.tree).elements ∧ e.tree = .token .ident e.text := by
    intro i hi e he
    obtain ⟨hchild, htree⟩ := Identifier.token?_eq_some he
    have hfile := (renamed_spelled ha his i hi).1
    rw [s.cursor_file] at hfile
    exact ⟨Cursor.mem_elements_of_mem_children hfile hchild, htree⟩
  rw [isRenamed_iff his, Cursor.mem_leaves]
  constructor
  · rintro ⟨⟨hd, -⟩, i, hi, e, he, hpath⟩
    exact ⟨i, hi, Cursor.eq_of_path_eq (hmem i hi e he).1 hd hpath ▸ he⟩
  · rintro ⟨i, hi, hd⟩
    obtain ⟨helem, htree⟩ := hmem i hi d hd
    exact ⟨⟨helem, by rw [htree]; rfl⟩, i, hi, d, hd, rfl⟩

/-- The edits at the ranges of the respelled tokens are those that the rename computes: they stand
at the name tokens of the alias and of the usages. -/
theorem mem_respellings_iff (ha : s.checkRename r = .ok a) (his : s.usages r wanted = .ok is)
    {e : Edit} : e ∈ (Cursor.root s.file.tree).respellings (s.isRenamed r wanted a) r.new ↔
      e ∈ Edit.respell r.new (a :: is) := by
  have hcursor : e ∈ (Cursor.root s.file.tree).respellings (s.isRenamed r wanted a) r.new ↔
      ∃ d, (d ∈ (Cursor.root s.file.tree).leaves ∧ s.isRenamed r wanted a d.path = true) ∧
        e = ⟨d.range, r.new⟩ := by
    simp only [Cursor.respellings, List.mem_map, List.mem_filter, eq_comm]
  rw [hcursor, Edit.mem_respell]
  simp only [mem_leaves_isRenamed_iff ha his]
  constructor
  · rintro ⟨d, ⟨i, hi, hd⟩, rfl⟩
    exact ⟨i, hi, by rw [Identifier.nameRange_of_token? hd]⟩
  · rintro ⟨i, hi, rfl⟩
    obtain ⟨d, hd, -⟩ := Identifier.spelling?_eq_some_iff.mp (renamed_spelled ha his i hi).2
    exact ⟨d, ⟨i, hi, hd⟩, by rw [Identifier.nameRange_of_token? hd]⟩

/-- With an old name that is not empty, a renamed token is not empty. -/
theorem start_lt_stop_of_isRenamed (ha : s.checkRename r = .ok a)
    (his : s.usages r wanted = .ok is) (hold : r.old ≠ "") {d : Cursor}
    (hd : d ∈ (Cursor.root s.file.tree).leaves ∧ s.isRenamed r wanted a d.path = true) :
    d.start < d.stop := by
  obtain ⟨i, hi, htoken⟩ := (mem_leaves_isRenamed_iff ha his).mp hd
  obtain ⟨d', hd', htext⟩ := Identifier.spelling?_eq_some_iff.mp (renamed_spelled ha his i hi).2
  cases htoken.symm.trans hd'
  have hwidth : d.tree.width ≠ 0 := by
    rw [Tree.width_eq]
    intro h
    exact hold (htext ▸ String.utf8ByteSize_eq_zero_iff.mp h)
  rw [Cursor.stop]
  omega

/-- Edits at tokens in document order have increasing starts. None is empty, so no two tokens share
a start. -/
theorem pairwise_respellings (ha : s.checkRename r = .ok a) (his : s.usages r wanted = .ok is)
    (hold : r.old ≠ "") :
    ((Cursor.root s.file.tree).respellings (s.isRenamed r wanted a) r.new).Pairwise
      fun e f => e.range.start < f.range.start := by
  unfold Cursor.respellings
  rw [List.pairwise_map]
  refine ((Cursor.pairwise_leaves _).sublist List.filter_sublist).imp_of_mem ?_
  intro d e hd _ hde
  have hlt := start_lt_stop_of_isRenamed ha his hold (List.mem_filter.mp hd)
  exact Nat.lt_of_lt_of_le hlt hde

/-- The edits of the rename are the respellings in document order, not only as a set: both lists are
strictly sorted by their starts, and they have the same members. -/
theorem renameEdits_eq_respellings (ha : s.checkRename r = .ok a)
    (his : s.usages r wanted = .ok is) (hold : r.old ≠ "") :
    Edit.respell r.new (a :: is) =
      (Cursor.root s.file.tree).respellings (s.isRenamed r wanted a) r.new := by
  have hedits := (pairwise_respell ha his).imp fun h => h.1
  have hirrefl : Std.Irrefl fun e f : Edit => e.range.start < f.range.start :=
    ⟨fun _ => Nat.lt_irrefl _⟩
  have hantisymm : Std.Antisymm fun e f : Edit => e.range.start < f.range.start :=
    ⟨fun _ _ hef hfe => absurd hfe (Nat.lt_asymm hef)⟩
  exact hedits.eq_of_mem_iff (pairwise_respellings ha his hold) fun e =>
    (mem_respellings_iff ha his).symm

/-- Carrying out the edits of an accepted rename gives the text of the tree in which the first name
token of the alias and, if usages are wanted, the first name tokens of the targets, where they are
spelled as the old name, have the new name, all else being the same. -/
theorem applyAll_renameEdits (h : s.renameEdits r wanted = .ok edits) (hold : r.old ≠ "") :
    ∃ a, s.checkRename r = .ok a ∧
      Edit.applyAll edits (Text.bytes s.file.tree.text) =
        Text.bytes (s.file.tree.respell (s.isRenamed r wanted a) r.new).text := by
  obtain ⟨a, is, ha, his, rfl⟩ := renameEdits_eq_ok_iff.mp h
  refine ⟨a, ha, ?_⟩
  rw [renameEdits_eq_respellings ha his hold]
  exact Tree.applyAll_respellings ..

/-- The target stands in front of the alias, and the old name has more bytes than letters. A member
and the target of a second implementation are spelled as the old name too, and stay. -/
theorem applyAll_renameEdits_targetsFirst :
    let t : Tree := .node .sourceFile [.node .component [.identifier "M",
      .node .implementation [.node .statement [.identifier "é", .identifier "é"]],
      .node .implementation [.node .statement [.identifier "é"]],
      .node .accessList [.node .access [.node .parameterizedInterfaceList [
        .node .parameterizedInterface [.node .interfaceReference [.mark .asKw, .space,
          .identifier "é"]]]]]]]
    ∃ s edits a, bind t (.index 0) = .ok s ∧ s.renameEdits ⟨"é", "X"⟩ true = .ok edits ∧
      s.checkRename ⟨"é", "X"⟩ = .ok a ∧ s.file.tree.text = "Méééas é" ∧
      (s.file.tree.respell (s.isRenamed ⟨"é", "X"⟩ true a) "X").text = "MXééas X" ∧
      Edit.applyAll edits (Text.bytes s.file.tree.text) = Text.bytes "MXééas X" := by
  intro t
  obtain ⟨s, edits, hs, h⟩ := Tree.accepts_iff.mp
    (by decide +kernel : t.accepts (.index 0) ⟨"é", "X"⟩ true = true)
  obtain ⟨a, ha, htext⟩ := applyAll_renameEdits h (by decide)
  have htest : ((bind t (.index 0)).toOption.any fun s => s.file.tree.text == "Méééas é" &&
      (s.checkRename ⟨"é", "X"⟩).toOption.any fun a =>
        (s.file.tree.respell (s.isRenamed ⟨"é", "X"⟩ true a) "X").text == "MXééas X") = true := by
    decide +kernel
  rw [hs] at htest
  simp only [Except.toOption, Option.any_some, ha, Bool.and_eq_true, beq_iff_eq] at htest
  exact ⟨s, edits, a, hs, h, ha, htest.1, htest.2, htest.2 ▸ htext⟩

end Scope

end Nesc
