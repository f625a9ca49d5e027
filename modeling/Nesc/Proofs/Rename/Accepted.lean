import Nesc.Proofs.Node.Names
import Nesc.Proofs.Rename.EditList
import Nesc.Proofs.Scope.Walk

/-!
# Accepted renames

What has to hold for a rename to be accepted, and what its edits are then. The check succeeds
exactly if each of its readings does and none finds the new name (`Scope.checkRename_eq_ok_iff`).
The edits of an accepted rename are those of the alias and, if wanted, of the targets of its name;
all of these identifiers are spelled as the old name (`Scope.renamed_spelled`).
-/

namespace Nesc

theorem Refusal.ofRead_eq_ok_iff {α : Type} {x : Except Malformed α} {a : α} :
    ofRead x = .ok a ↔ x = .ok a := by
  cases x with
  | error m => exact ⟨nofun, nofun⟩
  | ok b => exact ⟨fun h => congrArg Except.ok (Except.ok.inj h), fun h => congrArg _ h⟩

/-- The name of an identifier lies inside what the identifier lies inside. -/
theorem Identifier.nameRange_bounds {c : Cursor} {i : Identifier} {n : String}
    (hi : i.cursor ∈ c.elements) (hname : spelling? i = some n) :
    c.start ≤ i.nameRange.start ∧ i.nameRange.stop ≤ c.stop := by
  obtain ⟨d, hd, -⟩ := spelling?_eq_some_iff.mp hname
  have hmem := Cursor.mem_elements_of_mem_children hi (token?_eq_some hd).1
  rw [nameRange_of_token? hd]
  exact Cursor.elements_bounds hmem

namespace Scope

variable {s : Scope} {r : Request} {wanted : Bool} {edits : List Edit} {a : Identifier}

/-- A rename passes the check exactly if the new name is good on its own, the component's name can
be read, `a` is the first alias of the old name, and the new name is neither a local name nor that
of a bare declaration. The last two are read to the end. -/
theorem checkRename_eq_ok_iff : s.checkRename r = .ok a ↔
    r.validate = .ok () ∧ (∃ c, s.name = .ok c) ∧ s.aliasNamed? r.old = .ok (some a) ∧
      (∃ ns, s.localNames = .ok ns ∧ r.new ∉ ns) ∧
      Identifier.firstNamed? r.new s.declarationIdentifiers = .ok none := by
  unfold checkRename
  constructor
  · intro h
    obtain ⟨⟨⟩, hvalid, h⟩ := bind_eq_ok_iff.mp h
    obtain ⟨c, hc, h⟩ := bind_eq_ok_iff.mp h
    obtain ⟨b, hb, h⟩ := bind_eq_ok_iff.mp h
    rw [Refusal.ofRead_eq_ok_iff] at hc hb
    cases b with
    | none => cases h
    | some b =>
      obtain ⟨ns, hns, h⟩ := bind_eq_ok_iff.mp h
      rw [Refusal.ofRead_eq_ok_iff] at hns
      by_cases hmem : r.new ∈ ns
      · rw [if_pos (List.contains_iff_mem.mpr hmem)] at h
        cases h
      · rw [if_neg fun hc => hmem (List.contains_iff_mem.mp hc)] at h
        obtain ⟨d, hd, h⟩ := bind_eq_ok_iff.mp h
        rw [Refusal.ofRead_eq_ok_iff] at hd
        cases d with
        | some d => cases h
        | none =>
          cases h
          exact ⟨hvalid, ⟨c, hc⟩, hb, ⟨ns, hns, hmem⟩, hd⟩
  · rintro ⟨hvalid, ⟨c, hc⟩, ha, ⟨ns, hns, hmem⟩, hd⟩
    have hcontains : ¬ ns.contains r.new = true := fun h => hmem (List.contains_iff_mem.mp h)
    refine bind_eq_ok_iff.mpr ⟨(), hvalid, ?_⟩
    refine bind_eq_ok_iff.mpr ⟨c, Refusal.ofRead_eq_ok_iff.mpr hc, ?_⟩
    refine bind_eq_ok_iff.mpr ⟨some a, Refusal.ofRead_eq_ok_iff.mpr ha, ?_⟩
    refine bind_eq_ok_iff.mpr ⟨ns, Refusal.ofRead_eq_ok_iff.mpr hns, ?_⟩
    rw [if_neg hcontains]
    exact bind_eq_ok_iff.mpr ⟨none, Refusal.ofRead_eq_ok_iff.mpr hd, rfl⟩

/-- The usages to rename are the targets of the old name; none unless they are wanted. -/
theorem usages_eq_ok {is : List Identifier} (h : s.usages r wanted = .ok is) :
    is = if wanted then s.targets.filter fun i => Identifier.spelling? i == some r.old else [] := by
  unfold usages at h
  cases wanted with
  | true => exact (Identifier.allNamed_eq_ok_iff.mp h).2
  | false => exact (Except.ok.inj h).symm

theorem usages_sublist {is : List Identifier} (h : s.usages r wanted = .ok is) :
    is.Sublist s.targets := by
  rw [usages_eq_ok h]
  split
  · exact List.filter_sublist
  · exact List.nil_sublist _

/-- A rename gives edits exactly if the check accepts it and all targets can be read. -/
theorem renameEdits_eq_ok_iff : s.renameEdits r wanted = .ok edits ↔
    ∃ a is, s.checkRename r = .ok a ∧ s.usages r wanted = .ok is ∧
      edits = Edit.respell r.new (a :: is) := by
  unfold renameEdits
  constructor
  · intro h
    obtain ⟨a, ha, h⟩ := bind_eq_ok_iff.mp h
    obtain ⟨is, his, h⟩ := bind_eq_ok_iff.mp h
    exact ⟨a, is, ha, Refusal.ofRead_eq_ok_iff.mp his, (Except.ok.inj h).symm⟩
  · rintro ⟨a, is, ha, his, rfl⟩
    refine bind_eq_ok_iff.mpr ⟨a, ha, ?_⟩
    exact bind_eq_ok_iff.mpr ⟨is, Refusal.ofRead_eq_ok_iff.mpr his, rfl⟩

/-- The alias that the check gives is one of the scope's, and spelled as the old name. -/
theorem mem_aliasIdentifiers_of_checkRename (h : s.checkRename r = .ok a) :
    a ∈ s.aliasIdentifiers ∧ Identifier.spelling? a = some r.old := by
  obtain ⟨-, -, ha, -, -⟩ := checkRename_eq_ok_iff.mp h
  obtain ⟨before, after, hsplit, hname, -⟩ := Identifier.firstNamed?_eq_some_iff.mp ha
  exact ⟨by rw [hsplit]; simp, hname⟩

/-- Every identifier that an accepted rename respells is an element of the file and is spelled as
the old name. -/
theorem renamed_spelled {is : List Identifier} (ha : s.checkRename r = .ok a)
    (his : s.usages r wanted = .ok is) :
    ∀ i ∈ a :: is, i.cursor ∈ s.file.cursor.elements ∧ Identifier.spelling? i = some r.old := by
  obtain ⟨hmem, hname⟩ := mem_aliasIdentifiers_of_checkRename ha
  rw [List.forall_mem_cons]
  refine ⟨⟨mem_file_of_mem_aliasIdentifiers hmem, hname⟩, fun i hi => ?_⟩
  rw [usages_eq_ok his] at hi
  split at hi
  · obtain ⟨hi, hold⟩ := List.mem_filter.mp hi
    exact ⟨mem_file_of_mem_targets hi, beq_iff_eq.mp hold⟩
  · exact absurd hi List.not_mem_nil

end Scope

/-- Whether a tree has a scope for a binding that accepts a rename. -/
def Tree.accepts (t : Tree) (b : Binding) (r : Request) (wanted : Bool) : Bool :=
  match Scope.bind t b with
  | .ok s => (s.renameEdits r wanted).isOk
  | .error _ => false

theorem Tree.accepts_iff {t : Tree} {b : Binding} {r : Request} {wanted : Bool} :
    t.accepts b r wanted = true ↔
      ∃ s edits, Scope.bind t b = .ok s ∧ s.renameEdits r wanted = .ok edits := by
  unfold accepts
  cases Scope.bind t b with
  | error e => exact ⟨nofun, fun ⟨_, _, h, _⟩ => nomatch h⟩
  | ok s =>
    simp only [Except.ok.injEq, exists_eq_left', exists_and_left]
    cases s.renameEdits r wanted with
    | error e => exact ⟨nofun, fun ⟨_, h⟩ => nomatch h⟩
    | ok edits => exact ⟨fun _ => ⟨edits, rfl⟩, fun _ => rfl⟩

end Nesc
