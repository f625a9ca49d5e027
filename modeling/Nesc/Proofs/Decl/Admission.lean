import Nesc.Proofs.Decl.Capture
import Nesc.Proofs.Decl.Intact
import Nesc.Proofs.Decl.Renaming
import Nesc.Proofs.Rename.Refused

/-!
# Renames that a description admits

Whether a rename is accepted in a layout can be read off the description of the component
(`Decl.Component.Admits`): the request is valid, the old name is an alias, and the new one is not taken.
Nothing can stop a rename on the way, as every name of a layout can be read. So a scope of a layout
does to the text what renaming does to the description (`Scope.Renames`), and what happens in a
sequence of renames can be worked out on descriptions.
-/

namespace Nesc

namespace Decl.Component

/-- The names that are taken in a component: those under which it sees its interfaces, and those of its
bare commands and events. -/
def usedNames (d : Component) : List String :=
  d.entries.filterMap Entry.local? ++ d.bares.map Bare.name

/-- A rename can be carried out in the component. -/
structure Admits (d : Component) (r : Request) : Prop where
  valid : r.validate = .ok ()
  aliased : ∃ e ∈ d.entries, e.alias? = some r.old
  unused : r.new ∉ d.usedNames

variable {d : Component}

theorem mem_usedNames {n : String} : n ∈ d.usedNames ↔
    (∃ e ∈ d.entries, e.local? = some n) ∨ ∃ b ∈ d.bares, b.name = n := by
  simp [usedNames]

theorem mem_usedNames_of_alias? {e : Entry} {n : String} (he : e ∈ d.entries)
    (h : e.alias? = some n) : n ∈ d.usedNames :=
  mem_usedNames.mpr (.inl ⟨e, he, Entry.local?_of_alias? h⟩)

end Decl.Component

namespace Scope

variable {s : Scope} {d : Decl.Component} {r : Request} {wanted : Bool}

/-- An alias is found in the scope exactly if an entry has it. -/
theorem Declares.exists_aliasNamed?_iff (h : s.Declares d) {n : String} :
    (∃ a, s.aliasNamed? n = .ok (some a)) ↔ ∃ e ∈ d.entries, e.alias? = some n := by
  have hany : s.isAliasName n = .ok true ↔ ∃ e ∈ d.entries, e.alias? = some n := by
    rw [h.isAliasName]
    simp [Decl.Entry.isAliased]
  rw [← hany, Scope.isAliasName, map_eq_ok_iff]
  constructor
  · rintro ⟨a, ha⟩
    exact ⟨some a, ha, rfl⟩
  · rintro ⟨a?, ha, hsome⟩
    obtain ⟨a, rfl⟩ := Option.isSome_iff_exists.mp hsome
    exact ⟨a, ha⟩

/-- No bare declaration of the scope has the name exactly if none of the description has it. -/
theorem Declares.firstNamed?_declarations_iff (h : s.Declares d) {n : String} :
    Identifier.firstNamed? n s.declarationIdentifiers = .ok none ↔ ∀ b ∈ d.bares, b.name ≠ n := by
  have hnames := Identifier.names_eq_ok_iff.mp h.declarations
  have hmem : ∀ o, o ∈ s.declarationIdentifiers.map Identifier.spelling? ↔
      ∃ b ∈ d.bares, some b.name = o := by
    intro o
    rw [hnames]
    simp
  rw [Identifier.firstNamed?_eq_none_iff]
  constructor
  · rintro hall b hb rfl
    obtain ⟨i, hi, hspelled⟩ := List.mem_map.mp ((hmem _).mpr ⟨b, hb, rfl⟩)
    obtain ⟨m, hm, hne⟩ := hall i hi
    exact hne (Option.some.inj (hm.symm.trans hspelled))
  · intro hall i hi
    obtain ⟨b, hb, hspelled⟩ := (hmem _).mp (List.mem_map_of_mem hi)
    exact ⟨b.name, hspelled.symm, hall b hb⟩

/-- On a layout the check accepts what the description admits: the two ways to say that a name is in
use agree. -/
theorem Declares.exists_checkRename_iff (h : s.Declares d) (hintact : s.file.tree.Intact) :
    (∃ a, s.checkRename r = .ok a) ↔ d.Admits r := by
  have hname : ∃ c, s.name = .ok c := by
    cases hc : s.name with
    | ok c => exact ⟨c, rfl⟩
    | error m => exact absurd (hasFault_of_name hc) (hintact.not_hasFault m)
  have hunused : r.new ∉ d.usedNames ↔
      r.new ∉ d.entries.filterMap Decl.Entry.local? ∧ ∀ b ∈ d.bares, b.name ≠ r.new := by
    simp [Decl.Component.usedNames]
  constructor
  · rintro ⟨a, ha⟩
    obtain ⟨hvalid, -, hold, ⟨ns, hns, hnew⟩, hbare⟩ := checkRename_eq_ok_iff.mp ha
    rw [h.localNames] at hns
    cases hns
    exact ⟨hvalid, h.exists_aliasNamed?_iff.mp ⟨a, hold⟩,
      hunused.mpr ⟨hnew, h.firstNamed?_declarations_iff.mp hbare⟩⟩
  · intro hd
    obtain ⟨a, ha⟩ := h.exists_aliasNamed?_iff.mpr hd.aliased
    obtain ⟨hnew, hbare⟩ := hunused.mp hd.unused
    exact ⟨a, checkRename_eq_ok_iff.mpr ⟨hd.valid, hname, ha, ⟨_, h.localNames, hnew⟩,
      h.firstNamed?_declarations_iff.mpr hbare⟩⟩

/-- In an intact file only the check can refuse a rename; the usages can always be read. -/
theorem exists_renameEdits_iff (hintact : s.file.tree.Intact) :
    (∃ edits, s.renameEdits r wanted = .ok edits) ↔ ∃ a, s.checkRename r = .ok a := by
  constructor
  · rintro ⟨edits, h⟩
    obtain ⟨a, -, ha, -, -⟩ := renameEdits_eq_ok_iff.mp h
    exact ⟨a, ha⟩
  · rintro ⟨a, ha⟩
    cases his : s.usages r wanted with
    | ok is => exact ⟨_, renameEdits_eq_ok_iff.mpr ⟨a, is, ha, his, rfl⟩⟩
    | error m => exact absurd (hasFault_of_usages his) (hintact.not_hasFault m)

/-- A scope of the layout of `ds` whose component is `d`, at index `i`, accepts the renames that `d`
admits, and their edits make of the text what the renames make of the description. -/
structure Renames (s : Scope) (ds : Decl.File) (i : Nat) (d : Decl.Component) : Prop where
  accepts : ∀ r wanted, (∃ edits, s.renameEdits r wanted = .ok edits) ↔ d.Admits r
  applyAll : ∀ r wanted edits, s.renameEdits r wanted = .ok edits →
    Edit.applyAll edits (Text.bytes (Decl.File.tree ds).text) =
      Text.bytes (Decl.File.tree (Decl.File.rename i r wanted ds)).text

/-- A rename that the description admits gives edits that carry its layout over into that of the
renamed description. -/
theorem Renames.exists_edits {ds : Decl.File} {i : Nat} (h : s.Renames ds i d) (hd : d.Admits r)
    (wanted : Bool) : ∃ edits, s.renameEdits r wanted = .ok edits ∧
      Edit.applyAll edits (Text.bytes (Decl.File.tree ds).text) =
        Text.bytes (Decl.File.tree (Decl.File.rename i r wanted ds)).text := by
  obtain ⟨edits, hedits⟩ := (h.accepts r wanted).mpr hd
  exact ⟨edits, hedits, h.applyAll r wanted edits hedits⟩

/-- Every component of a layout has a scope, and the scope knows how renames act on the
description. -/
theorem exists_renames {ds : Decl.File} {i : Nat} (h : ds[i]? = some d) :
    ∃ s, bind (Decl.File.tree ds) (.index i) = .ok s ∧ s.Renames ds i d := by
  obtain ⟨us, vs, rfl, rfl⟩ : ∃ us vs, ds = us ++ d :: vs ∧ us.length = i := by
    obtain ⟨hi, rfl⟩ := List.getElem?_eq_some_iff.mp h
    exact ⟨ds.take i, ds.drop (i + 1), by simp, by simp; omega⟩
  obtain ⟨s, hs, hfile, hof⟩ := exists_bind_layout us vs d
  have hdeclares : s.Declares d := declares_of_layout (by rw [Node.tree, specification_of_layout hof])
  have hintact : s.file.tree.Intact := by
    rw [hfile]
    exact Decl.File.intact_tree _
  refine ⟨s, hs, fun r wanted => ?_, fun r wanted edits hedits => ?_⟩
  · rw [exists_renameEdits_iff hintact, hdeclares.exists_checkRename_iff hintact]
  · have hrename : Decl.File.rename us.length r wanted (us ++ d :: vs) =
        us ++ d.rename r wanted :: vs := by
      rw [Decl.File.rename, List.modify_eq_take_cons_drop (by simp)]
      simp
    rw [hrename]
    exact applyAll_of_layout hof hedits

end Scope

end Nesc
