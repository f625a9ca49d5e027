import Nesc.Decl.Basic
import Nesc.Proofs.Decl.Declared
import Nesc.Proofs.Rename.Accepted

/-!
# What the targets mean after a rename

The check of a rename looks at the specification alone. A statement that uses the new name already
is not seen: its target meant nothing, and is captured by the renamed alias. Every other statement
keeps the meaning of its target. The entries carry the argument: among them a rename moves one alias
(`Decl.Entry.renameFirst`), and what a name means is a search (`Decl.Entry.meaning`).
-/

namespace Nesc

namespace Decl

/-! ## Entries after a rename -/

namespace Entry

variable {r : Request} {es : List Entry}

/-- Renaming in an appended list happens in the first part if the old alias is there, else in the
second. -/
theorem renameFirst_append (fs : List Entry) : renameFirst r (es ++ fs) =
    if es.any (isAliased r.old) then renameFirst r es ++ fs else es ++ renameFirst r fs := by
  induction es with
  | nil => rfl
  | cons e es ih =>
    rw [List.cons_append, renameFirst, renameFirst, List.any_cons, ih]
    by_cases he : e.alias? = some r.old
    · simp [he, isAliased]
    · simp only [he, isAliased, beq_eq_false_iff_ne.mpr he, Bool.false_or, if_false]
      split <;> rfl

/-- A search that the new alias does not change finds the same entry. -/
theorem findIdx?_renameFirst {p : Entry → Bool}
    (h : ∀ e : Entry, e.alias? = some r.old → p { e with alias? := some r.new } = p e) :
    (renameFirst r es).findIdx? p = es.findIdx? p := by
  induction es with
  | nil => rfl
  | cons e es ih =>
    rw [renameFirst]
    by_cases he : e.alias? = some r.old
    · rw [if_pos he, List.findIdx?_cons, List.findIdx?_cons, h e he]
    · rw [if_neg he, List.findIdx?_cons, List.findIdx?_cons, ih]

/-- The first entry of the old alias is the first of the new one, if that is in no use. -/
theorem findIdx?_renameFirst_new (h : ∀ e ∈ es, e.alias? ≠ some r.new) :
    (renameFirst r es).findIdx? (isAliased r.new) = es.findIdx? (isAliased r.old) := by
  induction es with
  | nil => rfl
  | cons e es ih =>
    obtain ⟨hnew, hrest⟩ := List.forall_mem_cons.mp h
    rw [renameFirst]
    by_cases he : e.alias? = some r.old
    · rw [if_pos he, List.findIdx?_cons, List.findIdx?_cons, isAliased, isAliased, he,
        beq_self_eq_true, beq_self_eq_true]
      rfl
    · rw [if_neg he, List.findIdx?_cons, List.findIdx?_cons, ih hrest, isAliased, isAliased,
        beq_eq_false_iff_ne.mpr he, beq_eq_false_iff_ne.mpr hnew]

/-- Only an alias changes; the interfaces that the entries name stay. -/
theorem map_name?_renameFirst : (renameFirst r es).map name? = es.map name? := by
  induction es with
  | nil => rfl
  | cons e es ih =>
    rw [renameFirst]
    by_cases he : e.alias? = some r.old
    · rw [if_pos he]
      rfl
    · rw [if_neg he, List.map_cons, List.map_cons, ih]

theorem bind_name?_renameFirst (k : Nat) :
    (renameFirst r es)[k]?.bind name? = es[k]?.bind name? := by
  have hnames : (renameFirst r es).map name? = es.map name? := map_name?_renameFirst
  have hk : ((renameFirst r es).map name?)[k]?.bind id = (es.map name?)[k]?.bind id := by rw [hnames]
  rwa [List.getElem?_map, List.getElem?_map, Option.bind_map, Option.bind_map] at hk

/-- Names other than the old and the new one mean the same entries before and after. -/
theorem meaning_renameFirst {n : String} (hold : n ≠ r.old) (hnew : n ≠ r.new) :
    meaning (renameFirst r es) n = meaning es n := by
  have halias : (renameFirst r es).findIdx? (isAliased n) = es.findIdx? (isAliased n) := by
    apply findIdx?_renameFirst
    intro e he
    simp [isAliased, he, Ne.symm hold, Ne.symm hnew]
  have hplain : (renameFirst r es).findIdx? (isPlain n) = es.findIdx? (isPlain n) := by
    apply findIdx?_renameFirst
    intro e he
    simp [isPlain, he]
  simp only [meaning, halias, hplain, bind_name?_renameFirst]

theorem local?_of_alias? {e : Entry} {n : String} (h : e.alias? = some n) : e.local? = some n := by
  rw [local?, h]
  rfl

/-- An alias that is renamed takes its meaning along, if no entry is seen under the new name. -/
theorem meaning_renameFirst_new {k : Nat} (hnew : r.new ∉ es.filterMap local?)
    (hk : es.findIdx? (isAliased r.old) = some k) :
    meaning (renameFirst r es) r.new = meaning es r.old := by
  have halias : ∀ e ∈ es, e.alias? ≠ some r.new := by
    intro e he ha
    exact hnew (List.mem_filterMap.mpr ⟨e, he, local?_of_alias? ha⟩)
  simp only [meaning, findIdx?_renameFirst_new halias, hk, bind_name?_renameFirst]

/-- A name that no entry is seen under means nothing. -/
theorem meaning_of_not_mem {n : String} (h : n ∉ es.filterMap local?) : meaning es n = .nothing := by
  have hlocal : ∀ e ∈ es, e.local? ≠ some n := fun e he hn => h (List.mem_filterMap.mpr ⟨e, he, hn⟩)
  have halias : es.findIdx? (isAliased n) = none := by
    rw [List.findIdx?_eq_none_iff]
    intro e he
    rw [isAliased, beq_eq_false_iff_ne]
    intro ha
    exact hlocal e he (local?_of_alias? ha)
  have hplain : es.findIdx? (isPlain n) = none := by
    rw [List.findIdx?_eq_none_iff]
    intro e he
    rw [isPlain, Bool.and_eq_false_imp]
    intro ha
    rw [beq_eq_false_iff_ne]
    intro hn
    exact hlocal e he (by rw [local?, Option.isNone_iff_eq_none.mp ha, hn]; rfl)
  rw [meaning, halias, hplain]

end Entry

/-- Renaming clause by clause is renaming in the list of all entries: the first clause that has the
old alias holds the first entry that has it. -/
theorem Clause.entries_renameFirst (r : Request) (cs : List Clause) :
    (renameFirst r cs).flatMap (·.items.entries) =
      Entry.renameFirst r (cs.flatMap (·.items.entries)) := by
  induction cs with
  | nil => rfl
  | cons c cs ih =>
    have hany : c.items.entries.any (Entry.isAliased r.old) = c.items.hasAlias r.old := rfl
    rw [renameFirst, List.flatMap_cons, Entry.renameFirst_append, hany]
    cases hc : c.items.hasAlias r.old with
    | false => rw [if_neg Bool.false_ne_true, if_neg Bool.false_ne_true, List.flatMap_cons, ih]
    | true =>
      rw [if_pos rfl, if_pos rfl, List.flatMap_cons]
      obtain ⟨direction, items⟩ := c
      cases items <;> rfl

theorem Component.entries_rename (r : Request) (wanted : Bool) (d : Component) :
    (d.rename r wanted).entries = Entry.renameFirst r d.entries :=
  Clause.entries_renameFirst r d.clauses

theorem Statement.target_rename (r : Request) (st : Statement) :
    (st.rename r).target = if st.target = r.old then r.new else st.target := by
  unfold rename
  split <;> rfl

end Decl

/-! ## Accepted renames -/

namespace Scope

open Decl (Entry)

variable {s : Scope} {r : Request} {wanted : Bool} {edits : List Edit} {d : Decl.Component}

/-- An accepted rename finds an entry of the old alias, and none that is seen under the new name. -/
theorem Declares.of_renameEdits (h : s.Declares d) (hedits : s.renameEdits r wanted = .ok edits) :
    r.new ≠ r.old ∧ (∃ k, d.entries.findIdx? (Entry.isAliased r.old) = some k) ∧
      r.new ∉ d.entries.filterMap Entry.local? := by
  obtain ⟨a, is, ha, -, -⟩ := renameEdits_eq_ok_iff.mp hedits
  obtain ⟨hvalid, -, hold, ⟨ns, hns, hnew⟩, -⟩ := checkRename_eq_ok_iff.mp ha
  refine ⟨(Request.validate_eq_ok_iff.mp hvalid).2.2, ?_, ?_⟩
  · rw [h.aliasNamed?] at hold
    obtain ⟨k, hk, -⟩ := Option.bind_eq_some_iff.mp (Except.ok.inj hold)
    exact ⟨k, hk⟩
  · rw [h.localNames] at hns
    rwa [Except.ok.inj hns]

/-- Take a component of a file that is laid out and lay out the file after an accepted rename with
usages. A statement whose target is not the new name means the same on both sides, by the entry it
uses. A statement with the new name as its target meant nothing, and means what the old name meant. -/
theorem targets_after_rename (ds : Decl.File) (i : Fin ds.length) (r : Request) :
    ∃ s s', bind (Decl.File.tree ds) (.index i) = .ok s ∧
      bind (Decl.File.tree (Decl.File.rename i r true ds)) (.index i) = .ok s' ∧
      ∀ edits, s.renameEdits r true = .ok edits → ∀ st ∈ (ds.get i).statements,
        (st.target ≠ r.new → ∃ m, s.meaningOf st.target = .ok m ∧
          s'.meaningOf (st.rename r).target = .ok m) ∧
        (st.target = r.new → s.meaningOf st.target = .ok .nothing ∧
          ∃ k i?, s.meaningOf r.old = .ok (.byAlias k i?) ∧
            s'.meaningOf (st.rename r).target = .ok (.byAlias k i?)) := by
  have hd : ds[(i : Nat)]? = some (ds.get i) := List.getElem?_eq_getElem i.isLt
  have hd' : (Decl.File.rename i r true ds)[(i : Nat)]? = some ((ds.get i).rename r true) := by
    rw [Decl.File.rename, List.getElem?_modify_eq, hd]
    rfl
  obtain ⟨s, hs, hdeclares⟩ := exists_declares_of_getElem? hd
  obtain ⟨s', hs', hdeclares'⟩ := exists_declares_of_getElem? hd'
  refine ⟨s, s', hs, hs', ?_⟩
  intro edits hedits st _
  obtain ⟨hne, ⟨k, hk⟩, hnew⟩ := hdeclares.of_renameEdits hedits
  have hmoved := Entry.meaning_renameFirst_new hnew hk
  rw [Decl.Statement.target_rename, hdeclares.meaningOf, hdeclares.meaningOf, hdeclares'.meaningOf,
    Decl.Component.entries_rename]
  constructor
  · intro htarget
    refine ⟨_, rfl, ?_⟩
    -- A target that is the old name follows the alias; another one is looked up as before.
    by_cases hold : st.target = r.old
    · rw [if_pos hold, hmoved, hold]
    · rw [if_neg hold, Entry.meaning_renameFirst hold htarget]
  · intro htarget
    rw [htarget, if_neg hne, hmoved, Entry.meaning_of_not_mem hnew]
    refine ⟨rfl, k, (ds.get i).entries[k]?.bind Entry.name?, ?_, ?_⟩
    all_goals rw [Entry.meaning, hk]

/-- Two entries have the old alias, and the targets are the old alias, an interface that goes by its
own name, and the new name. -/
theorem targets_after_rename_twins :
    let d : Decl.Component := {
      kind := .module
      name := "M"
      clauses := [⟨.uses, .interfaces [⟨some "I", some "A", [], []⟩, ⟨some "K", none, [], []⟩]⟩,
        ⟨.provides, .interfaces [⟨none, some "A", [], []⟩]⟩]
      statements := [⟨.call, "A", "m"⟩, ⟨.signal, "K", "A"⟩, ⟨.call, "X", "m"⟩] }
    let r : Request := ⟨"A", "X"⟩
    ∃ s s' edits, bind (Decl.File.tree [d]) (.index 0) = .ok s ∧
      bind (Decl.File.tree (Decl.File.rename 0 r true [d])) (.index 0) = .ok s' ∧
      s.renameEdits r true = .ok edits ∧
      (∃ m, s.meaningOf "A" = .ok m ∧ s'.meaningOf "X" = .ok m) ∧
      (∃ m, s.meaningOf "K" = .ok m ∧ s'.meaningOf "K" = .ok m) ∧
      s.meaningOf "X" = .ok .nothing := by
  intro d r
  obtain ⟨s, s', hs, hs', htargets⟩ := targets_after_rename [d] 0 r
  obtain ⟨t, edits, ht, hedits⟩ := Tree.accepts_iff.mp
    (by decide +kernel : (Decl.File.tree [d]).accepts (.index 0) r true = true)
  cases hs.symm.trans ht
  have hmeaning := htargets edits hedits
  refine ⟨s, s', edits, hs, hs', hedits, ?_, ?_, ?_⟩
  · exact (hmeaning ⟨.call, "A", "m"⟩ (by decide)).1 (by decide)
  · exact (hmeaning ⟨.signal, "K", "A"⟩ (by decide)).1 (by decide)
  · exact ((hmeaning ⟨.call, "X", "m"⟩ (by decide)).2 rfl).1

/-- A target that means nothing is captured by a rename that is accepted. -/
theorem target_captured :
    let d : Decl.Component := {
      kind := .module
      name := "M"
      clauses := [⟨.provides, .interfaces [⟨some "I", some "A", [], []⟩]⟩]
      statements := [⟨.call, "X", "m"⟩] }
    let r : Request := ⟨"A", "X"⟩
    ∃ s s' edits, bind (Decl.File.tree [d]) (.index 0) = .ok s ∧
      bind (Decl.File.tree (Decl.File.rename 0 r true [d])) (.index 0) = .ok s' ∧
      s.renameEdits r true = .ok edits ∧
      ∃ st ∈ d.statements, s.meaningOf st.target = .ok .nothing ∧
        s'.meaningOf (st.rename r).target = .ok (.byAlias 0 (some "I")) := by
  intro d r
  obtain ⟨s, edits, hs, hedits⟩ := Tree.accepts_iff.mp
    (by decide +kernel : (Decl.File.tree [d]).accepts (.index 0) r true = true)
  have hd : [d][0]? = some d := rfl
  have hd' : (Decl.File.rename 0 r true [d])[0]? = some (d.rename r true) := rfl
  obtain ⟨t, ht, hdeclares⟩ := exists_declares_of_getElem? hd
  obtain ⟨s', hs', hdeclares'⟩ := exists_declares_of_getElem? hd'
  cases hs.symm.trans ht
  refine ⟨s, s', edits, hs, hs', hedits, _, List.mem_singleton_self _, ?_, ?_⟩
  · rw [hdeclares.meaningOf]
    rfl
  · rw [hdeclares'.meaningOf]
    rfl

end Scope

end Nesc
