import Mathlib.Data.List.Induction
import Nesc.Proofs.Scope.AliasMap

/-!
# The alias map, entry by entry

Each step that builds the map takes in one reference: its alias becomes a key unless the same node
is a key already, and its interface becomes the value at that key. Hence the keys are different
nodes and come in the order of the aliases (`AliasMap.pairwise_keys`, `AliasMap.keys_sublist`), in
any file.

Two aliases without text can be the same node, and then the second overwrites the first. If every
alias has text, references with the same alias are one reference, which can only have been listed
twice. The map then has one entry for each reference that has an alias and an interface, where the
reference is first listed (`AliasMap.entries_ofReferences_of_distinct`).
-/

namespace Nesc

theorem Node.width_pos_iff {k : Kind} {n : Node k} : 0 < n.cursor.tree.width ↔ n.text ≠ "" :=
  Cursor.width_pos_iff

theorem eraseDups_concat {α : Type} [DecidableEq α] (xs : List α) (x : α) :
    (xs ++ [x]).eraseDups = if x ∈ xs then xs.eraseDups else xs.eraseDups ++ [x] := by
  rw [List.eraseDups_append]
  by_cases h : x ∈ xs <;> simp [List.removeAll, h, List.eraseDups_cons]

namespace AliasMap

/-- The aliases that have an entry, in the order of the entries. -/
def keys (m : AliasMap) : List Identifier := m.entries.map Prod.fst

/-! ## One step -/

/-- Putting a value at a key adds the key at the end, unless the same node is there. -/
theorem map_fst_insertEntry (key value : Identifier) (es : List (Identifier × Identifier)) :
    (insertEntry key value es).map Prod.fst =
      if ∃ e ∈ es, e.1.cursor.Same key.cursor then es.map Prod.fst
      else es.map Prod.fst ++ [key] := by
  induction es with
  | nil => simp [insertEntry]
  | cons e es ih =>
    rw [insertEntry]
    by_cases he : e.1.cursor.Same key.cursor
    · simp [he]
    · simp only [he, List.mem_cons, exists_eq_or_imp, false_or, ↓reduceIte, List.map_cons, ih]
      split <;> rfl

/-- Taking in a reference keeps the keys as they are, or its alias is a new key and comes last. -/
theorem keys_addReference (m : AliasMap) (r : InterfaceReference) :
    (m.addReference r).keys = m.keys ∨ ∃ a, InterfaceReference.alias? r = some a ∧
      (∀ k ∈ m.keys, ¬ k.cursor.Same a.cursor) ∧ (m.addReference r).keys = m.keys ++ [a] := by
  cases hpair : InterfaceReference.pair? r with
  | none => exact .inl (by rw [addReference_of_none hpair])
  | some p =>
    obtain ⟨ha, -⟩ := InterfaceReference.pair?_eq_some_iff.mp hpair
    have hkeys := map_fst_insertEntry p.1 p.2 m.entries
    rw [addReference_of_some hpair]
    split at hkeys
    next => exact .inl hkeys
    next hno =>
      refine .inr ⟨p.1, ha, fun k hk hsame => hno ?_, hkeys⟩
      obtain ⟨e, he, rfl⟩ := List.mem_map.mp hk
      exact ⟨e, he, hsame⟩

/-- An entry that is there already, and is the only one at its node, is put in its own place. -/
theorem insertEntry_of_mem {key value : Identifier} {es : List (Identifier × Identifier)}
    (hmem : (key, value) ∈ es)
    (honly : ∀ e ∈ es, e.1.cursor.Same key.cursor → e = (key, value)) :
    insertEntry key value es = es := by
  induction es with
  | nil => exact absurd hmem List.not_mem_nil
  | cons e es ih =>
    obtain ⟨he, hes⟩ := List.forall_mem_cons.mp honly
    rw [insertEntry]
    split
    next hsame => rw [he hsame]
    next hnot =>
      rcases List.mem_cons.mp hmem with rfl | hmem
      · exact absurd (.refl _) hnot
      · rw [ih hmem hes]

/-! ## All references -/

theorem ofReferences_concat (rs : List InterfaceReference) (r : InterfaceReference) :
    ofReferences (rs ++ [r]) = (ofReferences rs).addReference r := by
  rw [ofReferences, List.foldl_append]
  rfl

/-- The keys are aliases of the references, in their order. -/
theorem keys_sublist (rs : List InterfaceReference) :
    (ofReferences rs).keys.Sublist (rs.filterMap InterfaceReference.alias?) := by
  induction rs using List.reverseRecOn with
  | nil => exact .slnil
  | append_singleton rs r ih =>
    rw [ofReferences_concat, List.filterMap_append]
    rcases keys_addReference (ofReferences rs) r with hkeys | ⟨a, ha, -, hkeys⟩
    · rw [hkeys]
      exact ih.trans (List.sublist_append_left ..)
    · rw [hkeys, List.filterMap_cons_some ha, List.filterMap_nil]
      exact ih.append (.refl _)

theorem pairwise_keys (rs : List InterfaceReference) :
    (ofReferences rs).keys.Pairwise fun a b => ¬ a.cursor.Same b.cursor := by
  induction rs using List.reverseRecOn with
  | nil => exact .nil
  | append_singleton rs r ih =>
    rw [ofReferences_concat]
    rcases keys_addReference (ofReferences rs) r with hkeys | ⟨a, -, hnew, hkeys⟩
    · rw [hkeys]
      exact ih
    · rw [hkeys, List.pairwise_append]
      refine ⟨ih, List.pairwise_singleton .., fun k hk b hb => ?_⟩
      rw [List.mem_singleton.mp hb]
      exact hnew k hk

/-- If different references have their aliases at different nodes, then each reference that has an
alias and an interface has an entry where it is first listed. -/
theorem entries_ofReferences_of_distinct {rs : List InterfaceReference}
    (h : ∀ q ∈ rs, ∀ r ∈ rs, q ≠ r → q.Apart r) :
    (ofReferences rs).entries = rs.eraseDups.filterMap InterfaceReference.pair? := by
  induction rs using List.reverseRecOn with
  | nil => rfl
  | append_singleton rs r ih =>
    have hentries := ih fun q hq q' hq' =>
      h q (List.mem_append_left _ hq) q' (List.mem_append_left _ hq')
    rw [ofReferences_concat, eraseDups_concat]
    cases hpair : InterfaceReference.pair? r with
    | none =>
      rw [addReference_of_none hpair, hentries]
      split
      · rfl
      · simp [hpair]
    | some p =>
      obtain ⟨hp, -⟩ := InterfaceReference.pair?_eq_some_iff.mp hpair
      -- An entry at the node of the new alias comes from the new reference itself.
      have hsame : ∀ e ∈ (ofReferences rs).entries, e.1.cursor.Same p.1.cursor →
          r ∈ rs ∧ e = p := by
        intro e he hep
        rw [hentries] at he
        obtain ⟨q, hq, hqe⟩ := List.mem_filterMap.mp he
        rw [List.mem_eraseDups] at hq
        by_cases hqr : q = r
        · subst hqr
          exact ⟨hq, Option.some.inj (hqe.symm.trans hpair)⟩
        · have hapart := h q (by simp [hq]) r (by simp) hqr
          exact absurd hep (hapart e.1 p.1 (InterfaceReference.pair?_eq_some_iff.mp hqe).1 hp)
      rw [addReference_of_some hpair]
      split
      next hmem =>
        rw [← hentries]
        refine insertEntry_of_mem ?_ fun e he hep => (hsame e he hep).2
        rw [hentries]
        exact List.mem_filterMap.mpr ⟨r, List.mem_eraseDups.mpr hmem, hpair⟩
      next hmem =>
        rw [List.filterMap_append, ← hentries, List.filterMap_cons_some hpair, List.filterMap_nil]
        exact insertEntry_of_new fun e he hep => hmem (hsame e he hep).1

end AliasMap

namespace Scope

variable {s : Scope}

/-- References whose aliases have text do not share an alias with others. -/
theorem apart_of_text (htext : ∀ a ∈ s.aliasIdentifiers, a.text ≠ "") :
    ∀ q ∈ s.references, ∀ r ∈ s.references, q ≠ r → q.Apart r := by
  intro q hq r hr hne a b ha hb hsame
  have hamem := mem_aliasIdentifiers.mpr ⟨q, hq, ha⟩
  have hbmem := mem_aliasIdentifiers.mpr ⟨r, hr, hb⟩
  have hcursor := hsame.eq_of_width_pos (mem_file_of_mem_aliasIdentifiers hamem)
    (mem_file_of_mem_aliasIdentifiers hbmem) (Node.width_pos_iff.mpr (htext a hamem))
  have hab : a = b := Node.ext_cursor hcursor
  exact hne (reference_unique hq hr ha (hab ▸ hb))

/-- The interface of a reference without an alias is no value of the map. -/
theorem not_same_value {r : InterfaceReference} {i : Identifier} (hr : r ∈ s.references)
    (ha : InterfaceReference.alias? r = none) (hi : InterfaceReference.interface? r = some i)
    (htext : i.text ≠ "") {e : Identifier × Identifier} (he : e ∈ s.aliasMap.entries) :
    ¬ e.2.cursor.Same i.cursor := by
  intro hsame
  obtain ⟨q, hq, hqa, hqi⟩ := AliasMap.exists_reference_of_mem_entries he
  have hie : i = e.2 := Node.ext_cursor (hsame.symm.eq_of_width_pos (mem_file_of_interface? hr hi)
    (mem_file_of_interface? hq hqi) (Node.width_pos_iff.mpr htext))
  have hqr : q = r := reference_unique_of_interface? hq hr hqi (hie ▸ hi)
  rw [hqr] at hqa
  exact hqa ha

/-- The alias map is an ordered view of the aliased references. In any file its keys are different
nodes and come in the order of the aliases, and its values are identifiers of referenced interfaces.
If the aliases have text, its entries are those of the references that have both, each once and
where it is first listed. The interface of a reference without an alias is one of the referenced
interfaces, but, if it has text, not a value of the map. -/
theorem aliasMap_view (s : Scope) :
    (s.aliasMap.keys.Pairwise fun a b => ¬ a.cursor.Same b.cursor) ∧
    s.aliasMap.keys.Sublist s.aliasIdentifiers ∧
    (∀ e ∈ s.aliasMap.entries, e.2 ∈ s.interfaceIdentifiers) ∧
    ((∀ a ∈ s.aliasIdentifiers, a.text ≠ "") →
      s.aliasMap.entries = s.references.eraseDups.filterMap InterfaceReference.pair?) ∧
    ∀ r ∈ s.references, InterfaceReference.alias? r = none →
      ∀ i, InterfaceReference.interface? r = some i → i ∈ s.interfaceIdentifiers ∧
        (i.text ≠ "" → ∀ e ∈ s.aliasMap.entries, ¬ e.2.cursor.Same i.cursor) := by
  refine ⟨AliasMap.pairwise_keys _, AliasMap.keys_sublist _, fun e he => ?_, fun htext => ?_,
    fun r hr ha i hi => ⟨?_, fun htext e he => not_same_value hr ha hi htext he⟩⟩
  · obtain ⟨r, hr, -, hi⟩ := AliasMap.exists_reference_of_mem_entries he
    exact List.mem_filterMap.mpr ⟨r, hr, hi⟩
  · exact AliasMap.entries_ofReferences_of_distinct (apart_of_text htext)
  · exact List.mem_filterMap.mpr ⟨r, hr, hi⟩

/-- Two references have aliases of one spelling, the first of them is listed twice, and a third has
no alias. -/
theorem aliasMap_view_listedTwice :
    let entry (ts : Forest) : Tree := .node .parameterizedInterface [.node .interfaceReference ts]
    let type (n : String) : Tree := .node .interfaceType [.identifier n]
    let t : Tree := .node .sourceFile [.node .component [.identifier "M", .node .accessList [
      .node .access [.node .parameterizedInterfaceList [
        .node .access [.node .parameterizedInterfaceList [
          entry [type "I", .mark .asKw, .identifier "A"]]],
        entry [type "J", .mark .asKw, .identifier "A"], entry [type "K"]]]]]]
    ∃ s, bind t (.index 0) = .ok s ∧ s.references.length = 4 ∧ s.aliasMap.size = 2 ∧
      (∀ a ∈ s.aliasIdentifiers, a.text ≠ "") ∧
      s.aliasMap.entries = s.references.eraseDups.filterMap InterfaceReference.pair? ∧
      ∃ r ∈ s.references, InterfaceReference.alias? r = none ∧
        ∃ i, InterfaceReference.interface? r = some i ∧ i.text ≠ "" ∧
          ∀ e ∈ s.aliasMap.entries, ¬ e.2.cursor.Same i.cursor := by
  intro entry type t
  have htest : ((bind t (.index 0)).toOption.any fun s =>
      s.references.length == 4 && s.aliasMap.size == 2 && s.aliasIdentifiers.all (·.text != "") &&
        s.references.any fun r => (InterfaceReference.alias? r).isNone &&
          (InterfaceReference.interface? r).any (·.text != "")) = true := by
    decide +kernel
  obtain ⟨s, hs, htest⟩ := exists_bind_of_any htest
  simp only [Bool.and_eq_true, beq_iff_eq, List.all_eq_true, bne_iff_ne, List.any_eq_true,
    Option.isNone_iff_eq_none, Option.any_eq_true] at htest
  obtain ⟨⟨⟨hlength, hsize⟩, htext⟩, r, hr, ha, i, hi, hitext⟩ := htest
  obtain ⟨-, -, -, hentries, hothers⟩ := aliasMap_view s
  exact ⟨s, hs, hlength, hsize, htext, hentries htext, r, hr, ha, i, hi, hitext,
    (hothers r hr ha i hi).2 hitext⟩

end Scope

end Nesc
