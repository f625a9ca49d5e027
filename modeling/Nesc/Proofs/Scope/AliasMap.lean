import Mathlib.Data.List.Pairwise
import Nesc.Proofs.Node.Names
import Nesc.Proofs.Scope.Walk
import Nesc.Proofs.Tree.Places

/-!
# The alias map, key by key

A lookup in the alias map sees the last value put at the same node. For an alias that has text the
keys that count are the alias itself, at its own place, and the only reference with that alias is the
one right above it; so the map gives the interface of that reference, however often the reference
occurs and whatever else is spelled alike (`Scope.interfaceOf?_alias`).

If no two references have their alias at the same node, text or not, then every reference with both
an alias and an interface has an entry of its own (`AliasMap.entries_ofReferences`).
-/

namespace Nesc

namespace InterfaceReference

/-- The alias of a reference with the interface it renames. -/
def pair? (r : InterfaceReference) : Option (Identifier × Identifier) :=
  (alias? r).bind fun a => (interface? r).map fun i => (a, i)

/-- The aliases of two references, if they have any, are different nodes. -/
def Apart (q r : InterfaceReference) : Prop :=
  ∀ a b, alias? q = some a → alias? r = some b → ¬ a.cursor.Same b.cursor

instance : Std.Symm Apart where
  symm _ _ h a b ha hb hsame := h b a hb ha hsame.symm

theorem pair?_eq_some_iff {r : InterfaceReference} {p : Identifier × Identifier} :
    pair? r = some p ↔ alias? r = some p.1 ∧ interface? r = some p.2 := by
  obtain ⟨a, i⟩ := p
  rw [pair?]
  cases alias? r <;> cases interface? r <;> simp

end InterfaceReference

namespace AliasMap

/-- Looking for a key after an insertion finds the new value at the same node, and what was there at
others. The place of the entry plays no part. -/
theorem find?_insertEntry (key value k : Identifier) (es : List (Identifier × Identifier)) :
    ((insertEntry key value es).find? fun e => decide (e.1.cursor.Same k.cursor)).map (·.2) =
      if key.cursor.Same k.cursor then some value
      else (es.find? fun e => decide (e.1.cursor.Same k.cursor)).map (·.2) := by
  induction es with
  | nil => by_cases h : key.cursor.Same k.cursor <;> simp [insertEntry, h]
  | cons e es ih =>
    rw [insertEntry]
    by_cases he : e.1.cursor.Same key.cursor
    · -- The entry at the same node is overwritten: it answers for `k` exactly if `key` does.
      have hiff : e.1.cursor.Same k.cursor ↔ key.cursor.Same k.cursor :=
        ⟨fun h => he.symm.trans h, fun h => he.trans h⟩
      by_cases h : key.cursor.Same k.cursor
      · simp [he, h, hiff]
      · simp [he, h, hiff]
    · by_cases hk : e.1.cursor.Same k.cursor
      · have hno : ¬ key.cursor.Same k.cursor := fun h => he (hk.trans h.symm)
        simp [he, hk, hno]
      · rw [if_neg he, List.find?_cons_of_neg (by simpa using hk), ih,
          List.find?_cons_of_neg (by simpa using hk)]

theorem find?_insert (m : AliasMap) (key value k : Identifier) :
    (m.insert key value).find? k =
      if key.cursor.Same k.cursor then some value else m.find? k :=
  find?_insertEntry key value k m.entries

theorem addReference_of_some {r : InterfaceReference} {p : Identifier × Identifier}
    (h : InterfaceReference.pair? r = some p) (m : AliasMap) :
    m.addReference r = m.insert p.1 p.2 := by
  obtain ⟨ha, hi⟩ := InterfaceReference.pair?_eq_some_iff.mp h
  rw [addReference, ha, hi]

theorem addReference_of_none {r : InterfaceReference} (h : InterfaceReference.pair? r = none)
    (m : AliasMap) : m.addReference r = m := by
  rw [InterfaceReference.pair?] at h
  rw [addReference]
  cases ha : InterfaceReference.alias? r <;> cases hi : InterfaceReference.interface? r <;> simp_all

/-- If all references whose alias is at the node `k` have the interface `i?`, then taking them in
leaves `i?` at `k`, provided there is one or `i?` was there. -/
theorem find?_foldl_addReference {k : Identifier} {i? : Option Identifier}
    {rs : List InterfaceReference} {m : AliasMap}
    (hall : ∀ r ∈ rs, ∀ b, InterfaceReference.alias? r = some b → b.cursor.Same k.cursor →
      InterfaceReference.interface? r = i?)
    (hex : m.find? k = i? ∨ m.find? k = none ∧
      ∃ r ∈ rs, ∃ b, InterfaceReference.alias? r = some b ∧ b.cursor.Same k.cursor) :
    (rs.foldl addReference m).find? k = i? := by
  induction rs generalizing m with
  | nil =>
    rcases hex with h | ⟨-, r, hr, -⟩
    · exact h
    · exact absurd hr List.not_mem_nil
  | cons r rs ih =>
    obtain ⟨hr, hrs⟩ := List.forall_mem_cons.mp hall
    rw [List.foldl_cons]
    refine ih hrs ?_
    -- What `r` does to the value at `k`: nothing, unless its alias is at `k`.
    cases hb : InterfaceReference.alias? r with
    | none =>
      rw [show m.addReference r = m by rw [addReference, hb]]
      rcases hex with h | ⟨hnone, r', hr', b, hb', hsame⟩
      · exact .inl h
      · rcases List.mem_cons.mp hr' with rfl | hr'
        · cases hb.symm.trans hb'
        · exact .inr ⟨hnone, r', hr', b, hb', hsame⟩
    | some b =>
      by_cases hsame : b.cursor.Same k.cursor
      · have hi := hr b hb hsame
        left
        cases hv : InterfaceReference.interface? r with
        | none =>
          rw [show m.addReference r = m by rw [addReference, hb, hv]]
          rcases hex with h | ⟨hnone, -⟩
          · exact h
          · rw [hnone, ← hi, hv]
        | some v =>
          rw [show m.addReference r = m.insert b v by rw [addReference, hb, hv], find?_insert,
            if_pos hsame, ← hi, hv]
      · have hfind : (m.addReference r).find? k = m.find? k := by
          cases hv : InterfaceReference.interface? r with
          | none => rw [show m.addReference r = m by rw [addReference, hb, hv]]
          | some v =>
            rw [show m.addReference r = m.insert b v by rw [addReference, hb, hv], find?_insert,
              if_neg hsame]
        rw [hfind]
        rcases hex with h | ⟨hnone, r', hr', b', hb', hsame'⟩
        · exact .inl h
        · rcases List.mem_cons.mp hr' with rfl | hr'
          · cases hb.symm.trans hb'
            exact absurd hsame' hsame
          · exact .inr ⟨hnone, r', hr', b', hb', hsame'⟩

theorem insertEntry_of_new {key value : Identifier} {es : List (Identifier × Identifier)}
    (h : ∀ e ∈ es, ¬ e.1.cursor.Same key.cursor) :
    insertEntry key value es = es ++ [(key, value)] := by
  induction es with
  | nil => rfl
  | cons e es ih =>
    obtain ⟨he, hes⟩ := List.forall_mem_cons.mp h
    rw [insertEntry, if_neg he, ih hes, List.cons_append]

/-- References apart from one another, and from what the map has, are taken in one by one. -/
theorem entries_foldl_addReference {rs : List InterfaceReference} {m : AliasMap}
    (hm : ∀ e ∈ m.entries, ∀ r ∈ rs, ∀ b, InterfaceReference.alias? r = some b →
      ¬ e.1.cursor.Same b.cursor)
    (hrs : rs.Pairwise InterfaceReference.Apart) :
    (rs.foldl addReference m).entries =
      m.entries ++ rs.filterMap InterfaceReference.pair? := by
  induction rs generalizing m with
  | nil => rw [List.foldl_nil, List.filterMap_nil, List.append_nil]
  | cons r rs ih =>
    obtain ⟨hr, hrs⟩ := List.pairwise_cons.mp hrs
    have hold : ∀ e ∈ m.entries, ∀ q ∈ rs, ∀ b, InterfaceReference.alias? q = some b →
        ¬ e.1.cursor.Same b.cursor :=
      fun e he q hq => hm e he q (List.mem_cons_of_mem r hq)
    cases hpair : InterfaceReference.pair? r with
    | none =>
      rw [List.foldl_cons, addReference_of_none hpair, ih hold hrs, List.filterMap_cons_none hpair]
    | some p =>
      obtain ⟨ha, -⟩ := InterfaceReference.pair?_eq_some_iff.mp hpair
      have hnew : (m.addReference r).entries = m.entries ++ [p] := by
        rw [addReference_of_some hpair]
        exact insertEntry_of_new fun e he => hm e he r List.mem_cons_self p.1 ha
      rw [List.foldl_cons, ih ?_ hrs, hnew, List.filterMap_cons_some hpair, List.append_assoc,
        List.singleton_append]
      -- The new entry is apart from the references to come, as `r` is.
      intro e he q hq b hb
      rw [hnew] at he
      rcases List.mem_append.mp he with he | he
      · exact hold e he q hq b hb
      · rw [List.mem_singleton.mp he]
        exact hr q hq p.1 b ha hb

theorem entries_ofReferences {rs : List InterfaceReference}
    (h : rs.Pairwise InterfaceReference.Apart) :
    (ofReferences rs).entries = rs.filterMap InterfaceReference.pair? :=
  entries_foldl_addReference (m := {}) nofun h

theorem value_of_mem_insertEntry {key value : Identifier} {es : List (Identifier × Identifier)}
    {e : Identifier × Identifier} (h : e ∈ insertEntry key value es) :
    e.2 = value ∨ e ∈ es := by
  induction es with
  | nil =>
    rw [List.mem_singleton.mp h]
    exact .inl rfl
  | cons f es ih =>
    rw [insertEntry] at h
    split at h
    · rcases List.mem_cons.mp h with rfl | h
      · exact .inl rfl
      · exact .inr (List.mem_cons_of_mem f h)
    · rcases List.mem_cons.mp h with rfl | h
      · exact .inr List.mem_cons_self
      · exact (ih h).imp_right (List.mem_cons_of_mem f)

/-- Every value of the map is the interface of one of the aliased references it was made from. -/
theorem exists_reference_of_mem_entries {rs : List InterfaceReference} {e : Identifier × Identifier}
    (h : e ∈ (ofReferences rs).entries) :
    ∃ r ∈ rs, InterfaceReference.alias? r ≠ none ∧ InterfaceReference.interface? r = some e.2 := by
  revert e
  refine List.foldlRecOn (motive := fun m : AliasMap => ∀ {e}, e ∈ m.entries →
    ∃ r ∈ rs, InterfaceReference.alias? r ≠ none ∧ InterfaceReference.interface? r = some e.2)
    rs addReference (fun h => absurd h List.not_mem_nil) ?_
  intro m hm r hr e he
  cases hpair : InterfaceReference.pair? r with
  | none =>
    rw [addReference_of_none hpair] at he
    exact hm he
  | some p =>
    obtain ⟨ha, hi⟩ := InterfaceReference.pair?_eq_some_iff.mp hpair
    rw [addReference_of_some hpair] at he
    rcases value_of_mem_insertEntry he with hvalue | he
    · exact ⟨r, hr, by rw [ha]; exact nofun, by rw [hvalue, hi]⟩
    · exact hm he

end AliasMap

theorem Identifier.width_pos_of_spelling? {i : Identifier} {n : String}
    (h : spelling? i = some n) (hn : n ≠ "") : 0 < i.cursor.tree.width := by
  obtain ⟨d, hd, rfl⟩ := spelling?_eq_some_iff.mp h
  have hbounds := Cursor.children_bounds (token?_eq_some hd).1
  have hwidth : d.tree.width ≠ 0 := by
    rw [Tree.width_eq]
    exact fun h => hn (String.utf8ByteSize_eq_zero_iff.mp h)
  simp only [Cursor.stop] at hbounds
  omega

namespace Scope

variable {s : Scope}

/-- References of a scope with one alias are one reference. -/
theorem reference_unique {q r : InterfaceReference} {a : Identifier} (hq : q ∈ s.references)
    (hr : r ∈ s.references) (hqa : InterfaceReference.alias? q = some a)
    (hra : InterfaceReference.alias? r = some a) : q = r := by
  have hq' := mem_file_of_mem_references hq
  have hr' := mem_file_of_mem_references hr
  rw [s.cursor_file] at hq' hr'
  exact Node.ext_cursor (Cursor.parent_unique hq' hr' (InterfaceReference.mem_children_of_alias? hqa)
    (InterfaceReference.mem_children_of_alias? hra))

/-- References of a scope with one interface identifier are one reference. -/
theorem reference_unique_of_interface? {q r : InterfaceReference} {i : Identifier}
    (hq : q ∈ s.references) (hr : r ∈ s.references) (hqi : InterfaceReference.interface? q = some i)
    (hri : InterfaceReference.interface? r = some i) : q = r := by
  obtain ⟨t, ht, hti⟩ := InterfaceReference.mem_children_of_interface? hqi
  obtain ⟨u, hu, hui⟩ := InterfaceReference.mem_children_of_interface? hri
  have hq' := mem_file_of_mem_references hq
  have hr' := mem_file_of_mem_references hr
  rw [s.cursor_file] at hq' hr'
  have htu := Cursor.parent_unique (Cursor.mem_elements_of_mem_children hq' ht)
    (Cursor.mem_elements_of_mem_children hr' hu) hti hui
  exact Node.ext_cursor (Cursor.parent_unique hq' hr' ht (htu ▸ hu))

/-- The map takes an alias with text to the interface of the reference it belongs to. -/
theorem interfaceOf?_alias {r : InterfaceReference} {a : Identifier} (hr : r ∈ s.references)
    (ha : InterfaceReference.alias? r = some a) (hwidth : 0 < a.cursor.tree.width) :
    s.interfaceOf? a = InterfaceReference.interface? r := by
  refine AliasMap.find?_foldl_addReference ?_ (.inr ⟨rfl, r, hr, a, ha, .refl _⟩)
  intro q hq b hb hsame
  have hbmem := mem_file_of_mem_aliasIdentifiers (mem_aliasIdentifiers.mpr ⟨q, hq, hb⟩)
  have hamem := mem_file_of_mem_aliasIdentifiers (mem_aliasIdentifiers.mpr ⟨r, hr, ha⟩)
  have hba : b = a := Node.ext_cursor (hsame.symm.eq_of_width_pos hamem hbmem hwidth).symm
  rw [reference_unique hq hr (hba ▸ hb) ha]

/-- The same for any alias, if no two references have their alias at one node. -/
theorem interfaceOf?_of_apart (h : s.references.Pairwise InterfaceReference.Apart)
    {r : InterfaceReference} {a : Identifier} (hr : r ∈ s.references)
    (ha : InterfaceReference.alias? r = some a) :
    s.interfaceOf? a = InterfaceReference.interface? r := by
  refine AliasMap.find?_foldl_addReference ?_ (.inr ⟨rfl, r, hr, a, ha, .refl _⟩)
  intro q hq b hb hsame
  by_cases hqr : q = r
  · rw [hqr]
  · exact absurd hsame (h.forall hq hr hqr b a hb ha)

end Scope

end Nesc
