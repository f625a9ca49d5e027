import Nesc.Proofs.Node.Broken
import Nesc.Proofs.Scope.AliasMap

/-!
# Looking up an alias by its name

The first alias of a name is found by spelling, and its interface by identity: the alias map is
asked for the node that was found. A walk of the tree goes instead from the alias to the reference
right above it (`Scope.parent?_of_alias?`) and from there to the interface. For a name that is not
empty both give the same (`Scope.exists_parent_of_aliasNamed?`), whatever else is spelled alike or
stands at the same offset, and however often the reference is listed.
-/

namespace Nesc.Scope

variable {s : Scope} {n : String} {a : Identifier} {r : InterfaceReference}

theorem parent?_of_alias? (hr : r ∈ s.references) (ha : InterfaceReference.alias? r = some a) :
    s.file.cursor.parent? a.cursor = some r.cursor := by
  have hmem := mem_file_of_mem_references hr
  rw [s.cursor_file] at hmem ⊢
  exact Cursor.parent?_eq_some hmem (InterfaceReference.mem_children_of_alias? ha)

/-- The first alias of a name is named so, and so is no alias in front of where it is first listed;
those can be read. -/
theorem aliasNamed?_eq_some_iff : s.aliasNamed? n = .ok (some a) ↔
    ∃ before after, s.aliasIdentifiers = before ++ a :: after ∧ a ∉ before ∧
      Identifier.spelling? a = some n ∧
      ∀ b ∈ before, b.HasToken ∧ Identifier.spelling? b ≠ some n := by
  rw [aliasNamed?, Identifier.firstNamed?_eq_some_iff]
  refine exists₂_congr fun before after => and_congr_right fun _ => ?_
  constructor
  · rintro ⟨ha, hbefore⟩
    have hread : ∀ b ∈ before, b.HasToken ∧ Identifier.spelling? b ≠ some n := by
      intro b hb
      obtain ⟨m, hm, hne⟩ := hbefore b hb
      rw [← Identifier.isSome_spelling?_iff, hm]
      exact ⟨rfl, fun h => hne (Option.some.inj h)⟩
    exact ⟨fun hmem => (hread a hmem).2 ha, ha, hread⟩
  · rintro ⟨-, ha, hbefore⟩
    refine ⟨ha, fun b hb => ?_⟩
    obtain ⟨htoken, hne⟩ := hbefore b hb
    obtain ⟨m, hm⟩ := Option.isSome_iff_exists.mp (Identifier.isSome_spelling?_iff.mpr htoken)
    exact ⟨m, hm, fun h => hne (h ▸ hm)⟩

/-- What is reached through the map from the first alias of a name is what is reached through the
reference above the alias. -/
theorem exists_parent_of_aliasNamed? (h : s.aliasNamed? n = .ok (some a)) (hn : n ≠ "") :
    ∃ r ∈ s.references, s.file.cursor.parent? a.cursor = some r.cursor ∧
      s.interfaceOf? a = InterfaceReference.interface? r := by
  obtain ⟨before, after, hsplit, -, hname, -⟩ := aliasNamed?_eq_some_iff.mp h
  have hmem : a ∈ s.aliasIdentifiers := by simp [hsplit]
  obtain ⟨r, hr, ha⟩ := mem_aliasIdentifiers.mp hmem
  refine ⟨r, hr, parent?_of_alias? hr ha, interfaceOf?_alias hr ha ?_⟩
  exact Identifier.width_pos_of_spelling? hname hn

/-- Looking up an alias by its name, for any file and any name. The result is the first alias of the
name, if every alias in front of it can be read; the look-up fails exactly if it meets an alias that
cannot be read before it meets one of the name. If the name is not empty, then the interface found
for it, by the look-up and by resolving the name, is that of the reference right above the alias, or
is absent where the reference has none. -/
theorem aliasNamed?_agrees_walk (s : Scope) (n : String) :
    (∀ a, s.aliasNamed? n = .ok (some a) ↔
      ∃ before after, s.aliasIdentifiers = before ++ a :: after ∧ a ∉ before ∧
        Identifier.spelling? a = some n ∧
        ∀ b ∈ before, b.HasToken ∧ Identifier.spelling? b ≠ some n) ∧
    ((∃ m, s.aliasNamed? n = .error m) ↔
      ∃ before b after, s.aliasIdentifiers = before ++ b :: after ∧ ¬ b.HasToken ∧
        ∀ c ∈ before, Identifier.spelling? c ≠ some n) ∧
    (n ≠ "" → ∀ a, s.aliasNamed? n = .ok (some a) →
      ∃ r : InterfaceReference, s.file.cursor.parent? a.cursor = some r.cursor ∧
        s.interfaceNamed? n = .ok (InterfaceReference.interface? r) ∧
        s.resolve n = .ok (.localName a (InterfaceReference.interface? r))) := by
  refine ⟨fun a => aliasNamed?_eq_some_iff, Identifier.exists_firstNamed?_eq_error_iff,
    fun hn a ha => ?_⟩
  obtain ⟨r, -, hparent, hinterface⟩ := exists_parent_of_aliasNamed? ha hn
  refine ⟨r, hparent, ?_, ?_⟩
  · rw [interfaceNamed?, ha, ← hinterface]
    rfl
  · rw [resolve, ha, ← hinterface]
    rfl

/-- The reference of the alias is listed twice, an empty node stands at the offset of the alias,
another alias has its spelling, and a last one cannot be read. -/
theorem aliasNamed?_agrees_walk_listedTwice :
    let entry (ts : Forest) : Tree := .node .parameterizedInterface [.node .interfaceReference ts]
    let type (n : String) : Tree := .node .interfaceType [.identifier n]
    let t : Tree := .node .sourceFile [.node .component [.identifier "M", .node .accessList [
      .node .access [.node .parameterizedInterfaceList [
        .node .access [.node .parameterizedInterfaceList [
          entry [type "I", .mark .asKw, .node .error [], .identifier "A"]]],
        entry [type "J", .mark .asKw, .identifier "A"],
        entry [.mark .asKw, .node .identifier []]]]]]]
    ∃ s a r, bind t (.index 0) = .ok s ∧ s.references.length = 4 ∧
      s.aliasNamed? "A" = .ok (some a) ∧ s.file.cursor.parent? a.cursor = some r.cursor ∧
      s.interfaceNamed? "A" = .ok (InterfaceReference.interface? r) ∧
      s.resolve "A" = .ok (.localName a (InterfaceReference.interface? r)) := by
  intro entry type t
  have htest : ((bind t (.index 0)).toOption.any fun s =>
      s.references.length == 4 && (s.aliasNamed? "A").toOption.join.isSome) = true := by
    decide +kernel
  obtain ⟨s, hs, htest⟩ := exists_bind_of_any htest
  rw [Bool.and_eq_true, beq_iff_eq, Option.isSome_iff_exists] at htest
  obtain ⟨hlength, a, ha⟩ := htest
  have hfound : s.aliasNamed? "A" = .ok (some a) := by
    cases hresult : s.aliasNamed? "A" with
    | error m =>
      rw [hresult] at ha
      cases ha
    | ok a? =>
      rw [hresult] at ha
      exact congrArg Except.ok ha
  obtain ⟨-, -, hwalk⟩ := aliasNamed?_agrees_walk s "A"
  obtain ⟨r, hparent, hinterface, hresolve⟩ := hwalk (by decide) a hfound
  exact ⟨s, a, r, hs, hlength, hfound, hparent, hinterface, hresolve⟩

end Nesc.Scope
