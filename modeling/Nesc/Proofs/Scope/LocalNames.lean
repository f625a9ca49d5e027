import Nesc.Proofs.Node.Broken
import Nesc.Proofs.Scope.Readable

/-!
# Local names and what they stand for

The local names are listed in one pass over the references, which takes of each its alias or else
its interface. A name is looked up in two passes, first through all aliases and then through the
interfaces that have none, and each pass ends at the first identifier of the name. Both read the
same identifiers (`InterfaceReference.mem_locals`). So if the names can be listed, every look-up
succeeds, and those that find nothing are the names outside the list (`Scope.Readable.resolve_eq`,
`Scope.lookup_eq_unknown_iff`). If they cannot be listed, a look-up may still end in front of the
broken identifier, but not for a name that no identifier has (`Scope.exists_resolve_error`).
-/

namespace Nesc

theorem Identifier.find?_isSpelled_eq_none {n : String} {is : List Identifier} :
    is.find? (isSpelled n) = none ↔ ∀ i ∈ is, spelling? i ≠ some n := by
  simp only [List.find?_eq_none, isSpelled_iff, ne_eq]

/-- A local identifier is an alias, or an interface without one. -/
theorem InterfaceReference.mem_locals {rs : List InterfaceReference} {i : Identifier} :
    i ∈ rs.filterMap local? ↔ i ∈ rs.filterMap alias? ∨ i ∈ unaliased rs := by
  constructor
  · intro h
    obtain ⟨r, hr, hi⟩ := List.mem_filterMap.mp h
    rcases Option.or_eq_some_iff.mp hi with ha | ⟨ha, hi⟩
    · exact .inl (List.mem_filterMap.mpr ⟨r, hr, ha⟩)
    · exact .inr (mem_unaliased.mpr ⟨r, hr, ha, hi⟩)
  · rintro (h | h)
    · obtain ⟨r, hr, ha⟩ := List.mem_filterMap.mp h
      exact mem_locals_of_alias? hr ha
    · exact mem_locals_of_mem_unaliased h

namespace Scope

variable {s : Scope} {n : String} {ns : List String} {m : Malformed}

theorem mem_localNames_iff (h : s.localNames = .ok ns) : n ∈ ns ↔
    ∃ i ∈ s.references.filterMap InterfaceReference.local?, Identifier.spelling? i = some n := by
  rw [← List.mem_map, Identifier.names_eq_ok_iff.mp h]
  simp

/-- A name stands for nothing exactly if no local identifier has it. -/
theorem lookup_eq_unknown_iff : s.lookup n = .unknown ↔
    ∀ i ∈ s.references.filterMap InterfaceReference.local?, Identifier.spelling? i ≠ some n := by
  have hpasses : (∀ i ∈ s.references.filterMap InterfaceReference.local?,
      Identifier.spelling? i ≠ some n) ↔
      s.aliasIdentifiers.find? (Identifier.isSpelled n) = none ∧
        (InterfaceReference.unaliased s.references).find? (Identifier.isSpelled n) = none := by
    simp only [InterfaceReference.mem_locals, or_imp, forall_and,
      Identifier.find?_isSpelled_eq_none]
    rfl
  rw [hpasses, lookup]
  cases s.aliasIdentifiers.find? (Identifier.isSpelled n) with
  | some a => simp
  | none =>
    cases (InterfaceReference.unaliased s.references).find? (Identifier.isSpelled n) <;> simp

/-- A look-up fails in its first pass, or else in its second. -/
theorem resolve_eq_error_iff : s.resolve n = .error m ↔ s.aliasNamed? n = .error m ∨
    s.aliasNamed? n = .ok none ∧
      Identifier.firstNamed? n (InterfaceReference.unaliased s.references) = .error m := by
  rw [resolve, bind_eq_error_iff]
  refine or_congr_right ⟨?_, ?_⟩
  · rintro ⟨a?, ha, h⟩
    cases a? with
    | some a => cases h
    | none =>
      refine ⟨ha, ?_⟩
      rcases bind_eq_error_iff.mp h with h | ⟨i?, -, h⟩
      · exact h
      · cases i? <;> cases h
  · rintro ⟨ha, h⟩
    exact ⟨none, ha, bind_eq_error_iff.mpr (.inl h)⟩

/-- If the local names cannot be listed, a name that is none of them cannot be looked up. -/
theorem exists_resolve_error (h : s.localNames = .error m)
    (hnot : ∀ i ∈ s.references.filterMap InterfaceReference.local?,
      Identifier.spelling? i ≠ some n) : ∃ m', s.resolve n = .error m' := by
  obtain ⟨i, hi, hbroken, -⟩ := Identifier.blames_of_names h
  have haliases : ∀ a ∈ s.aliasIdentifiers, Identifier.spelling? a ≠ some n :=
    fun a ha => hnot a (InterfaceReference.mem_locals.mpr (.inl ha))
  have hothers : ∀ j ∈ InterfaceReference.unaliased s.references, Identifier.spelling? j ≠ some n :=
    fun j hj => hnot j (InterfaceReference.mem_locals.mpr (.inr hj))
  rcases InterfaceReference.mem_locals.mp hi with halias | hother
  · obtain ⟨m', hm'⟩ := Identifier.exists_firstNamed?_error halias hbroken haliases
    exact ⟨m', resolve_eq_error_iff.mpr (.inl hm')⟩
  · obtain ⟨m', hm'⟩ := Identifier.exists_firstNamed?_error hother hbroken hothers
    -- The first pass finds nothing, so the second is reached unless the first fails already.
    cases hfirst : s.aliasNamed? n with
    | error m₁ => exact ⟨m₁, resolve_eq_error_iff.mpr (.inl hfirst)⟩
    | ok a? =>
      cases a? with
      | none => exact ⟨m', resolve_eq_error_iff.mpr (.inr ⟨hfirst, hm'⟩)⟩
      | some a =>
        have hfound := Identifier.find?_of_firstNamed? hfirst
        exact absurd (Identifier.isSpelled_iff.mp (List.find?_some hfound))
          (haliases a (List.mem_of_find?_eq_some hfound))

/-- Looking up a name and listing the local names describe one scope. If the names can be listed,
every look-up succeeds, and it finds nothing exactly for the names that are not in the list. If some
look-up fails, the names cannot be listed. If they cannot be listed, the look-up fails of every name
that is neither that of an alias nor that of the interface of a reference without an alias. -/
theorem resolve_agrees_localNames (s : Scope) (n : String) :
    (∀ ns, s.localNames = .ok ns → ∃ x, s.resolve n = .ok x ∧ (x = .unknown ↔ n ∉ ns)) ∧
    (∀ m, s.resolve n = .error m → ∃ m', s.localNames = .error m') ∧
    ∀ m, s.localNames = .error m →
      (∀ a ∈ s.aliasIdentifiers, Identifier.spelling? a ≠ some n) →
      (∀ r ∈ s.references, InterfaceReference.alias? r = none →
        ∀ i, InterfaceReference.interface? r = some i → Identifier.spelling? i ≠ some n) →
      ∃ m', s.resolve n = .error m' := by
  refine ⟨fun ns hns => ?_, fun m hm => ?_, fun m hm haliases hothers => ?_⟩
  · refine ⟨s.lookup n, (readable_of_localNames hns).resolve_eq n, ?_⟩
    rw [lookup_eq_unknown_iff, mem_localNames_iff hns]
    exact ⟨fun h ⟨i, hi, hn⟩ => h i hi hn, fun h i hi hn => h ⟨i, hi, hn⟩⟩
  · cases hns : s.localNames with
    | error m' => exact ⟨m', rfl⟩
    | ok ns =>
      rw [(readable_of_localNames hns).resolve_eq] at hm
      cases hm
  · refine exists_resolve_error hm fun i hi => ?_
    rcases InterfaceReference.mem_locals.mp hi with ha | hi
    · exact haliases i ha
    · obtain ⟨r, hr, ha, hi⟩ := InterfaceReference.mem_unaliased.mp hi
      exact hothers r hr ha i hi

/-- The interface `I` is known by an alias only. With the name of the alias missing, the local names
cannot be listed, and `I`, which is none of them, cannot be looked up. -/
theorem resolve_agrees_localNames_brokenAlias :
    let file (a : Tree) : Tree := .node .sourceFile [.node .component [.identifier "M",
      .node .accessList [.node .access [.node .parameterizedInterfaceList [
        .node .parameterizedInterface [.node .interfaceReference [
          .node .interfaceType [.identifier "J"]]],
        .node .parameterizedInterface [.node .interfaceReference [
          .node .interfaceType [.identifier "I"], .mark .asKw, a]]]]]]]
    (∃ s, bind (file (.identifier "A")) (.index 0) = .ok s ∧ s.localNames = .ok ["J", "A"] ∧
      s.resolve "I" = .ok .unknown ∧ ∃ x, s.resolve "A" = .ok x ∧ x ≠ .unknown) ∧
    ∃ s m m', bind (file (.node .identifier [])) (.index 0) = .ok s ∧ s.localNames = .error m ∧
      s.resolve "I" = .error m' := by
  intro file
  constructor
  · have hnames : ((bind (file (.identifier "A")) (.index 0)).toOption.any fun s =>
        decide (s.localNames = .ok ["J", "A"])) = true := by
      decide +kernel
    obtain ⟨s, hs, hnames⟩ := exists_bind_of_any hnames
    have hnames := of_decide_eq_true hnames
    obtain ⟨hlisted, -, -⟩ := resolve_agrees_localNames s "I"
    obtain ⟨x, hx, hunknown⟩ := hlisted _ hnames
    rw [hunknown.mpr (by decide)] at hx
    obtain ⟨hlisted, -, -⟩ := resolve_agrees_localNames s "A"
    obtain ⟨y, hy, hknown⟩ := hlisted _ hnames
    exact ⟨s, hs, hnames, hx, y, hy, fun h => hknown.mp h (by decide)⟩
  · have hbroken : ((bind (file (.node .identifier [])) (.index 0)).toOption.any fun s =>
        !s.localNames.isOk && (s.aliasIdentifiers.all fun a => !Identifier.isSpelled "I" a) &&
          (InterfaceReference.unaliased s.references).all fun i => !Identifier.isSpelled "I" i) =
            true := by
      decide +kernel
    obtain ⟨s, hs, hbroken⟩ := exists_bind_of_any hbroken
    simp only [Bool.and_eq_true, Bool.not_eq_true', List.all_eq_true, ← Bool.not_eq_true,
      Identifier.isSpelled_iff] at hbroken
    obtain ⟨⟨hbroken, haliases⟩, hothers⟩ := hbroken
    cases hm : s.localNames with
    | ok ns =>
      rw [hm] at hbroken
      exact absurd rfl hbroken
    | error m =>
      obtain ⟨-, -, hunlisted⟩ := resolve_agrees_localNames s "I"
      obtain ⟨m', hm'⟩ := hunlisted m hm haliases fun r hr ha i hi =>
        hothers i (InterfaceReference.mem_unaliased.mpr ⟨r, hr, ha, hi⟩)
      exact ⟨s, m, m', hs, hm, hm'⟩

end Scope

end Nesc
