import Nesc.Proofs.Node.Names
import Nesc.Proofs.Scope.Walk

/-!
# Scopes whose names can be read

If the local names of a scope can be listed, every alias has a name, and so has the interface
identifier of every reference without an alias. Looking up a name then reads nothing broken, and is
a search by spelling alone (`Scope.Readable.resolve_eq`).
-/

namespace Nesc

/-- Whether an identifier can be read and its name is `n`. -/
def Identifier.isSpelled (n : String) (i : Identifier) : Bool := spelling? i == some n

theorem Identifier.isSpelled_iff {n : String} {i : Identifier} :
    isSpelled n i = true ↔ spelling? i = some n :=
  beq_iff_eq

/-- A search by name that succeeds finds the first identifier of that spelling. -/
theorem Identifier.find?_of_firstNamed? {n : String} {is : List Identifier} {i : Identifier}
    (h : firstNamed? n is = .ok (some i)) : is.find? (isSpelled n) = some i := by
  obtain ⟨before, after, rfl, hi, hbefore⟩ := firstNamed?_eq_some_iff.mp h
  have hskip : before.find? (isSpelled n) = none := by
    rw [List.find?_eq_none]
    intro j hj hspelled
    obtain ⟨m, hm, hne⟩ := hbefore j hj
    rw [isSpelled_iff, hm] at hspelled
    exact hne (Option.some.inj hspelled)
  rw [List.find?_append, hskip, List.find?_cons_of_pos (isSpelled_iff.mpr hi)]
  rfl

namespace InterfaceReference

variable {rs : List InterfaceReference}

theorem mem_locals_of_alias? {r : InterfaceReference} {a : Identifier} (hr : r ∈ rs)
    (ha : alias? r = some a) : a ∈ rs.filterMap local? := by
  refine List.mem_filterMap.mpr ⟨r, hr, ?_⟩
  rw [local?, ha]
  rfl

theorem mem_unaliased {i : Identifier} :
    i ∈ unaliased rs ↔ ∃ r ∈ rs, alias? r = none ∧ interface? r = some i := by
  unfold unaliased
  rw [List.mem_filterMap]
  refine exists_congr fun r => and_congr_right fun _ => ?_
  cases alias? r with
  | none => exact ⟨fun h => ⟨rfl, h⟩, fun h => h.2⟩
  | some a => exact ⟨nofun, fun h => nomatch h.1⟩

theorem mem_locals_of_mem_unaliased {i : Identifier} (h : i ∈ unaliased rs) :
    i ∈ rs.filterMap local? := by
  obtain ⟨r, hr, ha, hi⟩ := mem_unaliased.mp h
  refine List.mem_filterMap.mpr ⟨r, hr, ?_⟩
  rw [local?, ha, hi]
  rfl

end InterfaceReference

namespace Scope

variable {s : Scope}

/-- Every alias can be read, and so can the interface identifier of every unaliased reference. -/
structure Readable (s : Scope) : Prop where
  aliases : ∀ a ∈ s.aliasIdentifiers, (Identifier.spelling? a).isSome
  unaliased : ∀ i ∈ InterfaceReference.unaliased s.references, (Identifier.spelling? i).isSome

/-- Listing the local names reads every alias and every unaliased interface. -/
theorem spelling?_of_localNames {ns : List String} (h : s.localNames = .ok ns) {i : Identifier}
    (hi : i ∈ s.references.filterMap InterfaceReference.local?) :
    ∃ n ∈ ns, Identifier.spelling? i = some n := by
  have hnames := Identifier.names_eq_ok_iff.mp h
  have hmem := List.mem_map_of_mem (f := Identifier.spelling?) hi
  rw [hnames, List.mem_map] at hmem
  obtain ⟨n, hn, hspell⟩ := hmem
  exact ⟨n, hn, hspell.symm⟩

/-- If the local names can be listed, every identifier that resolving reads can be read. -/
theorem readable_of_localNames {ns : List String} (h : s.localNames = .ok ns) : s.Readable := by
  constructor
  · intro a ha
    obtain ⟨r, hr, hra⟩ := mem_aliasIdentifiers.mp ha
    obtain ⟨n, -, hn⟩ := spelling?_of_localNames h (InterfaceReference.mem_locals_of_alias? hr hra)
    rw [hn]
    rfl
  · intro i hi
    obtain ⟨n, -, hn⟩ := spelling?_of_localNames h (InterfaceReference.mem_locals_of_mem_unaliased hi)
    rw [hn]
    rfl

/-- What a name stands for, by spelling alone. -/
def lookup (s : Scope) (n : String) : NameTarget :=
  match s.aliasIdentifiers.find? (Identifier.isSpelled n) with
  | some a => .localName a (s.interfaceOf? a)
  | none =>
    match (InterfaceReference.unaliased s.references).find? (Identifier.isSpelled n) with
    | some i => .interface i
    | none => .unknown

/-- Where all can be read, resolving a name is looking for spellings, and never fails. -/
theorem Readable.resolve_eq (h : s.Readable) (n : String) : s.resolve n = .ok (s.lookup n) := by
  have haliases : s.aliasNamed? n = .ok (s.aliasIdentifiers.find? (Identifier.isSpelled n)) :=
    Identifier.firstNamed?_of_readable h.aliases n
  have hinterfaces : Identifier.firstNamed? n (InterfaceReference.unaliased s.references) =
      .ok ((InterfaceReference.unaliased s.references).find? (Identifier.isSpelled n)) :=
    Identifier.firstNamed?_of_readable h.unaliased n
  rw [resolve, haliases, hinterfaces, lookup]
  cases s.aliasIdentifiers.find? (Identifier.isSpelled n) with
  | some a => rfl
  | none =>
    cases (InterfaceReference.unaliased s.references).find? (Identifier.isSpelled n) with
    | some i => rfl
    | none => rfl

end Scope

end Nesc
