import Mathlib.Data.List.Nodup
import Nesc.Proofs.Decl.References
import Nesc.Proofs.Scope.AliasMap
import Nesc.Proofs.Scope.Readable

/-!
# A scope knows what its component declares

Everything a scope finds out about a component that is laid out can be read off the description of
the component: the facts are lists of its names, and looking up a name is a search among its entries
(`Scope.Declares`). That holds for each component of a file, whatever the others are, and for all
names. What a name stands for is compared by the position of an entry (`Meaning`).
-/

namespace Nesc

/-- What a name means in a component: an entry under its alias, with the name of the interface
behind it; an entry under its own name; or nothing. Entries are counted from zero. -/
inductive Meaning where
  | byAlias (entry : Nat) (interface? : Option String)
  | byName (entry : Nat)
  | nothing
deriving DecidableEq, Repr

/-- The meaning of a target: the position of the reference that it belongs to. -/
def Scope.meaning (s : Scope) : NameTarget → Meaning
  | .localName a i? => .byAlias (s.references.findIdx fun r => InterfaceReference.alias? r == some a)
      (i?.bind Identifier.spelling?)
  | .interface i => .byName (s.references.findIdx fun r => InterfaceReference.interface? r == some i)
  | .unknown => .nothing

/-- What `n` means in a scope. -/
def Scope.meaningOf (s : Scope) (n : String) : Except Malformed Meaning := (s.resolve n).map s.meaning

namespace Decl.Entry

/-- Whether the entry has the alias `n`. -/
def isAliased (n : String) (e : Entry) : Bool := e.alias? == some n

/-- Whether the entry has no alias and its interface is named `n`. -/
def isPlain (n : String) (e : Entry) : Bool := e.alias?.isNone && e.name? == some n

/-- The name under which the component sees the entry. -/
def local? (e : Entry) : Option String := e.alias?.or e.name?

/-- The alias of an entry with the name of the interface it renames. -/
def pair? (e : Entry) : Option (String × String) :=
  e.alias?.bind fun a => e.name?.map fun n => (a, n)

/-- What `n` means among entries. -/
def meaning (es : List Entry) (n : String) : Meaning :=
  match es.findIdx? (isAliased n) with
  | some k => .byAlias k (es[k]?.bind name?)
  | none =>
    match es.findIdx? (isPlain n) with
    | some k => .byName k
    | none => .nothing

end Decl.Entry

/-- The facts of a scope are those of the description `d`. -/
structure Scope.Declares (s : Scope) (d : Decl.Component) : Prop where
  references : s.references.map Node.tree = d.entries.map Decl.Entry.reference
  interfaces : Identifier.names s.interfaceIdentifiers = .ok (d.entries.filterMap Decl.Entry.name?)
  aliases : Identifier.names s.aliasIdentifiers = .ok (d.entries.filterMap Decl.Entry.alias?)
  aliasMap : (s.aliasMap.entries.map fun p => (p.1.spelling?, p.2.spelling?)) =
    (d.entries.filterMap Decl.Entry.pair?).map fun p => (some p.1, some p.2)
  localNames : s.localNames = .ok (d.entries.filterMap Decl.Entry.local?)
  interfaceNames : ∃ ns, s.interfaceNames = .ok ns ∧ ns.Pairwise (· < ·) ∧
    ∀ n, n ∈ ns ↔ ∃ e ∈ d.entries, e.name? = some n
  declarations : Identifier.names s.declarationIdentifiers = .ok (d.bares.map Decl.Bare.name)
  aliasNamed? : ∀ n, s.aliasNamed? n = .ok ((d.entries.findIdx? (Decl.Entry.isAliased n)).bind
    fun k => s.references[k]?.bind InterfaceReference.alias?)
  isAliasName : ∀ n, s.isAliasName n = .ok (d.entries.any (Decl.Entry.isAliased n))
  interfaceNamed? : ∀ n, s.interfaceNamed? n =
    .ok ((d.entries.findIdx? (Decl.Entry.isAliased n)).bind
      fun k => s.references[k]?.bind InterfaceReference.interface?)
  interfaceNameOf? : ∀ n, s.interfaceNameOf? n =
    .ok ((d.entries.find? (Decl.Entry.isAliased n)).bind Decl.Entry.name?)
  meaningOf : ∀ n, s.meaningOf n = .ok (Decl.Entry.meaning d.entries n)

/-! ## Names of one reference -/

namespace Decl.Entry

variable {r : InterfaceReference} {e : Entry}

theorem map_spelling?_interface? (h : r.tree = e.reference) :
    (InterfaceReference.interface? r).map Identifier.spelling? = e.name?.map some := by
  rw [InterfaceReference.interface?]
  cases hn : e.name? with
  | none =>
    rw [type?_of_none h hn]
    rfl
  | some m =>
    obtain ⟨t, ht, htree⟩ := exists_type? h hn
    obtain ⟨i, hi, hm⟩ := Option.bind_eq_some_iff.mp (readName?_of_tree htree)
    rw [ht, Option.bind_some, hi, Option.map_some, hm]
    rfl

theorem map_spelling?_local? (h : r.tree = e.reference) :
    (InterfaceReference.local? r).map Identifier.spelling? = e.local?.map some := by
  rw [InterfaceReference.local?, local?, Option.map_or, Option.map_or, map_spelling?_alias? h,
    map_spelling?_interface? h]

/-- A reference gives a pair for the map exactly if its entry has both an alias and an interface. -/
theorem map_spelling?_pair? (h : r.tree = e.reference) :
    ((InterfaceReference.pair? r).map fun p => (p.1.spelling?, p.2.spelling?)) =
      e.pair?.map fun p => (some p.1, some p.2) := by
  have halias := map_spelling?_alias? h
  have hname := map_spelling?_interface? h
  rw [InterfaceReference.pair?, pair?]
  cases ha : e.alias? with
  | none =>
    rw [ha] at halias
    rw [Option.map_eq_none_iff.mp halias]
    rfl
  | some a =>
    rw [ha] at halias
    obtain ⟨i, hi, hspelled⟩ := Option.map_eq_some_iff.mp halias
    have hpair := congrArg (Option.map fun n => (some a, n)) hname
    simpa [hi, hspelled, Function.comp_def] using hpair

end Decl.Entry

theorem Identifier.any_isSpelled {i? : Option Identifier} {m? : Option String}
    (h : i?.map spelling? = m?.map some) (n : String) : i?.any (isSpelled n) = (m? == some n) := by
  cases i? with
  | none => cases m? with
    | none => rfl
    | some m => cases h
  | some i => cases m? with
    | none => cases h
    | some m =>
      have hm : spelling? i = some m := Option.some.inj h
      rw [Option.any_some, isSpelled, hm]

/-! ## Positions -/

/-- In a list without repeats, the index of the only element with a value is where it stands. -/
theorem findIdx_of_unique {α β : Type} [DecidableEq β] {f : α → Option β} {xs : List α} {k : Nat}
    {x : α} {b : β} (hnodup : xs.Nodup) (hk : xs[k]? = some x) (hx : f x = some b)
    (hunique : ∀ y ∈ xs, f y = some b → y = x) : (xs.findIdx fun y => f y == some b) = k := by
  obtain ⟨hlt, rfl⟩ := List.getElem?_eq_some_iff.mp hk
  refine (List.findIdx_eq hlt).mpr ⟨beq_iff_eq.mpr hx, fun j hj => ?_⟩
  rw [beq_eq_false_iff_ne]
  intro hj'
  have heq := hunique _ (List.getElem_mem (Nat.lt_trans hj hlt)) hj'
  rw [hnodup.getElem_inj_iff] at heq
  omega

namespace Scope

variable {s : Scope} {d : Decl.Component}

theorem nodup_references (h : s.specification.tree = d.specification) : s.references.Nodup := by
  apply (pairwise_references h).imp
  rintro q r hqr rfl
  have hstop : q.cursor.stop = q.cursor.start + q.cursor.tree.width := rfl
  omega

/-- In a layout the aliases of references stand at different offsets. -/
theorem pairwise_apart (h : s.specification.tree = d.specification) :
    s.references.Pairwise InterfaceReference.Apart := by
  apply (pairwise_references h).imp
  intro q r hqr a b ha hb hsame
  have hfront := Cursor.children_bounds (InterfaceReference.mem_children_of_alias? ha)
  have hback := Cursor.children_bounds (InterfaceReference.mem_children_of_alias? hb)
  have hstart := hsame.start
  have hstop : a.cursor.stop = a.cursor.start + a.cursor.tree.width := rfl
  omega

/-- The identifier of an alias leads back to its reference, counted from the start. -/
theorem findIdx_alias? (h : s.specification.tree = d.specification) {k : Nat}
    {r : InterfaceReference} {a : Identifier} (hr : s.references[k]? = some r)
    (ha : InterfaceReference.alias? r = some a) :
    (s.references.findIdx fun q => InterfaceReference.alias? q == some a) = k := by
  apply findIdx_of_unique (nodup_references h) hr ha
  intro q hq hqa
  exact reference_unique hq (List.mem_of_getElem? hr) hqa ha

theorem findIdx_interface? (h : s.specification.tree = d.specification) {k : Nat}
    {r : InterfaceReference} {i : Identifier} (hr : s.references[k]? = some r)
    (hi : InterfaceReference.interface? r = some i) :
    (s.references.findIdx fun q => InterfaceReference.interface? q == some i) = k := by
  apply findIdx_of_unique (nodup_references h) hr hi
  intro q hq hqi
  exact reference_unique_of_interface? hq (List.mem_of_getElem? hr) hqi hi

/-! ## Facts -/

/-- Names that are read part by part off the references are the names of the entries, whichever part
is read. -/
theorem names_of_layout (h : s.specification.tree = d.specification)
    {part : InterfaceReference → Option Identifier} {name : Decl.Entry → Option String}
    (hpart : ∀ r e, r.tree = e.reference → (part r).map Identifier.spelling? = (name e).map some) :
    Identifier.names (s.references.filterMap part) = .ok (d.entries.filterMap name) := by
  rw [Identifier.names_eq_ok_iff, List.map_filterMap (g := some)]
  exact Node.filterMap_of_trees (map_tree_references h) hpart

theorem localNames_of_layout (h : s.specification.tree = d.specification) :
    s.localNames = .ok (d.entries.filterMap Decl.Entry.local?) :=
  names_of_layout h fun _ _ => Decl.Entry.map_spelling?_local?

/-- The interface names of a layout are a sorted set, and hold exactly the interfaces that entries
name. -/
theorem interfaceNames_of_layout (h : s.specification.tree = d.specification) :
    ∃ ns, s.interfaceNames = .ok ns ∧ ns.Pairwise (· < ·) ∧
      ∀ n, n ∈ ns ↔ ∃ e ∈ d.entries, e.name? = some n := by
  refine ⟨NameSet.ofList (d.entries.filterMap Decl.Entry.name?), ?_, NameSet.sorted_ofList _, ?_⟩
  · rw [interfaceNames, interfaceIdentifiers,
      names_of_layout h fun _ _ => Decl.Entry.map_spelling?_interface?]
    rfl
  · intro n
    rw [NameSet.mem_ofList, List.mem_filterMap]

/-- The map of a layout pairs aliases and interfaces as the entries do, in order; twins are
apart. -/
theorem aliasMap_of_layout (h : s.specification.tree = d.specification) :
    (s.aliasMap.entries.map fun p => (p.1.spelling?, p.2.spelling?)) =
      (d.entries.filterMap Decl.Entry.pair?).map fun p => (some p.1, some p.2) := by
  rw [aliasMap, AliasMap.entries_ofReferences (pairwise_apart h), List.map_filterMap (α := Decl.Entry)]
  exact Node.filterMap_of_trees (map_tree_references h) fun _ _ => Decl.Entry.map_spelling?_pair?

/-! ## Lookups -/

/-- The first alias of a name is that of the first entry with it. -/
theorem find?_aliasIdentifiers (h : s.specification.tree = d.specification) (n : String) :
    s.aliasIdentifiers.find? (Identifier.isSpelled n) =
      (d.entries.findIdx? (Decl.Entry.isAliased n)).bind
        fun k => s.references[k]?.bind InterfaceReference.alias? := by
  have hidx : s.references.findIdx? (fun r =>
      (InterfaceReference.alias? r).any (Identifier.isSpelled n)) =
        d.entries.findIdx? (Decl.Entry.isAliased n) :=
    Node.findIdx?_of_trees (map_tree_references h) fun r e he =>
      Identifier.any_isSpelled (Decl.Entry.map_spelling?_alias? he) n
  rw [aliasIdentifiers, List.find?_filterMap, List.find?_eq_bind_findIdx?_getElem?, hidx,
    Option.bind_assoc]

/-- Looking for an alias in a layout succeeds and gives the alias of the first entry with it. -/
theorem aliasNamed?_of_layout (h : s.specification.tree = d.specification) (n : String) :
    s.aliasNamed? n = .ok ((d.entries.findIdx? (Decl.Entry.isAliased n)).bind
      fun k => s.references[k]?.bind InterfaceReference.alias?) := by
  have hread := readable_of_localNames (localNames_of_layout h)
  rw [← find?_aliasIdentifiers h]
  exact Identifier.firstNamed?_of_readable hread.aliases n

/-- The reference of the first entry with the alias `n`. -/
theorem exists_reference_of_findIdx? (h : s.specification.tree = d.specification) {n : String}
    {k : Nat} (hk : d.entries.findIdx? (Decl.Entry.isAliased n) = some k) :
    ∃ r e a, s.references[k]? = some r ∧ d.entries[k]? = some e ∧ r.tree = e.reference ∧
      InterfaceReference.alias? r = some a ∧
      s.interfaceOf? a = InterfaceReference.interface? r := by
  obtain ⟨r, e, hr, he, htree, hn⟩ := Node.exists_of_findIdx? (map_tree_references h) hk
  have halias := Decl.Entry.map_spelling?_alias? htree
  rw [beq_iff_eq.mp hn] at halias
  obtain ⟨a, ha, -⟩ := Option.map_eq_some_iff.mp halias
  exact ⟨r, e, a, hr, he, htree, ha,
    interfaceOf?_of_apart (pairwise_apart h) (List.mem_of_getElem? hr) ha⟩

/-- The interface behind an alias name is that of the first entry with the alias, though the map
goes by nodes and not by names. -/
theorem interfaceNamed?_of_layout (h : s.specification.tree = d.specification) (n : String) :
    s.interfaceNamed? n = .ok ((d.entries.findIdx? (Decl.Entry.isAliased n)).bind
      fun k => s.references[k]?.bind InterfaceReference.interface?) := by
  rw [interfaceNamed?, aliasNamed?_of_layout h]
  cases hk : d.entries.findIdx? (Decl.Entry.isAliased n) with
  | none => rfl
  | some k =>
    obtain ⟨r, e, a, hr, -, -, ha, hi⟩ := exists_reference_of_findIdx? h hk
    simp only [Except.map, Option.bind_some, hr, ha, hi]

theorem isAliasName_of_layout (h : s.specification.tree = d.specification) (n : String) :
    s.isAliasName n = .ok (d.entries.any (Decl.Entry.isAliased n)) := by
  rw [isAliasName, aliasNamed?_of_layout h, ← List.findIdx?_isSome]
  cases hk : d.entries.findIdx? (Decl.Entry.isAliased n) with
  | none => rfl
  | some k =>
    obtain ⟨r, e, a, hr, -, -, ha, -⟩ := exists_reference_of_findIdx? h hk
    simp only [Except.map, Option.bind_some, hr, ha, Option.isSome_some]

theorem interfaceNameOf?_of_layout (h : s.specification.tree = d.specification) (n : String) :
    s.interfaceNameOf? n =
      .ok ((d.entries.find? (Decl.Entry.isAliased n)).bind Decl.Entry.name?) := by
  rw [interfaceNameOf?, interfaceNamed?_of_layout h, List.find?_eq_bind_findIdx?_getElem?]
  cases hk : d.entries.findIdx? (Decl.Entry.isAliased n) with
  | none => rfl
  | some k =>
    obtain ⟨r, e, a, hr, he, htree, -, -⟩ := exists_reference_of_findIdx? h hk
    have hname := Decl.Entry.map_spelling?_interface? htree
    rw [Option.bind_some, Option.bind_some, hr, he, Option.bind_some, Option.bind_some]
    cases hi : InterfaceReference.interface? r with
    | none =>
      rw [hi] at hname
      rw [Option.map_eq_none_iff.mp hname.symm]
      rfl
    | some i =>
      rw [hi] at hname
      obtain ⟨m, hm, hspelled⟩ := Option.map_eq_some_iff.mp hname.symm
      have hread : Identifier.name i = .ok m := Identifier.name_eq_ok_iff.mpr hspelled.symm
      rw [hm]
      exact bind_eq_ok_iff.mpr ⟨some i, rfl, bind_eq_ok_iff.mpr ⟨m, hread, rfl⟩⟩

/-! ## What a name stands for -/

/-- The first interface of a name that goes by its own name is that of the first plain entry with
it. -/
theorem find?_unaliased (h : s.specification.tree = d.specification) (n : String) :
    (InterfaceReference.unaliased s.references).find? (Identifier.isSpelled n) =
      (d.entries.findIdx? (Decl.Entry.isPlain n)).bind fun k => s.references[k]?.bind fun r =>
        if (InterfaceReference.alias? r).isNone then InterfaceReference.interface? r else none := by
  have hidx : s.references.findIdx? (fun r => (if (InterfaceReference.alias? r).isNone then
      InterfaceReference.interface? r else none).any (Identifier.isSpelled n)) =
        d.entries.findIdx? (Decl.Entry.isPlain n) := by
    apply Node.findIdx?_of_trees (map_tree_references h)
    intro r e he
    have halias := congrArg Option.isNone (Decl.Entry.map_spelling?_alias? he)
    rw [Option.isNone_map, Option.isNone_map] at halias
    rw [Decl.Entry.isPlain, halias,
      ← Identifier.any_isSpelled (Decl.Entry.map_spelling?_interface? he)]
    cases e.alias?.isNone <;> rfl
  rw [InterfaceReference.unaliased, List.find?_filterMap, List.find?_eq_bind_findIdx?_getElem?, hidx,
    Option.bind_assoc]

/-- What a name means in a layout is what it means among the entries: aliases come first, and an
entry with an alias hides its interface's own name. -/
theorem meaning_lookup (h : s.specification.tree = d.specification) (n : String) :
    s.meaning (s.lookup n) = Decl.Entry.meaning d.entries n := by
  rw [lookup, Decl.Entry.meaning, find?_aliasIdentifiers h]
  cases hk : d.entries.findIdx? (Decl.Entry.isAliased n) with
  | some k =>
    obtain ⟨r, e, a, hr, he, htree, ha, hi⟩ := exists_reference_of_findIdx? h hk
    have hname := Decl.bind_of_map (Decl.Entry.map_spelling?_interface? htree)
    simp only [Option.bind_some, hr, ha, he, hi, meaning, findIdx_alias? h hr ha, hname]
  | none =>
    rw [find?_unaliased h]
    cases hk' : d.entries.findIdx? (Decl.Entry.isPlain n) with
    | none => rfl
    | some k =>
      obtain ⟨r, e, hr, -, htree, hn⟩ := Node.exists_of_findIdx? (map_tree_references h) hk'
      obtain ⟨hnone, hname⟩ := Bool.and_eq_true_iff.mp hn
      have halias := Decl.Entry.map_spelling?_alias? htree
      have hinterface := Decl.Entry.map_spelling?_interface? htree
      rw [Option.isNone_iff_eq_none.mp hnone] at halias
      rw [beq_iff_eq.mp hname] at hinterface
      obtain ⟨i, hi, -⟩ := Option.map_eq_some_iff.mp hinterface
      simp only [Option.bind_none, Option.bind_some, hr, Option.map_eq_none_iff.mp halias, hi,
        Option.isNone_none, ↓reduceIte, meaning, findIdx_interface? h hr hi]

/-- A scope over a layout knows all that its description declares. -/
theorem declares_of_layout (h : s.specification.tree = d.specification) : s.Declares d where
  references := map_tree_references h
  interfaces := names_of_layout h fun _ _ => Decl.Entry.map_spelling?_interface?
  aliases := names_of_layout h fun _ _ => Decl.Entry.map_spelling?_alias?
  aliasMap := aliasMap_of_layout h
  localNames := localNames_of_layout h
  interfaceNames := interfaceNames_of_layout h
  declarations := names_declarationIdentifiers h
  aliasNamed? := aliasNamed?_of_layout h
  isAliasName := isAliasName_of_layout h
  interfaceNamed? := interfaceNamed?_of_layout h
  interfaceNameOf? := interfaceNameOf?_of_layout h
  meaningOf := by
    intro n
    rw [Scope.meaningOf, (readable_of_localNames (localNames_of_layout h)).resolve_eq, Except.map,
      meaning_lookup h]

/-- A scope can be bound to each component of a file that is laid out, and finds what the
description of the component declares. -/
theorem exists_declares_of_getElem? {ds : Decl.File} {i : Nat} (h : ds[i]? = some d) :
    ∃ s, bind (Decl.File.tree ds) (.index i) = .ok s ∧ s.Declares d := by
  obtain ⟨hi, rfl⟩ := List.getElem?_eq_some_iff.mp h
  obtain ⟨s, hs, -, hof⟩ := exists_bind_layout (ds.take i) (ds.drop (i + 1)) ds[i]
  have hsplit : ds.take i ++ ds[i] :: ds.drop (i + 1) = ds := by simp
  have hlength : (ds.take i).length = i := by simp; omega
  rw [hsplit, hlength] at hs
  refine ⟨s, hs, declares_of_layout ?_⟩
  rw [Node.tree, specification_of_layout hof]

/-- Binding to the component at any index of a file that is laid out succeeds, and the scope knows
what the component declares, whatever else is in the file. -/
theorem exists_bind_declares (ds : Decl.File) (i : Fin ds.length) :
    ∃ s, bind (Decl.File.tree ds) (.index i) = .ok s ∧ s.Declares (ds.get i) :=
  exists_declares_of_getElem? (List.getElem?_eq_getElem i.isLt)

end Scope

end Nesc
