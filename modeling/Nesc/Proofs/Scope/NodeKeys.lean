import Nesc.Proofs.Scope.AliasEntries
import Nesc.Proofs.Tree.Sharing

/-!
# Nodes as keys

Nodes with text can be keys of a map although equal nodes share their storage: such a node is the same
as another exactly if the two are one node at one place (`Node.same_iff_eq`). A map keyed by identity
then behaves as one keyed by equality. Putting a value at a key changes what is found at that very node
(`AliasMap.find?_insert_of_text`), and a node that is no key yet gets an entry of its own
(`AliasMap.keys_insert_of_text`).
-/

namespace Nesc

/-- Nodes of a tree with text are the same stored node exactly if they are equal. -/
theorem Node.same_iff_eq {t : Tree} {k : Kind} {m n : Node k}
    (hm : m.cursor ∈ (Cursor.root t).elements) (hn : n.cursor ∈ (Cursor.root t).elements)
    (htext : m.text ≠ "") : m.cursor.Same n.cursor ↔ m = n := by
  rw [Cursor.same_iff_path_eq hm hn htext]
  constructor
  · intro hpath
    exact Node.ext_cursor (Cursor.eq_of_path_eq hm hn hpath)
  · rintro rfl
    rfl

namespace AliasMap

variable {t : Tree} {m : AliasMap} {key k : Identifier}

/-- For keys with text, looking up after an insertion is that of a map keyed by places. -/
theorem find?_insert_of_text (hkey : key.cursor ∈ (Cursor.root t).elements)
    (hk : k.cursor ∈ (Cursor.root t).elements) (htext : key.text ≠ "") (value : Identifier) :
    (m.insert key value).find? k = if key = k then some value else m.find? k := by
  rw [find?_insert, if_congr (Node.same_iff_eq hkey hk htext) rfl rfl]

/-- For keys with text, a key is added at the end unless it is there. -/
theorem keys_insert_of_text (hm : ∀ k ∈ m.keys, k.cursor ∈ (Cursor.root t).elements)
    (hkey : key.cursor ∈ (Cursor.root t).elements) (htext : key.text ≠ "") (value : Identifier) :
    (m.insert key value).keys = if key ∈ m.keys then m.keys else m.keys ++ [key] := by
  have hiff : (∃ e ∈ m.entries, e.1.cursor.Same key.cursor) ↔ key ∈ m.keys := by
    constructor
    · rintro ⟨e, he, hsame⟩
      have hmem : e.1 ∈ m.keys := List.mem_map_of_mem he
      rw [(Node.same_iff_eq hkey (hm e.1 hmem) htext).mp hsame.symm]
      exact hmem
    · intro hmem
      obtain ⟨e, he, rfl⟩ := List.mem_map.mp hmem
      exact ⟨e, he, .refl _⟩
  exact (map_fst_insertEntry key value m.entries).trans (if_congr hiff rfl rfl)

end AliasMap

/-- In a tree that has been built, identity is the place. The construction can be carried out on a heap
where small equal nodes are shared. From a view of the stored tree, the path of every element leads to
a handle, and two handles, from one view or from two, are equal exactly if `Cursor.Same` says so; if
one of the elements has text, they are equal exactly if the paths are. So nodes of a kind, as values,
are told apart by identity, and a map keyed by identity finds a value at a node exactly if it was put
at that node, and has one key for each node that was put in. -/
theorem Tree.build_identity {steps : List Step} {t : Tree} (h : Tree.build steps = .ok t) :
    (∃ s, SharingBuilder.build steps = .ok s ∧ s.heap.Holds t s.root ∧
      ∀ a ∈ (Cursor.root t).elements, ∀ b ∈ (Cursor.root t).elements,
        ∃ g g', s.heap.at? s.view a.path = some g ∧ s.heap.at? s.view b.path = some g' ∧
          (g = g' ↔ a.Same b) ∧ (a.text ≠ "" → (g = g' ↔ a.path = b.path))) ∧
    (∀ k (m n : Node k), m.cursor ∈ (Cursor.root t).elements →
      n.cursor ∈ (Cursor.root t).elements → m.text ≠ "" → (m.cursor.Same n.cursor ↔ m = n)) ∧
    ∀ (m : AliasMap) (key value : Identifier), key.cursor ∈ (Cursor.root t).elements →
      key.text ≠ "" →
      (∀ k : Identifier, k.cursor ∈ (Cursor.root t).elements →
        (m.insert key value).find? k = if key = k then some value else m.find? k) ∧
      ((∀ k ∈ m.keys, k.cursor ∈ (Cursor.root t).elements) →
        (m.insert key value).keys = if key ∈ m.keys then m.keys else m.keys ++ [key]) := by
  refine ⟨?_, fun k m n hm hn htext => Node.same_iff_eq hm hn htext, ?_⟩
  · obtain ⟨s, hs, hstores⟩ := SharingBuilder.build_of_build h
    refine ⟨s, hs, hstores.holds, fun a ha b hb => ?_⟩
    obtain ⟨g, g', hg, hg', hiff⟩ := hstores.handle_eq_iff_same ha hb
    exact ⟨g, g', hg, hg', hiff, fun htext => hiff.trans (Cursor.same_iff_path_eq ha hb htext)⟩
  · intro m key value hkey htext
    exact ⟨fun k hk => AliasMap.find?_insert_of_text hkey hk htext value,
      fun hm => AliasMap.keys_insert_of_text hm hkey htext value⟩

/-- Two names spelled alike are stored at one address, and the first starts where the node around it
does; all three have different handles, and a value put at the first name is not found at the second.
Two empty names behind them have one handle. -/
theorem Tree.build_identity_twins :
    let steps : List Step := [.start .sourceFile, .start .interfaceReference, .identifier "X", .finish,
      .identifier "X", .identifier "", .identifier "", .finish]
    let t : Tree := .node .sourceFile [.node .interfaceReference [.identifier "X"], .identifier "X",
      .identifier "", .identifier ""]
    let outer : Cursor := ⟨[0], 0, .node .interfaceReference [.identifier "X"]⟩
    let first : Cursor := ⟨[0, 0], 0, .identifier "X"⟩
    let second : Cursor := ⟨[1], 1, .identifier "X"⟩
    Tree.build steps = .ok t ∧ outer ∈ (Cursor.root t).elements ∧ first ∈ (Cursor.root t).elements ∧
      second ∈ (Cursor.root t).elements ∧ first.text ≠ "" ∧
      ∃ s, SharingBuilder.build steps = .ok s ∧
        s.heap.at? s.view first.path ≠ s.heap.at? s.view outer.path ∧
        s.heap.at? s.view first.path ≠ s.heap.at? s.view second.path ∧
        (AliasMap.insert {} ⟨first, rfl⟩ ⟨first, rfl⟩).find? ⟨second, rfl⟩ = none ∧
        s.heap.at? s.view [0, 0] = some ⟨1, 0⟩ ∧ s.heap.at? s.view [1] = some ⟨1, 1⟩ ∧
        s.heap.at? s.view [2] = s.heap.at? s.view [3] := by
  intro steps t outer first second
  have hbuild : Tree.build steps = .ok t := by rfl
  have houter : outer ∈ (Cursor.root t).elements := by decide +kernel
  have hfirst : first ∈ (Cursor.root t).elements := by decide +kernel
  have hsecond : second ∈ (Cursor.root t).elements := by decide +kernel
  have htext : first.text ≠ "" := by decide +kernel
  have htest : ((SharingBuilder.build steps).toOption.any fun s =>
      s.heap.at? s.view [0, 0] = some ⟨1, 0⟩ ∧ s.heap.at? s.view [1] = some ⟨1, 1⟩ ∧
        s.heap.at? s.view [2] = s.heap.at? s.view [3]) = true := by
    decide +kernel
  obtain ⟨⟨s, hs, -, hhandles⟩, -, hmaps⟩ := Tree.build_identity hbuild
  rw [hs] at htest
  refine ⟨hbuild, houter, hfirst, hsecond, htext, s, hs, ?_, ?_, ?_, of_decide_eq_true htest⟩
  · obtain ⟨g, g', hg, hg', -, hiff⟩ := hhandles first hfirst outer houter
    rw [hg, hg', ne_eq, Option.some.injEq, hiff htext]
    decide
  · obtain ⟨g, g', hg, hg', -, hiff⟩ := hhandles first hfirst second hsecond
    rw [hg, hg', ne_eq, Option.some.injEq, hiff htext]
    decide
  · rw [(hmaps {} ⟨first, rfl⟩ ⟨first, rfl⟩ hfirst htext).1 ⟨second, rfl⟩ hsecond]
    exact if_neg (by decide +kernel)

end Nesc
