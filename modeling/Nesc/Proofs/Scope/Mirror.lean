import Nesc.Proofs.Scope.AliasMap
import Nesc.Proofs.Tree.Mirror

/-!
# A scope and its mirror image

Binding the same places of the respelled file gives a scope that finds its references, aliases and
interfaces at the same paths as the original (`Scope.Mirrors.references`). Names play no part in
this. What the map says of an alias is mirrored too, as long as the alias has text on both sides
(`Scope.Mirrors.interfaceOf?`).
-/

namespace Nesc

theorem rel_bind {α β γ δ : Type} {R : α → β → Prop} {S : γ → δ → Prop} {x : Option α}
    {y : Option β} {f : α → Option γ} {g : β → Option δ} (h : Option.Rel R x y)
    (hfg : ∀ a b, R a b → Option.Rel S (f a) (g b)) : Option.Rel S (x.bind f) (y.bind g) := by
  cases h with
  | none => exact .none
  | some hab => exact hfg _ _ hab

theorem Node.eq_of_path_eq {t : Tree} {k : Kind} {m n : Node k}
    (hm : m.cursor ∈ (Cursor.root t).elements) (hn : n.cursor ∈ (Cursor.root t).elements)
    (h : m.path = n.path) : m = n :=
  Node.ext_cursor (Cursor.eq_of_path_eq hm hn h)

variable {chosen : List Nat → Bool} {new : String}

theorem Access.interfaces?_mirror {a a' : Access} (h : a.Mirrors chosen new a') :
    Option.Rel (Node.Mirrors chosen new) (Access.interfaces? a) (Access.interfaces? a') :=
  h.child? .parameterizedInterfaceList

theorem ParameterizedInterface.reference?_mirror {p p' : ParameterizedInterface}
    (h : p.Mirrors chosen new p') :
    Option.Rel (Node.Mirrors chosen new) (reference? p) (reference? p') :=
  h.child? .interfaceReference

namespace InterfaceReference

variable {r r' : InterfaceReference}

theorem alias?_mirror (h : r.Mirrors chosen new r') :
    Option.Rel (Node.Mirrors chosen new) (alias? r) (alias? r') :=
  Cursor.Mirrors.childAfter? h .asKw .identifier

theorem interface?_mirror (h : r.Mirrors chosen new r') :
    Option.Rel (Node.Mirrors chosen new) (interface? r) (interface? r') :=
  rel_bind (h.child? .interfaceType) fun _ _ ht => Node.Mirrors.child? ht .identifier

theorem unaliased_mirror {rs rs' : List InterfaceReference}
    (h : List.Forall₂ (Node.Mirrors chosen new) rs rs') :
    List.Forall₂ (Node.Mirrors chosen new) (unaliased rs) (unaliased rs') := by
  refine List.rel_filterMap (fun r r' hr => ?_) h
  have halias := alias?_mirror hr
  cases ha : alias? r with
  | none =>
    rw [ha] at halias
    cases ha' : alias? r' with
    | none => exact interface?_mirror hr
    | some a' => rw [ha'] at halias; cases halias
  | some a =>
    rw [ha] at halias
    cases ha' : alias? r' with
    | none => rw [ha'] at halias; cases halias
    | some a' => exact .none

end InterfaceReference

namespace Scope

/-- The second scope is bound in the respelled file to the places of the first. -/
structure Mirrors (chosen : List Nat → Bool) (new : String) (s s' : Scope) : Prop where
  file_eq : s'.file.tree = s.file.tree.respell chosen new
  identifier : s.identifier.Mirrors chosen new s'.identifier
  specification : s.specification.Mirrors chosen new s'.specification

variable {s s' : Scope}

/-- The node of the respelled file at the place of a node of the file. -/
theorem exists_mirror (chosen : List Nat → Bool) (new : String) {t : Tree} {k : Kind} {n : Node k}
    (hn : n.cursor ∈ (Cursor.root t).elements) :
    ∃ n' : Node k, n.Mirrors chosen new n' ∧
      (Cursor.root (t.respell chosen new)).at? n.path = some n'.cursor := by
  have hat := Cursor.at?_path hn
  have hrel := (Cursor.mirrors_root chosen new t).at? n.path
  rw [Node.path, hat] at hrel
  rw [Node.path]
  generalize (Cursor.root (t.respell chosen new)).at? n.cursor.path = v at hrel
  cases hrel with
  | @some _ c' hc =>
    have hkind : c'.tree.nodeKind? = some k := hc.nodeKind?_eq.trans n.nodeKind?_cursor
    exact ⟨⟨c', hkind⟩, hc, rfl⟩

/-- The same paths can be bound in the respelled file. -/
theorem exists_bind_mirror (s : Scope) (chosen : List Nat → Bool) (new : String) :
    ∃ s', bind (s.file.tree.respell chosen new)
      (.nodes (.path s.identifier.path) (.path s.specification.path)) = .ok s' ∧
      s.Mirrors chosen new s' := by
  have hi := s.identifier_mem
  have hl := s.specification_mem
  rw [s.cursor_file] at hi hl
  obtain ⟨i', hi', hiat⟩ := exists_mirror chosen new hi
  obtain ⟨l', hl', hlat⟩ := exists_mirror chosen new hl
  have hfile : (s.file.tree.respell chosen new).nodeKind? = some .sourceFile := by
    rw [Tree.respell, Tree.nodeKind?_respellAt]
    exact s.file.nodeKind?_cursor
  let u : SourceFile := ⟨.root (s.file.tree.respell chosen new), hfile⟩
  let s' : Scope := ⟨u, i', l', rfl, Cursor.mem_elements_of_at? hiat, Cursor.mem_elements_of_at? hlat⟩
  refine ⟨s', bind_nodes_eq_ok_iff.mpr ⟨Cursor.as?_eq_some_iff.mpr rfl, ?_, ?_⟩, ⟨rfl, hi', hl'⟩⟩
  · refine Option.filter_eq_some_iff.mpr ⟨hiat, ?_⟩
    rw [Tree.isNode, i'.nodeKind?_cursor]
    rfl
  · refine Option.filter_eq_some_iff.mpr ⟨hlat, ?_⟩
    rw [Tree.isNode, l'.nodeKind?_cursor]
    rfl

namespace Mirrors

/-- The walk goes by kinds and by order, so that it finds the references at the same places. -/
theorem references (h : s.Mirrors chosen new s') :
    List.Forall₂ (Node.Mirrors chosen new) s.references s'.references := by
  have haccesses : List.Forall₂ (Node.Mirrors chosen new) s.accesses s'.accesses :=
    h.specification.descendants .access
  have hlists : List.Forall₂ (Node.Mirrors chosen new) (s.accesses.filterMap Access.interfaces?)
      (s'.accesses.filterMap Access.interfaces?) :=
    List.rel_filterMap (fun _ _ ha => Access.interfaces?_mirror ha) haccesses
  refine List.rel_filterMap (fun _ _ hp => ParameterizedInterface.reference?_mirror hp) ?_
  exact List.rel_flatMap hlists fun _ _ hl => hl.descendants .parameterizedInterface

theorem aliasIdentifiers (h : s.Mirrors chosen new s') :
    List.Forall₂ (Node.Mirrors chosen new) s.aliasIdentifiers s'.aliasIdentifiers :=
  List.rel_filterMap (fun _ _ hr => InterfaceReference.alias?_mirror hr) h.references

/-- An alias and its mirror image stand for interfaces at one path, if both have text. -/
theorem interfaceOf? (h : s.Mirrors chosen new s') {a a' : Identifier}
    (ha : a ∈ s.aliasIdentifiers) (ha' : a' ∈ s'.aliasIdentifiers) (haa' : a.Mirrors chosen new a')
    (hwidth : 0 < a.cursor.tree.width) (hwidth' : 0 < a'.cursor.tree.width) :
    Option.Rel (Node.Mirrors chosen new) (s.interfaceOf? a) (s'.interfaceOf? a') := by
  obtain ⟨r, hr, hra⟩ := mem_aliasIdentifiers.mp ha
  obtain ⟨r', hr', hrr'⟩ := forall₂_exists_right h.references hr
  -- The alias of the mirrored reference stands at the path of `a'`, so it is `a'`.
  have hra' : InterfaceReference.alias? r' = some a' := by
    have hrel := InterfaceReference.alias?_mirror hrr'
    rw [hra] at hrel
    cases hb : InterfaceReference.alias? r' with
    | none => rw [hb] at hrel; cases hrel
    | some b =>
      rw [hb] at hrel
      cases hrel with
      | some hab =>
        have hbmem := mem_file_of_mem_aliasIdentifiers (mem_aliasIdentifiers.mpr ⟨r', hr', hb⟩)
        have hamem := mem_file_of_mem_aliasIdentifiers ha'
        rw [s'.cursor_file] at hbmem hamem
        rw [Node.eq_of_path_eq hbmem hamem (hab.path_eq.trans haa'.path_eq.symm)]
  rw [interfaceOf?_alias hr hra hwidth, interfaceOf?_alias hr' hra' hwidth']
  exact InterfaceReference.interface?_mirror hrr'

end Mirrors

end Scope

end Nesc
