import Nesc.Proofs.Node.Names
import Nesc.Proofs.Node.Shape
import Nesc.Proofs.Tree.Places

/-!
# Broken identifiers

An identifier is broken if no name token stands right below it. Reading the name of a broken
identifier is the only thing that can fail when names are read, so each function that reads names and
fails complains about a broken identifier among those it was given (`Identifier.Blames`). In a tree
without broken identifiers (`Tree.Intact`) nothing can be complained about; whether a tree is such
can be computed (`Tree.isIntact_iff`).
-/

namespace Nesc

section Except

variable {ε α β : Type} {x : Except ε α} {e : ε}

/-- A failure of one step is that of the first, or of the second after the first went well. -/
theorem bind_eq_error_iff {f : α → Except ε β} :
    (x >>= f) = .error e ↔ x = .error e ∨ ∃ a, x = .ok a ∧ f a = .error e := by
  cases x <;> simp [bind, Except.bind]

theorem map_eq_ok_iff {f : α → β} {b : β} : x.map f = .ok b ↔ ∃ a, x = .ok a ∧ f a = b := by
  cases x <;> simp [Except.map]

theorem map_eq_error_iff {f : α → β} : x.map f = .error e ↔ x = .error e := by
  cases x <;> simp [Except.map]

end Except

namespace Identifier

variable {i : Identifier} {is : List Identifier} {m : Malformed} {s : String}

/-- A name token stands right below the identifier. -/
def HasToken (i : Identifier) : Prop := ∃ d ∈ i.cursor.children, d.tree.tokenKind? = some .ident

/-- An identifier can be read exactly if it has a name token. -/
theorem isSome_token?_iff : (token? i).isSome = true ↔ i.HasToken := by
  simp [token?, Node.token?, Cursor.token?, HasToken]

theorem isSome_spelling?_iff : (spelling? i).isSome = true ↔ i.HasToken := by
  rw [← isSome_token?_iff, spelling?, name]
  cases token? i <;> simp [Except.toOption]

/-- Reading a name fails only at an identifier without a name token, and blames that identifier. -/
theorem name_eq_error_iff : name i = .error m ↔ ¬ i.HasToken ∧ m = .of i .name := by
  rw [← isSome_token?_iff, name]
  cases token? i <;> simp [eq_comm]

theorem hasName_eq_error_iff : hasName s i = .error m ↔ ¬ i.HasToken ∧ m = .of i .name := by
  rw [hasName, map_eq_error_iff, name_eq_error_iff]

/-! ## Reading several names -/

/-- The complaint is that one of the identifiers has no name token. -/
def Blames (is : List Identifier) (m : Malformed) : Prop :=
  ∃ i ∈ is, ¬ i.HasToken ∧ m = .of i .name

theorem Blames.of_head (h : ¬ i.HasToken ∧ m = .of i .name) : Blames (i :: is) m :=
  ⟨i, List.mem_cons_self, h⟩

theorem Blames.cons (h : Blames is m) : Blames (i :: is) m := by
  obtain ⟨j, hj, hbroken⟩ := h
  exact ⟨j, List.mem_cons_of_mem i hj, hbroken⟩

/-- A search by name fails at an identifier that it reads, and blames it. -/
theorem blames_of_firstNamed? (h : firstNamed? s is = .error m) : Blames is m := by
  induction is with
  | nil => cases h
  | cons i is ih =>
    rw [firstNamed?, List.findM?] at h
    rcases bind_eq_error_iff.mp h with hi | ⟨found, -, h⟩
    · exact .of_head (hasName_eq_error_iff.mp hi)
    · cases found with
      | true => cases h
      | false => exact (ih h).cons

/-- A search fails exactly if it comes to an identifier without a name token before it comes to one of
the name. -/
theorem exists_firstNamed?_eq_error_iff : (∃ m, firstNamed? s is = .error m) ↔
    ∃ before i after, is = before ++ i :: after ∧ ¬ i.HasToken ∧
      ∀ j ∈ before, spelling? j ≠ some s := by
  induction is with
  | nil =>
    constructor
    · rintro ⟨m, h⟩
      cases h
    · rintro ⟨before, i, after, h, -⟩
      exact absurd h.symm (List.append_ne_nil_of_right_ne_nil before (List.cons_ne_nil i after))
  | cons j is ih =>
    cases hj : spelling? j with
    | none =>
      have hbroken : ¬ j.HasToken := by rw [← isSome_spelling?_iff, hj]; exact nofun
      exact ⟨fun _ => ⟨[], j, is, rfl, hbroken, nofun⟩, fun _ => firstNamed?_cons_of_broken hj s is⟩
    | some n =>
      have htoken : j.HasToken := by rw [← isSome_spelling?_iff, hj]; rfl
      rw [firstNamed?_cons_of_spelling? hj]
      by_cases hn : n = s
      · -- The search ends at `j`; what the other side speaks of would stand behind it.
        subst hn
        rw [if_pos rfl]
        constructor
        · rintro ⟨m, h⟩
          cases h
        · rintro ⟨before, i, after, h, hi, hbefore⟩
          rcases List.cons_eq_append_iff.mp h with ⟨rfl, h⟩ | ⟨before, rfl, -⟩
          · cases h
            exact absurd htoken hi
          · exact absurd hj (hbefore j List.mem_cons_self)
      · rw [if_neg hn, ih]
        constructor
        · rintro ⟨before, i, after, rfl, hi, hbefore⟩
          refine ⟨j :: before, i, after, rfl, hi, List.forall_mem_cons.mpr ⟨?_, hbefore⟩⟩
          exact fun h => hn (Option.some.inj (hj.symm.trans h))
        · rintro ⟨before, i, after, h, hi, hbefore⟩
          rcases List.cons_eq_append_iff.mp h with ⟨rfl, h⟩ | ⟨before, rfl, rfl⟩
          · cases h
            exact absurd htoken hi
          · exact ⟨before, i, after, rfl, hi, (List.forall_mem_cons.mp hbefore).2⟩

/-- If no identifier has the name, the search reads all of them and fails at a broken one. -/
theorem exists_firstNamed?_error (hi : i ∈ is) (hbroken : ¬ i.HasToken)
    (hne : ∀ j ∈ is, spelling? j ≠ some s) : ∃ m, firstNamed? s is = .error m := by
  obtain ⟨before, after, rfl⟩ := List.append_of_mem hi
  refine exists_firstNamed?_eq_error_iff.mpr ⟨before, i, after, rfl, hbroken, fun j hj => ?_⟩
  exact hne j (List.mem_append_left _ hj)

/-- Listing names fails at one of the identifiers, and blames it. -/
theorem blames_of_names (h : names is = .error m) : Blames is m := by
  induction is with
  | nil => cases h
  | cons i is ih =>
    rw [names, List.mapM_cons] at h
    rcases bind_eq_error_iff.mp h with hi | ⟨n, -, h⟩
    · exact .of_head (name_eq_error_iff.mp hi)
    · rcases bind_eq_error_iff.mp h with his | ⟨ns, -, h⟩
      · exact (ih his).cons
      · cases h

/-- Collecting all identifiers of a name fails at one of them, and blames it. -/
theorem blames_of_allNamed (h : allNamed s is = .error m) : Blames is m := by
  induction is with
  | nil => cases h
  | cons i is ih =>
    rw [allNamed] at h
    rcases bind_eq_error_iff.mp h with hi | ⟨found, -, h⟩
    · exact .of_head (hasName_eq_error_iff.mp hi)
    · cases found with
      | false => exact (ih h).cons
      | true =>
        rcases bind_eq_error_iff.mp h with his | ⟨js, -, h⟩
        · exact (ih his).cons
        · cases h

end Identifier

/-! ## Trees without broken identifiers -/

mutual

/-- Whether every identifier of the tree has a name token. -/
def Tree.isIntact : Tree → Bool
  | .token .. => true
  | .node k ts => (k != .identifier || ts.any (·.tokenKind? == some .ident)) && Forest.isIntact ts

/-- Whether every identifier of the forest has a name token. -/
def Forest.isIntact : Forest → Bool
  | [] => true
  | t :: ts => t.isIntact && Forest.isIntact ts

end

/-- Every identifier of the tree has a name token. -/
def Tree.Intact (t : Tree) : Prop :=
  ∀ i : Identifier, i.cursor ∈ (Cursor.root t).elements → i.HasToken

theorem Forest.isIntact_iff {ts : Forest} : isIntact ts = true ↔ ∀ t ∈ ts, t.isIntact = true := by
  induction ts with
  | nil => simp [isIntact]
  | cons t ts ih => simp [isIntact, ih]

theorem Tree.isIntact_of_mem_children {t u : Tree} (h : t.isIntact = true) (hu : u ∈ t.children) :
    u.isIntact = true := by
  cases t with
  | token k s => exact absurd hu List.not_mem_nil
  | node k ts =>
    rw [Tree.isIntact, Bool.and_eq_true, Forest.isIntact_iff] at h
    exact h.2 u hu

theorem Identifier.hasToken_iff {i : Identifier} :
    i.HasToken ↔ i.tree.children.any (·.tokenKind? == some .ident) = true := by
  rw [Node.tree, ← Cursor.map_tree_children]
  simp [HasToken]

theorem Identifier.hasToken_of_isIntact {i : Identifier} (h : i.tree.isIntact = true) :
    i.HasToken := by
  rw [hasToken_iff]
  obtain ⟨⟨path, start, t⟩, hk⟩ := i
  cases t with
  | token k s => cases hk
  | node k ts =>
    cases hk
    simp only [Node.tree, Tree.isIntact, Bool.and_eq_true] at h
    exact h.1

/-- A tree is intact if all identifiers that stand in it, wherever it stands, have name tokens. -/
theorem Cursor.isIntact_of_forall {c : Cursor}
    (h : ∀ i : Identifier, i.cursor ∈ c.elements → i.HasToken) : c.tree.isIntact = true := by
  obtain ⟨path, start, t⟩ := c
  induction t using Tree.induction generalizing path start with
  | token k s => rfl
  | node k ts ih =>
    rw [Tree.isIntact, Bool.and_eq_true, Forest.isIntact_iff, ← map_tree_row path 0 start ts,
      List.forall_mem_map, map_tree_row]
    constructor
    · by_cases hk : k = .identifier
      · subst hk
        have htoken := h ⟨⟨path, start, .node .identifier ts⟩, rfl⟩ (self_mem_elements _)
        rw [bne_self_eq_false, Bool.false_or]
        exact Identifier.hasToken_iff.mp htoken
      · simp [hk]
    · intro d hd
      refine ih d.tree (tree_mem_of_mem_row hd) d.path d.start fun i hi => h i ?_
      exact mem_elements_trans (mem_elements_of_mem_children (self_mem_elements _) hd) hi

/-- The test of a tree decides whether all of its identifiers have their name tokens. -/
theorem Tree.isIntact_iff {t : Tree} : t.isIntact = true ↔ t.Intact := by
  refine ⟨fun h i hi => ?_, Cursor.isIntact_of_forall⟩
  apply Identifier.hasToken_of_isIntact
  refine Cursor.elements_induction (motive := fun d => d.tree.isIntact = true) hi h ?_
  intro e f _ he hf
  exact isIntact_of_mem_children he (Cursor.tree_mem_of_mem_children hf)

instance (t : Tree) : Decidable t.Intact := decidable_of_iff _ Tree.isIntact_iff

end Nesc
