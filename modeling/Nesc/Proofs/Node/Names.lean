import Nesc.Scope.Facts

/-!
# Reading names

An identifier has a spelling if it has a name token, and every function that reads names is
determined by the spellings: reading one name, testing it, finding the first identifier of a name,
all of them, and listing the names. A function that has to read a broken identifier fails; each
statement here says which identifiers it reads.
-/

namespace Nesc

/-- A computation of two steps goes well exactly if both steps do. -/
theorem bind_eq_ok_iff {ε α β : Type} {x : Except ε α} {f : α → Except ε β} {b : β} :
    (x >>= f) = .ok b ↔ ∃ a, x = .ok a ∧ f a = .ok b := by
  cases x with
  | error e => exact ⟨nofun, fun ⟨_, h, _⟩ => nomatch h⟩
  | ok a =>
    refine ⟨fun h => ⟨a, rfl, h⟩, ?_⟩
    rintro ⟨_, h, hb⟩
    cases h
    exact hb

namespace Identifier

theorem name_eq_ok_iff {i : Identifier} {n : String} : name i = .ok n ↔ spelling? i = some n := by
  unfold spelling?
  cases name i with
  | error m => exact ⟨nofun, nofun⟩
  | ok m => exact ⟨fun h => congrArg Except.toOption h, fun h => congrArg Except.ok (Option.some.inj h)⟩

/-- The spelling of an identifier is the text of its name token. -/
theorem spelling?_eq_some_iff {i : Identifier} {n : String} :
    spelling? i = some n ↔ ∃ t, token? i = some t ∧ t.text = n := by
  rw [← name_eq_ok_iff]
  unfold name
  cases token? i with
  | none => exact ⟨nofun, fun ⟨_, h, _⟩ => nomatch h⟩
  | some t =>
    refine ⟨fun h => ⟨t, rfl, Except.ok.inj h⟩, ?_⟩
    rintro ⟨u, hu, rfl⟩
    cases hu
    rfl

/-- A name token is a child of its identifier, and a token of the kind of words. -/
theorem token?_eq_some {i : Identifier} {t : Cursor} (h : token? i = some t) :
    t ∈ i.cursor.children ∧ t.tree = .token .ident t.text := by
  refine ⟨List.mem_of_find?_eq_some h, ?_⟩
  have hkind := List.find?_some h
  obtain ⟨path, start, tree⟩ := t
  cases tree with
  | node k ts => simp [Tree.tokenKind?] at hkind
  | token k s =>
    simp only [Tree.tokenKind?, decide_eq_true_eq, Option.some.injEq] at hkind
    rw [hkind]
    rfl

theorem nameRange_of_token? {i : Identifier} {t : Cursor} (h : token? i = some t) :
    nameRange i = t.range := by
  simp [nameRange, h]

/-! ## Testing a name -/

theorem hasName_of_spelling? {i : Identifier} {n : String} (h : spelling? i = some n) (s : String) :
    hasName s i = .ok (n == s) := by
  rw [hasName, name_eq_ok_iff.mpr h]
  rfl

theorem hasName_of_broken {i : Identifier} (h : spelling? i = none) (s : String) :
    ∃ m, hasName s i = .error m := by
  unfold spelling? at h
  unfold hasName
  cases hn : name i with
  | error m => exact ⟨m, rfl⟩
  | ok n => rw [hn] at h; cases h

/-! ## Searching by name -/

/-- A search by name stops at the first identifier if it has the name, and goes on if it has
another. -/
theorem firstNamed?_cons_of_spelling? {i : Identifier} {n : String} (h : spelling? i = some n)
    (s : String) (is : List Identifier) :
    firstNamed? s (i :: is) = if n = s then .ok (some i) else firstNamed? s is := by
  unfold firstNamed?
  rw [List.findM?, hasName_of_spelling? h]
  by_cases hn : n = s
  · rw [if_pos hn, beq_iff_eq.mpr hn]
    rfl
  · rw [if_neg hn, beq_eq_false_iff_ne.mpr hn]
    rfl

/-- A search by name fails at a broken identifier that it comes to. -/
theorem firstNamed?_cons_of_broken {i : Identifier} (h : spelling? i = none) (s : String)
    (is : List Identifier) : ∃ m, firstNamed? s (i :: is) = .error m := by
  obtain ⟨m, hm⟩ := hasName_of_broken h s
  refine ⟨m, ?_⟩
  unfold firstNamed?
  rw [List.findM?, hm]
  rfl

/-- The search reads the identifiers up to the first one of the name. -/
theorem firstNamed?_eq_some_iff {s : String} {is : List Identifier} {i : Identifier} :
    firstNamed? s is = .ok (some i) ↔ ∃ before after, is = before ++ i :: after ∧
      spelling? i = some s ∧ ∀ j ∈ before, ∃ n, spelling? j = some n ∧ n ≠ s := by
  induction is with
  | nil =>
    refine ⟨nofun, ?_⟩
    rintro ⟨before, after, h, -⟩
    exact absurd h (by simp)
  | cons j is ih =>
    cases hj : spelling? j with
    | none =>
      obtain ⟨m, hm⟩ := firstNamed?_cons_of_broken hj s is
      rw [hm]
      refine ⟨nofun, ?_⟩
      rintro ⟨before, after, h, hi, hb⟩
      rcases List.cons_eq_append_iff.mp h with ⟨rfl, h⟩ | ⟨before, rfl, -⟩
      · cases h
        rw [hj] at hi
        cases hi
      · obtain ⟨n, hn, -⟩ := hb j List.mem_cons_self
        rw [hj] at hn
        cases hn
    | some n =>
      rw [firstNamed?_cons_of_spelling? hj]
      by_cases hn : n = s
      · subst hn
        rw [if_pos rfl]
        refine ⟨fun h => ?_, ?_⟩
        · cases h
          exact ⟨[], is, rfl, hj, nofun⟩
        · rintro ⟨before, after, h, -, hb⟩
          rcases List.cons_eq_append_iff.mp h with ⟨rfl, h⟩ | ⟨before, rfl, -⟩
          · cases h
            rfl
          · obtain ⟨m, hm, hne⟩ := hb j List.mem_cons_self
            rw [hj] at hm
            exact absurd (Option.some.inj hm).symm hne
      · rw [if_neg hn, ih]
        refine ⟨?_, ?_⟩
        · rintro ⟨before, after, rfl, hi, hb⟩
          exact ⟨j :: before, after, rfl, hi, List.forall_mem_cons.mpr ⟨⟨n, hj, hn⟩, hb⟩⟩
        · rintro ⟨before, after, h, hi, hb⟩
          rcases List.cons_eq_append_iff.mp h with ⟨rfl, h⟩ | ⟨before, rfl, rfl⟩
          · cases h
            rw [hj] at hi
            exact absurd (Option.some.inj hi) hn
          · exact ⟨before, after, rfl, hi, (List.forall_mem_cons.mp hb).2⟩

/-- A search that finds nothing has read every identifier. -/
theorem firstNamed?_eq_none_iff {s : String} {is : List Identifier} :
    firstNamed? s is = .ok none ↔ ∀ j ∈ is, ∃ n, spelling? j = some n ∧ n ≠ s := by
  induction is with
  | nil => exact ⟨fun _ => nofun, fun _ => rfl⟩
  | cons j is ih =>
    rw [List.forall_mem_cons]
    cases hj : spelling? j with
    | none =>
      obtain ⟨m, hm⟩ := firstNamed?_cons_of_broken hj s is
      rw [hm]
      exact ⟨nofun, fun ⟨⟨_, h, _⟩, _⟩ => nomatch h⟩
    | some n =>
      rw [firstNamed?_cons_of_spelling? hj]
      by_cases hn : n = s
      · rw [if_pos hn]
        exact ⟨nofun, fun ⟨⟨_, h, hne⟩, _⟩ => absurd hn (Option.some.inj h ▸ hne)⟩
      · rw [if_neg hn, ih]
        exact ⟨fun h => ⟨⟨n, rfl, hn⟩, h⟩, fun h => h.2⟩

/-- Where every identifier can be read, the search is a search by spelling. -/
theorem firstNamed?_of_readable {is : List Identifier} (h : ∀ i ∈ is, (spelling? i).isSome)
    (s : String) : firstNamed? s is = .ok (is.find? fun i => spelling? i == some s) := by
  induction is with
  | nil => rfl
  | cons i is ih =>
    obtain ⟨hi, his⟩ := List.forall_mem_cons.mp h
    obtain ⟨n, hn⟩ := Option.isSome_iff_exists.mp hi
    rw [firstNamed?_cons_of_spelling? hn, ih his, List.find?_cons, hn]
    by_cases hns : n = s
    · rw [if_pos hns, hns, beq_self_eq_true]
    · rw [if_neg hns, beq_eq_false_iff_ne.mpr fun h => hns (Option.some.inj h)]

/-! ## All names -/

/-- Names can be listed exactly if every identifier has a spelling. -/
theorem names_eq_ok_iff {is : List Identifier} {ns : List String} :
    names is = .ok ns ↔ is.map spelling? = ns.map some := by
  unfold names
  induction is generalizing ns with
  | nil => cases ns <;> simp [pure, Except.pure]
  | cons i is ih =>
    rw [List.mapM_cons, List.map_cons, bind_eq_ok_iff]
    simp only [bind_eq_ok_iff, name_eq_ok_iff, ih]
    constructor
    · rintro ⟨n, hn, ms, hms, h⟩
      cases h
      rw [hn, hms, List.map_cons]
    · intro h
      cases ns with
      | nil => cases h
      | cons n ms =>
        rw [List.map_cons, List.cons.injEq] at h
        exact ⟨n, h.1, ms, h.2, rfl⟩

/-- Collecting the identifiers of a name reads all of them. -/
theorem allNamed_eq_ok_iff {s : String} {is js : List Identifier} :
    allNamed s is = .ok js ↔
      (∀ i ∈ is, (spelling? i).isSome) ∧ js = is.filter fun i => spelling? i == some s := by
  induction is generalizing js with
  | nil => exact ⟨fun h => ⟨nofun, (Except.ok.inj h).symm⟩, fun h => congrArg Except.ok h.2.symm⟩
  | cons i is ih =>
    rw [List.forall_mem_cons, allNamed]
    cases hi : spelling? i with
    | none =>
      obtain ⟨m, hm⟩ := hasName_of_broken hi s
      rw [hm]
      exact ⟨nofun, fun h => nomatch h.1.1⟩
    | some n =>
      rw [hasName_of_spelling? hi, List.filter_cons, hi]
      by_cases hn : n = s
      · subst hn
        simp only [beq_self_eq_true, ↓reduceIte]
        constructor
        · intro h
          obtain ⟨_, htrue, h⟩ := bind_eq_ok_iff.mp h
          cases htrue
          obtain ⟨ks, hks, h⟩ := bind_eq_ok_iff.mp h
          cases h
          obtain ⟨hread, rfl⟩ := ih.mp hks
          exact ⟨⟨rfl, hread⟩, rfl⟩
        · rintro ⟨⟨-, hread⟩, rfl⟩
          refine bind_eq_ok_iff.mpr ⟨true, rfl, bind_eq_ok_iff.mpr ⟨_, ih.mpr ⟨hread, rfl⟩, rfl⟩⟩
      · have hne : (some n == some s) = false :=
          beq_eq_false_iff_ne.mpr fun h => hn (Option.some.inj h)
        rw [hne, beq_eq_false_iff_ne.mpr hn]
        constructor
        · intro h
          obtain ⟨_, hfalse, h⟩ := bind_eq_ok_iff.mp h
          cases hfalse
          obtain ⟨hread, rfl⟩ := ih.mp h
          exact ⟨⟨rfl, hread⟩, rfl⟩
        · rintro ⟨⟨-, hread⟩, rfl⟩
          exact ih.mpr ⟨hread, rfl⟩

end Identifier

end Nesc
