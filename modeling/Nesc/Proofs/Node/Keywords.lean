import Nesc.Node.Field
import Nesc.Proofs.Node.Shape
import Nesc.Tree.Builder

/-!
# Two readings of a keyword

An access clause says its direction by a keyword, and a bare declaration its kind. Either can be read
in two ways: as the choice that the first keyword says, whichever it is, and as a token, where one
keyword is looked for before the other. With one keyword the readings agree. They part exactly where
the keyword that is looked for second stands ahead of the other one (`Cursor.readings_iff`): the choice
is then the one it says, and the token is the other keyword (`Cursor.Ahead.readings`).
-/

namespace Nesc

namespace Cursor

variable {α : Type}

/-- A value and a token say the same: a value goes with a token of its keyword's kind, and no value
with no token. -/
def Agree (keyword : α → Kind) (value : Option α) (token : Option Cursor) : Prop :=
  (∀ v, value = some v ↔ token.bind (·.tree.tokenKind?) = some (keyword v)) ∧
    (value = none ↔ token = none)

/-- Right below `c`, a token of kind `k` stands ahead of the first token of kind `j`. -/
def Ahead (k j : Kind) (c : Cursor) : Prop :=
  ∃ before after, c.children = before ++ after ∧
    (∃ u ∈ before, u.tree.tokenKind? = some k) ∧
    (∀ u ∈ before, u.tree.tokenKind? ≠ some j) ∧
    ∃ u ∈ after, u.tree.tokenKind? = some j

/-- The choice of a node is what its first child says that says anything. -/
theorem choice?_eq_findSome? (read : Kind → Option α) (c : Cursor) :
    c.choice? read = c.children.findSome? fun d => d.tree.tokenKind?.bind read := by
  rw [choice?_eq, ← map_tree_children, List.findSome?_map]
  rfl

theorem tokenKind?_of_token? {k : Kind} {c t : Cursor} (h : c.token? k = some t) :
    t.tree.tokenKind? = some k := by
  simpa using List.find?_some h

/-! ## A choice between two keywords -/

section Readings

variable {read : Kind → Option α} {keyword : α → Kind} {x y : α} {c : Cursor}
  (hread : ∀ k v, read k = some v ↔ k = keyword v)

include hread in
theorem agree_of_token {t : Cursor} {v : α} (h : t.tree.tokenKind? = some (keyword v)) :
    Agree keyword (some v) (some t) := by
  refine ⟨fun w => ?_, by simp⟩
  rw [Option.bind_some, h, Option.some_inj, Option.some_inj]
  constructor
  · rintro rfl
    rfl
  · intro hvw
    have hw := (hread _ w).mpr hvw
    rw [(hread _ v).mpr rfl] at hw
    exact Option.some.inj hw

variable (hall : ∀ v, v = x ∨ v = y)

include hread hall in
/-- Where no token is the keyword of `x`, only `y` can be read. -/
theorem findSome?_of_lacks {cs : List Cursor}
    (h : ∀ d ∈ cs, d.tree.tokenKind? ≠ some (keyword x)) :
    (cs.findSome? fun d => d.tree.tokenKind?.bind read) =
      (cs.find? (·.tree.tokenKind? = some (keyword y))).map fun _ => y := by
  induction cs with
  | nil => rfl
  | cons d cs ih =>
    rw [List.forall_mem_cons] at h
    rw [List.findSome?_cons, List.find?_cons, ih h.2]
    by_cases hy : d.tree.tokenKind? = some (keyword y)
    · simp [hy, (hread _ _).mpr rfl]
    · have hnone : d.tree.tokenKind?.bind read = none := by
        rw [Option.eq_none_iff_forall_ne_some]
        intro v hv
        obtain ⟨k, hk, hv⟩ := Option.bind_eq_some_iff.mp hv
        rw [(hread k v).mp hv] at hk
        rcases hall v with rfl | rfl
        · exact h.1 hk
        · exact hy hk
      simp [hy, hnone]

include hread hall in
/-- If the keyword of `y` stands ahead, the choice is `y` while the token is the keyword of `x`. -/
theorem Ahead.readings (h : c.Ahead (keyword y) (keyword x)) : c.choice? read = some y ∧
    ([keyword x, keyword y].findSome? c.token?).bind (·.tree.tokenKind?) = some (keyword x) := by
  obtain ⟨before, after, hc, ⟨u, hu, huy⟩, hbefore, w, hw, hwx⟩ := h
  constructor
  · have hfound : (before.find? (·.tree.tokenKind? = some (keyword y))).isSome = true := by
      rw [List.isSome_find?, List.any_eq_true]
      exact ⟨u, hu, decide_eq_true huy⟩
    obtain ⟨d, hd⟩ := Option.isSome_iff_exists.mp hfound
    rw [choice?_eq_findSome?, hc, List.findSome?_append, findSome?_of_lacks hread hall hbefore, hd]
    rfl
  · have hfound : (c.token? (keyword x)).isSome = true := by
      rw [token?, hc, List.isSome_find?, List.any_eq_true]
      exact ⟨w, List.mem_append_right before hw, decide_eq_true hwx⟩
    obtain ⟨t, ht⟩ := Option.isSome_iff_exists.mp hfound
    rw [List.findSome?_cons, ht]
    exact tokenKind?_of_token? ht

include hread hall in
/-- If the keyword of `y` does not stand ahead, both readings come from one token, or from none. -/
theorem agree_of_not_ahead (h : ¬ c.Ahead (keyword y) (keyword x)) :
    Agree keyword (c.choice? read) ([keyword x, keyword y].findSome? c.token?) := by
  rw [choice?_eq_findSome?]
  cases hx : c.token? (keyword x) with
  | none =>
    have hlacks : ∀ d ∈ c.children, d.tree.tokenKind? ≠ some (keyword x) := by
      intro d hd hdx
      exact List.find?_eq_none.mp hx d hd (decide_eq_true hdx)
    have htoken : [keyword x, keyword y].findSome? c.token? = c.token? (keyword y) := by
      simp [hx]
    rw [findSome?_of_lacks hread hall hlacks, htoken]
    change Agree keyword ((c.token? (keyword y)).map _) _
    cases hy : c.token? (keyword y) with
    | none => exact ⟨by simp, by simp⟩
    | some t => exact agree_of_token hread (tokenKind?_of_token? hy)
  | some t =>
    have htx : t.tree.tokenKind? = some (keyword x) := tokenKind?_of_token? hx
    obtain ⟨-, before, after, hc, hbefore⟩ := List.find?_eq_some_iff_append.mp hx
    have hlacks : ∀ d ∈ before, d.tree.tokenKind? ≠ some (keyword x) := by
      intro d hd hdx
      simpa [hdx] using hbefore d hd
    -- In front of the first keyword of `x` no token says `y`: it would stand ahead.
    have hnone : before.find? (·.tree.tokenKind? = some (keyword y)) = none := by
      rw [List.find?_eq_none]
      intro d hd hdy
      exact h ⟨before, t :: after, hc, ⟨d, hd, of_decide_eq_true hdy⟩, hlacks,
        t, List.mem_cons_self, htx⟩
    have hchoice : (c.children.findSome? fun d => d.tree.tokenKind?.bind read) = some x := by
      rw [hc, List.findSome?_append, findSome?_of_lacks hread hall hlacks, hnone]
      simp [htx, (hread _ _).mpr rfl]
    rw [hchoice, List.findSome?_cons, hx]
    exact agree_of_token hread htx

include hread hall in
/-- Where the second keyword comes ahead of the first, the choice follows the order in the text and
the search that of the list, so that they disagree. -/
theorem not_agree_of_ahead (hxy : x ≠ y) (h : c.Ahead (keyword y) (keyword x)) :
    ¬ Agree keyword (c.choice? read) ([keyword x, keyword y].findSome? c.token?) := by
  obtain ⟨hchoice, htoken⟩ := h.readings hread hall
  intro hagree
  have hx := (hagree.1 x).mpr htoken
  rw [hchoice] at hx
  exact hxy (Option.some.inj hx).symm

include hread hall in
/-- The readings agree unless the keyword of `y` stands ahead, and then they part in one way only. One
of them finds nothing exactly if the other does. -/
theorem readings_iff (hxy : x ≠ y) (c : Cursor) :
    let choice := c.choice? read
    let token := [keyword x, keyword y].findSome? c.token?
    (Agree keyword choice token ↔ ¬ c.Ahead (keyword y) (keyword x)) ∧
    (c.Ahead (keyword y) (keyword x) ↔
      choice = some y ∧ token.bind (·.tree.tokenKind?) = some (keyword x)) ∧
    (choice = none ↔ token = none) := by
  intro choice token
  by_cases hahead : c.Ahead (keyword y) (keyword x)
  · obtain ⟨hchoice, htoken⟩ := hahead.readings hread hall
    obtain ⟨t, ht, -⟩ := Option.bind_eq_some_iff.mp htoken
    refine ⟨iff_of_false (not_agree_of_ahead hread hall hxy hahead) (not_not.mpr hahead),
      iff_of_true hahead ⟨hchoice, htoken⟩, iff_of_false ?_ ?_⟩
    · simp [choice, hchoice]
    · simp [token, ht]
  · have hagree := agree_of_not_ahead hread hall hahead
    refine ⟨iff_of_true hagree hahead, iff_of_false hahead ?_, hagree.2⟩
    rintro ⟨hchoice, htoken⟩
    have hx := (hagree.1 x).mpr htoken
    exact hxy (Option.some.inj (hx.symm.trans hchoice))

end Readings

end Cursor

/-! ## Clauses and declarations -/

theorem Direction.ofKeyword?_eq_some_iff (k : Kind) (d : Direction) :
    Direction.ofKeyword? k = some d ↔ k = d.keyword := by
  cases d <;> cases k <;> simp [Direction.ofKeyword?, Direction.keyword]

theorem DeclarationKind.ofKeyword?_eq_some_iff (k : Kind) (d : DeclarationKind) :
    DeclarationKind.ofKeyword? k = some d ↔ k = d.keyword := by
  cases d <;> cases k <;> simp [DeclarationKind.ofKeyword?, DeclarationKind.keyword]

theorem Access.field?_direction (a : Access) :
    a.cursor.field? .direction = (Access.directionToken? a).map .token := by
  rw [Cursor.field?, Cursor.schema?, a.nodeKind?_cursor]
  rfl

theorem Declaration.field?_kind (d : Declaration) :
    d.cursor.field? .kind = (Declaration.kindToken? d).map .token := by
  rw [Cursor.field?, Cursor.schema?, d.nodeKind?_cursor]
  rfl

/-- The direction of a clause and its direction token, which is what the field of that name holds,
agree unless a `uses` stands ahead of the first `provides`; exactly then the direction is `uses` and
the token a `provides`. Both are there or neither is. The same holds of the kind of a bare declaration
and its token, for an `event` ahead of the first `command`. -/
theorem keywords_agree_iff (a : Access) (d : Declaration) :
    (a.cursor.field? .direction = (Access.directionToken? a).map .token ∧
      (Cursor.Agree Direction.keyword (Access.direction? a) (Access.directionToken? a) ↔
        ¬ a.cursor.Ahead .usesKw .providesKw) ∧
      (a.cursor.Ahead .usesKw .providesKw ↔ Access.direction? a = some .uses ∧
        (Access.directionToken? a).bind (·.tree.tokenKind?) = some .providesKw) ∧
      (Access.direction? a = none ↔ Access.directionToken? a = none)) ∧
    d.cursor.field? .kind = (Declaration.kindToken? d).map .token ∧
      (Cursor.Agree DeclarationKind.keyword (Declaration.kind? d) (Declaration.kindToken? d) ↔
        ¬ d.cursor.Ahead .eventKw .commandKw) ∧
      (d.cursor.Ahead .eventKw .commandKw ↔ Declaration.kind? d = some .event ∧
        (Declaration.kindToken? d).bind (·.tree.tokenKind?) = some .commandKw) ∧
      (Declaration.kind? d = none ↔ Declaration.kindToken? d = none) := by
  have hdirection : ∀ v : Direction, v = .provides ∨ v = .uses := fun v => by cases v <;> simp
  have hkind : ∀ v : DeclarationKind, v = .command ∨ v = .event := fun v => by cases v <;> simp
  refine ⟨⟨Access.field?_direction a, ?_⟩, Declaration.field?_kind d, ?_⟩
  · exact Cursor.readings_iff Direction.ofKeyword?_eq_some_iff hdirection nofun a.cursor
  · exact Cursor.readings_iff DeclarationKind.ofKeyword?_eq_some_iff hkind nofun d.cursor

/-- A clause that holds both keywords, `uses` first, is read as `uses` and has a `provides` for its
token. -/
theorem keywords_disagree :
    let t : Tree := .node .sourceFile [.node .access [.mark .usesKw, .space, .mark .providesKw]]
    Tree.build [.start .sourceFile, .start .access, .keyword "uses", .space, .keyword "provides",
      .finish, .finish] = .ok t ∧
    ∃ a : Access, a.cursor ∈ (Cursor.root t).elements ∧ Access.direction? a = some .uses ∧
      (Access.directionToken? a).map Cursor.tree = some (.mark .providesKw) ∧
      ¬ Cursor.Agree Direction.keyword (Access.direction? a) (Access.directionToken? a) := by
  intro t
  refine ⟨rfl, ⟨⟨[0], 0, .node .access [.mark .usesKw, .space, .mark .providesKw]⟩, rfl⟩,
    by decide +kernel, rfl, rfl, ?_⟩
  intro hagree
  exact nomatch (hagree.1 .provides).mpr rfl

end Nesc
