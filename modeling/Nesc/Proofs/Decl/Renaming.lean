import Nesc.Decl.Basic
import Nesc.Proofs.Decl.Layout
import Nesc.Proofs.Rename.Accepted
import Nesc.Proofs.Scope.Readable
import Nesc.Proofs.Tree.Respelled

/-!
# Renaming in a description and in its text

Renaming an alias in a description and carrying out the edits of a rename in its layout lead to the
same text. The proof goes through the layout piece by piece: `Forest.Becomes` says what edits do to
the text of a forest that stands somewhere, and a piece either has no alias of the old name
(`Forest.Misses`) or its first one is edited (`Forest.Finds`). The targets lie behind the aliases
and each behind a keyword, so the edits are in order as they come, also where names are empty.
-/

namespace Nesc

open Nesc.Tree (mark blank space identifier)

namespace Forest

/-- Wherever the forest `ts` stands at `start`, the edits replace its text by that of `ts'`. -/
def Becomes (es : List Edit) (start : Nat) (ts ts' : Forest) : Prop :=
  Edit.Rewrites es start (Text.bytes (text ts)) (Text.bytes (text ts'))

namespace Becomes

variable {es fs : List Edit} {start : Nat} {ts ts' us us' : Forest}

theorem refl (start : Nat) (ts : Forest) : Becomes [] start ts ts :=
  Edit.Rewrites.refl start _

/-- Changes to neighbouring pieces make up a change of both. -/
theorem append (hts : Becomes es start ts ts') (hus : Becomes fs (start + width ts) us us') :
    Becomes (es ++ fs) start (ts ++ us) (ts' ++ us') := by
  unfold Becomes at *
  rw [← Cursor.length_bytes_forest] at hus
  rw [text_append, text_append, Text.bytes_append, Text.bytes_append]
  exact hts.append hus

theorem between (us vs : Forest) (h : Becomes es (start + width us) ts ts') :
    Becomes es start (us ++ ts ++ vs) (us ++ ts' ++ vs) := by
  have hfront : Becomes ([] ++ es) start (us ++ ts) (us ++ ts') := (refl start us).append h
  have hwhole := hfront.append (refl _ vs)
  rwa [List.nil_append, List.append_nil] at hwhole

theorem node (k : Kind) (h : Becomes es start ts ts') :
    Becomes es start [.node k ts] [.node k ts'] := by
  have htext : ∀ us : Forest, text [.node k us] = text us := by
    intro us
    rw [text, text, Tree.text, String.append_empty]
  rw [Becomes, htext, htext]
  exact h

/-- An edit over the range of a name respells its identifier. -/
theorem name (start : Nat) (n new : String) :
    Becomes [⟨.ofWidth start n.utf8ByteSize, new⟩] start [identifier n] [identifier new] := by
  have htext : ∀ m : String, text [identifier m] = m := by
    intro m
    simp [identifier, text, Tree.text]
  rw [Becomes, htext, htext]
  refine Edit.Rewrites.single (r := .ofWidth start n.utf8ByteSize) ?_
  rw [Text.length_bytes]
  rfl

end Becomes

/-- A forest of tokens has nothing to read, if nothing is read off a token. -/
theorem flatMap_row_of_tokens {α : Type} {read : Cursor → List α} {path : List Nat} {i start : Nat}
    {ts : Forest} (hread : ∀ c : Cursor, c.tree.isToken = true → read c = [])
    (h : ts.all Tree.isToken = true) : (Cursor.row path i start ts).flatMap read = [] := by
  rw [List.flatMap_eq_nil_iff]
  intro c hc
  exact hread c (List.all_eq_true.mp h _ (Cursor.tree_mem_of_mem_row hc))

/-! ## Pieces with and without the alias -/

/-- The aliases of the references that `read` finds in a forest below `path`. -/
def aliases (read : Cursor → List InterfaceReference) (path : List Nat) (i start : Nat)
    (ts : Forest) : List Identifier :=
  ((Cursor.row path i start ts).flatMap read).filterMap InterfaceReference.alias?

/-- Wherever the forest stands, none of its aliases is the old name. -/
def Misses (read : Cursor → List InterfaceReference) (old : String) (ts : Forest) : Prop :=
  ∀ path i start, (aliases read path i start ts).find? (Identifier.isSpelled old) = none

/-- Wherever the forest stands, an edit of the first alias of the old name turns it into `ts'`. -/
def Finds (read : Cursor → List InterfaceReference) (r : Request) (ts ts' : Forest) : Prop :=
  ∀ path i start, ∃ a,
    (aliases read path i start ts).find? (Identifier.isSpelled r.old) = some a ∧
      Becomes [⟨a.nameRange, r.new⟩] start ts ts'

variable {read : Cursor → List InterfaceReference} {r : Request} {old : String}
  {ts ts' us vs : Forest}

theorem aliases_append (path : List Nat) (i start : Nat) (ts us : Forest) :
    aliases read path i start (ts ++ us) = aliases read path i start ts ++
      aliases read path (i + ts.length) (start + width ts) us := by
  rw [aliases, Cursor.row_append, List.flatMap_append, List.filterMap_append]
  rfl

theorem Misses.append (hts : Misses read old ts) (hus : Misses read old us) :
    Misses read old (ts ++ us) := by
  intro path i start
  rw [aliases_append, List.find?_append, hts, hus]
  rfl

theorem Misses.flatMap {α : Type} {f : α → Forest} {xs : List α}
    (h : ∀ x ∈ xs, Misses read old (f x)) : Misses read old (xs.flatMap f) := by
  induction xs with
  | nil =>
    intro path i start
    rfl
  | cons x xs ih =>
    obtain ⟨hx, hxs⟩ := List.forall_mem_cons.mp h
    exact hx.append (ih hxs)

theorem Misses.of_tokens (hread : ∀ c : Cursor, c.tree.isToken = true → read c = [])
    (h : ts.all Tree.isToken = true) : Misses read old ts := by
  intro path i start
  rw [aliases, flatMap_row_of_tokens hread h]
  rfl

/-- The first old alias of a piece is the first one of the whole if none stands in front of it. -/
theorem Finds.between (h : Finds read r ts ts') (hus : Misses read r.old us) (vs : Forest) :
    Finds read r (us ++ ts ++ vs) (us ++ ts' ++ vs) := by
  intro path i start
  obtain ⟨a, ha, hbecomes⟩ := h path (i + us.length) (start + width us)
  refine ⟨a, ?_, hbecomes.between us vs⟩
  rw [aliases_append, aliases_append, List.find?_append, List.find?_append, hus, ha]
  rfl

/-! ## Pieces with targets -/

/-- The targets found in a forest below `path`. -/
def targets (path : List Nat) (i start : Nat) (ts : Forest) : List Identifier :=
  (Cursor.row path i start ts).flatMap Cursor.statementTargets

/-- Wherever the forest stands, edits of its targets of the old name turn it into `ts'`. -/
def Follows (r : Request) (ts ts' : Forest) : Prop :=
  ∀ path i start, Becomes
    (Edit.each r.new ((targets path i start ts).filter (Identifier.isSpelled r.old))) start ts ts'

theorem Follows.append {us' : Forest} (hts : Follows r ts ts') (hus : Follows r us us') :
    Follows r (ts ++ us) (ts' ++ us') := by
  intro path i start
  have htargets : targets path i start (ts ++ us) = targets path i start ts ++
      targets path (i + ts.length) (start + width ts) us := by
    rw [targets, Cursor.row_append, List.flatMap_append]
    rfl
  rw [htargets, List.filter_append, Edit.each, List.map_append]
  exact (hts path i start).append (hus _ _ _)

theorem Follows.of_tokens (h : ts.all Tree.isToken = true) : Follows r ts ts := by
  intro path i start
  rw [targets, flatMap_row_of_tokens (fun _ => Cursor.statementTargets_of_isToken) h]
  exact Becomes.refl start ts

theorem Follows.flatMap {α : Type} {f f' : α → Forest} {xs : List α}
    (h : ∀ x ∈ xs, Follows r (f x) (f' x)) : Follows r (xs.flatMap f) (xs.flatMap f') := by
  induction xs with
  | nil => exact .of_tokens rfl
  | cons x xs ih =>
    obtain ⟨hx, hxs⟩ := List.forall_mem_cons.mp h
    exact hx.append (ih hxs)

end Forest

namespace Decl

open Forest (Becomes Misses Finds Follows aliases targets)

/-- What becomes of a list whose first element with a property is changed. -/
theorem exists_split_of_first {α : Type} {p : α → Prop} [DecidablePred p] {g : α → α}
    {f : List α → List α} (hcons : ∀ x xs, f (x :: xs) = if p x then g x :: xs else x :: f xs)
    {xs : List α} (h : ∃ x ∈ xs, p x) :
    ∃ us x vs, xs = us ++ x :: vs ∧ (∀ u ∈ us, ¬ p u) ∧ p x ∧ f xs = us ++ g x :: vs := by
  induction xs with
  | nil =>
    obtain ⟨x, hx, -⟩ := h
    exact absurd hx List.not_mem_nil
  | cons y ys ih =>
    rw [hcons]
    by_cases hy : p y
    · rw [if_pos hy]
      exact ⟨[], y, ys, rfl, nofun, hy, rfl⟩
    · rw [if_neg hy]
      obtain ⟨x, hx, hpx⟩ := h
      have hmem : x ∈ ys := (List.mem_cons.mp hx).resolve_left fun hxy => hy (hxy ▸ hpx)
      obtain ⟨us, x, vs, rfl, hus, hpx, hf⟩ := ih ⟨x, hmem, hpx⟩
      exact ⟨y :: us, x, vs, rfl, List.forall_mem_cons.mpr ⟨hy, hus⟩, hpx, by rw [hf]; rfl⟩

/-! ## Entries -/

namespace Entry

variable {r : Request} {e : Entry}

theorem aliases_tree (path : List Nat) (i start : Nat) (e : Entry) :
    aliases Cursor.entryReferences path i start [e.tree] =
      (InterfaceReference.alias? ⟨⟨path ++ [i] ++ [2],
        start + Forest.width [mark .interfaceKw, space], e.reference⟩, rfl⟩).toList := by
  rw [aliases, Cursor.row, Cursor.row, List.flatMap_singleton, Cursor.entryReferences_tree,
    List.filterMap_eq_flatMap_toList, List.flatMap_singleton]

theorem aliases_tree_of_some {n : String} (h : e.alias? = some n) (path : List Nat)
    (i start : Nat) : ∃ p, aliases Cursor.entryReferences path i start [e.tree] = [.ofName p
      (start + Forest.width [mark .interfaceKw, space] + Forest.width e.aliasLead) n] := by
  rw [aliases_tree, alias?_reference_of_some h]
  exact ⟨_, rfl⟩

theorem misses_tokens {ts : Forest} (h : ts.all Tree.isToken = true) :
    Misses Cursor.entryReferences r.old ts :=
  .of_tokens (fun _ => Cursor.entryReferences_of_isToken) h

/-- An entry with another alias, or none, is not what the rename looks for. -/
theorem misses (h : e.alias? ≠ some r.old) : Misses Cursor.entryReferences r.old [e.tree] := by
  intro path i start
  cases ha : e.alias? with
  | none =>
    rw [aliases_tree, alias?_reference_of_none ha]
    rfl
  | some n =>
    obtain ⟨p, hp⟩ := aliases_tree_of_some ha path i start
    rw [hp, List.find?_cons_of_neg, List.find?_nil]
    rw [Identifier.isSpelled_iff, Identifier.spelling?_ofName, ← ha]
    exact h

/-- Editing the alias of an entry with the old name gives the layout of the entry with the new
one. -/
theorem finds (h : e.alias? = some r.old) :
    Finds Cursor.entryReferences r [e.tree] [{ e with alias? := some r.new }.tree] := by
  -- What stands around the alias does not depend on its spelling.
  have htree : ∀ n, { e with alias? := some n }.tree = .node .parameterizedInterface
      ([mark .interfaceKw, space] ++ [.node .interfaceReference (e.aliasLead ++ [identifier n] ++ [])]
        ++ parameterPart e.parameters) := by
    intro n
    rw [tree, reference_of_alias rfl]
    simp [aliasLead, typePart]
  have hold : e.tree = { e with alias? := some r.old }.tree := by
    rw [← h]
  intro path i start
  obtain ⟨p, hp⟩ := aliases_tree_of_some h path i start
  have hspelled := Identifier.isSpelled_iff.mpr (Identifier.spelling?_ofName p
    (start + Forest.width [mark .interfaceKw, space] + Forest.width e.aliasLead) r.old)
  rw [hp]
  refine ⟨_, List.find?_cons_of_pos hspelled, ?_⟩
  rw [Identifier.nameRange_ofName, hold, htree r.old, htree r.new]
  refine Becomes.node _ (Becomes.between _ _ (Becomes.node _ (Becomes.between _ _ ?_)))
  exact Becomes.name _ _ _

/-- A line holds the tree of its entry between tokens that depend on the number of entries only,
which a rename does not change. -/
theorem line_eq (n : Nat) : ∃ us vs : Forest, us.all Tree.isToken = true ∧
    vs.all Tree.isToken = true ∧ ∀ e : Entry, e.line n = us ++ [e.tree] ++ vs := by
  by_cases hn : n = 1
  · refine ⟨[], [], rfl, rfl, fun e => ?_⟩
    rw [line, if_pos hn]
    rfl
  · refine ⟨[blank "\n    "], [mark .semicolon], rfl, rfl, fun e => ?_⟩
    rw [line, if_neg hn]
    rfl

theorem misses_line (n : Nat) (h : e.alias? ≠ some r.old) :
    Misses Cursor.entryReferences r.old (e.line n) := by
  obtain ⟨us, vs, hus, hvs, hline⟩ := line_eq n
  rw [hline]
  exact ((misses_tokens hus).append (misses h)).append (misses_tokens hvs)

/-- The line of an entry with the old alias is edited into that of the renamed entry. -/
theorem finds_line (n : Nat) (h : e.alias? = some r.old) :
    Finds Cursor.entryReferences r (e.line n) ({ e with alias? := some r.new }.line n) := by
  obtain ⟨us, vs, hus, -, hline⟩ := line_eq n
  rw [hline, hline]
  exact (finds h).between (misses_tokens hus) vs

theorem length_renameFirst (r : Request) (es : List Entry) :
    (renameFirst r es).length = es.length := by
  induction es with
  | nil => rfl
  | cons e es ih =>
    rw [renameFirst]
    split
    · rfl
    · rw [List.length_cons, ih, List.length_cons]

/-- Lines with the old alias become those of the renamed list: the first entry with the alias is
edited and the others stay. -/
theorem finds_lines (n : Nat) {es : List Entry} (h : ∃ e ∈ es, e.alias? = some r.old) :
    Finds Cursor.entryReferences r (es.flatMap (line n)) ((renameFirst r es).flatMap (line n)) := by
  obtain ⟨us, e, vs, rfl, hus, he, hrename⟩ :=
    exists_split_of_first (f := renameFirst r) (fun _ _ => rfl) h
  rw [hrename]
  have hfinds := (finds_line n he).between (Misses.flatMap fun u hu => misses_line n (hus u hu))
    (vs.flatMap (line n))
  simpa using hfinds

theorem misses_lines (n : Nat) {es : List Entry} (h : ¬ ∃ e ∈ es, e.alias? = some r.old) :
    Misses Cursor.entryReferences r.old (es.flatMap (line n)) :=
  Misses.flatMap fun e he => misses_line n fun ha => h ⟨e, he, ha⟩

end Entry

/-! ## Clauses -/

theorem Items.hasAlias_iff {old : String} {items : Items} :
    items.hasAlias old = true ↔ ∃ e ∈ items.entries, e.alias? = some old := by
  simp [hasAlias]

namespace Clause

variable {r : Request} {c : Clause}

theorem aliases_tree {es : List Entry} (h : c.items = .interfaces es) (path : List Nat)
    (i start : Nat) : aliases Cursor.clauseReferences path i start [c.tree] =
      aliases Cursor.entryReferences (path ++ [i] ++ [(c.lead es.length).length]) 0
        (start + Forest.width (c.lead es.length)) (es.flatMap (Entry.line es.length)) := by
  rw [aliases, Cursor.row, Cursor.row, List.flatMap_singleton, Cursor.clauseReferences_tree h]
  rfl

theorem misses_tokens {ts : Forest} (h : ts.all Tree.isToken = true) :
    Misses Cursor.clauseReferences r.old ts :=
  .of_tokens (fun _ => Cursor.clauseReferences_of_isToken) h

theorem misses (h : ¬ c.items.hasAlias r.old = true) :
    Misses Cursor.clauseReferences r.old [c.tree] := by
  intro path i start
  rw [Items.hasAlias_iff] at h
  cases hitems : c.items with
  | interfaces es =>
    rw [hitems] at h
    rw [aliases_tree hitems]
    exact Entry.misses_lines _ h _ _ _
  | declarations ds =>
    rw [aliases, Cursor.row, Cursor.row, List.flatMap_singleton,
      Cursor.clauseReferences_of_declarations hitems]
    rfl

/-- Editing the first old alias of a clause gives the layout of the renamed clause. -/
theorem finds (h : c.items.hasAlias r.old = true) :
    Finds Cursor.clauseReferences r [c.tree] [{ c with items := c.items.rename r }.tree] := by
  intro path i start
  rw [Items.hasAlias_iff] at h
  cases hitems : c.items with
  | declarations ds =>
    rw [hitems] at h
    obtain ⟨e, he, -⟩ := h
    exact absurd he List.not_mem_nil
  | interfaces es =>
    rw [hitems] at h
    obtain ⟨a, ha, hbecomes⟩ := Entry.finds_lines es.length h
      (path ++ [i] ++ [(c.lead es.length).length]) 0 (start + Forest.width (c.lead es.length))
    have hitems' : { c with items := (Items.interfaces es).rename r }.items =
        .interfaces (Entry.renameFirst r es) := rfl
    refine ⟨a, by rw [aliases_tree hitems]; exact ha, ?_⟩
    -- The layout of a list depends on its length, and renaming keeps the length.
    rw [tree_of_interfaces hitems, tree_of_interfaces hitems', Entry.length_renameFirst,
      List.append_cons _ (Items.list es), List.append_cons _ (Items.list (Entry.renameFirst r es))]
    refine Becomes.node _ (Becomes.between _ _ ?_)
    rw [Items.list, Items.list, Entry.length_renameFirst]
    exact hbecomes.node _

end Clause

/-! ## Components -/

/-- The line of a tree in a block. -/
def blockLine (t : Tree) : Forest := [blank "\n  ", t]

theorem block_eq (ts : List Tree) :
    block ts = [mark .leftBrace] ++ ts.flatMap blockLine ++ [blank "\n", mark .rightBrace] := rfl

theorem block_append_cons (ts us : List Tree) (t : Tree) :
    block (ts ++ t :: us) = ([mark .leftBrace] ++ ts.flatMap blockLine ++ [blank "\n  "]) ++ [t] ++
      (us.flatMap blockLine ++ [blank "\n", mark .rightBrace]) := by
  rw [block_eq, List.flatMap_append, List.flatMap_cons, blockLine]
  simp

namespace Component

variable {r : Request} {d : Component}

theorem misses_line {c : Clause} (h : ¬ c.items.hasAlias r.old = true) :
    Misses Cursor.clauseReferences r.old (blockLine c.tree) := by
  change Misses _ r.old ([blank "\n  "] ++ [c.tree])
  exact (Clause.misses_tokens rfl).append (Clause.misses h)

theorem misses_lines {cs : List Clause} (h : ∀ c ∈ cs, ¬ c.items.hasAlias r.old = true) :
    Misses Cursor.clauseReferences r.old ((cs.map Clause.tree).flatMap blockLine) := by
  rw [List.flatMap_map]
  exact Misses.flatMap fun c hc => misses_line (h c hc)

theorem misses_specification (h : ¬ ∃ c ∈ d.clauses, c.items.hasAlias r.old = true) :
    Misses Cursor.clauseReferences r.old (block (d.clauses.map Clause.tree)) := by
  have hlines := misses_lines fun c hc ha => h ⟨c, hc, ha⟩
  exact ((Clause.misses_tokens rfl).append hlines).append (Clause.misses_tokens rfl)

/-- Editing the first old alias of a specification gives that of the renamed component: the clauses
in front have none. -/
theorem finds_specification (h : ∃ c ∈ d.clauses, c.items.hasAlias r.old = true) :
    Finds Cursor.clauseReferences r (block (d.clauses.map Clause.tree))
      (block ((Clause.renameFirst r d.clauses).map Clause.tree)) := by
  obtain ⟨us, c, vs, hsplit, hus, hc, hrename⟩ :=
    exists_split_of_first (f := Clause.renameFirst r) (fun _ _ => rfl) h
  rw [hrename, hsplit, List.map_append, List.map_append, List.map_cons, List.map_cons,
    block_append_cons, block_append_cons]
  have hfront : Misses Cursor.clauseReferences r.old
      ([mark .leftBrace] ++ (us.map Clause.tree).flatMap blockLine ++ [blank "\n  "]) :=
    ((Clause.misses_tokens rfl).append (misses_lines hus)).append (Clause.misses_tokens rfl)
  exact (Clause.finds hc).between hfront _

end Component

/-! ## Statements -/

namespace Statement

/-- What stands in a statement in front of its target. -/
def lead (st : Statement) : Forest := [mark st.kind.keyword, space]

/-- What stands in a statement behind its target. -/
def tail (st : Statement) : Forest :=
  [mark .dot, identifier st.member, mark .leftParen, mark .rightParen, mark .semicolon]

theorem tree_eq (st : Statement) :
    st.tree = .node .statement (st.lead ++ [identifier st.target] ++ st.tail) := rfl

theorem targets_tree (path : List Nat) (i start : Nat) (st : Statement) :
    targets path i start [st.tree] =
      [.ofName (path ++ [i] ++ [2]) (start + Forest.width st.lead) st.target] := by
  rw [targets, Cursor.row, Cursor.row, List.flatMap_singleton, Cursor.statementTargets_tree]
  rfl

/-- A statement follows the rename: its target is edited if it is the old name, and nothing else
is. -/
theorem follows (r : Request) (st : Statement) : Follows r [st.tree] [(st.rename r).tree] := by
  intro path i start
  rw [targets_tree, List.filter_cons, List.filter_nil, Identifier.isSpelled,
    Identifier.spelling?_ofName]
  by_cases h : st.target = r.old
  · have hrename : st.rename r = { st with target := r.new } := if_pos h
    rw [h, beq_self_eq_true, if_pos rfl, hrename, tree_eq, tree_eq, h]
    exact Becomes.node _ (Becomes.between _ _ (Becomes.name _ _ _))
  · have hrename : st.rename r = st := if_neg h
    rw [beq_eq_false_iff_ne.mpr fun ho => h (Option.some.inj ho), hrename]
    exact Becomes.refl start _

/-- A target stands behind a keyword, inside its statement. -/
theorem bounds_of_mem_targets {c : Cursor} {st : Statement} (hc : c.tree = st.tree)
    {t : Identifier} (ht : t ∈ c.statementTargets) :
    c.start < t.nameRange.start ∧ t.nameRange.start ≤ c.stop := by
  obtain ⟨path, start, tree⟩ := c
  obtain rfl : tree = st.tree := hc
  rw [Cursor.statementTargets_tree, List.mem_singleton] at ht
  have hlead : Forest.width st.lead = st.kind.keyword.spelling.utf8ByteSize + 1 := rfl
  have hwidth : st.tree.width = Forest.width st.lead +
      (Forest.width [identifier st.target] + Forest.width st.tail) := by
    rw [tree_eq, Tree.width, Forest.width_append, Forest.width_append, Nat.add_assoc]
  have hstart : t.nameRange.start = start + Forest.width st.lead := by
    rw [ht]
    rfl
  rw [hstart, Cursor.stop]
  dsimp only
  omega

end Statement

namespace Component

variable {r : Request} {d : Component}

theorem mem_children_implementation {t : Tree} (h : t ∈ d.implementation.children) :
    (∃ st : Statement, t = st.tree) ∨ t.isToken = true := by
  rcases List.mem_append.mp h with h | h
  · simp only [List.mem_cons, List.not_mem_nil, or_false] at h
    rcases h with rfl | rfl
    · exact .inr rfl
    · exact .inr rfl
  · rcases mem_block h with h | h
    · obtain ⟨st, -, rfl⟩ := List.mem_map.mp h
      exact .inl ⟨st, rfl⟩
    · exact .inr h

/-- The target of a statement starts strictly inside it, behind its keyword. -/
theorem bounds_of_mem_targets {path : List Nat} {i start : Nat} {c : Cursor}
    (hc : c ∈ Cursor.row path i start d.implementation.children) {t : Identifier}
    (ht : t ∈ c.statementTargets) : c.start < t.nameRange.start ∧ t.nameRange.start ≤ c.stop := by
  rcases mem_children_implementation (Cursor.tree_mem_of_mem_row hc) with ⟨st, hst⟩ | htoken
  · exact Statement.bounds_of_mem_targets hst ht
  · rw [Cursor.statementTargets_of_isToken htoken] at ht
    exact absurd ht List.not_mem_nil

theorem start_lt_of_mem_targets {path : List Nat} {i start : Nat} {t : Identifier}
    (ht : t ∈ targets path i start d.implementation.children) : start < t.nameRange.start := by
  obtain ⟨c, hc, ht⟩ := List.mem_flatMap.mp ht
  exact Nat.lt_of_le_of_lt (Cursor.row_bounds hc).1 (bounds_of_mem_targets hc ht).1

/-- The targets of an implementation start one after the other. -/
theorem pairwise_targets (path : List Nat) (i start : Nat) (d : Component) :
    (targets path i start d.implementation.children).Pairwise fun t u =>
      t.nameRange.start < u.nameRange.start := by
  rw [targets, List.pairwise_flatMap]
  constructor
  · intro c hc
    rcases mem_children_implementation (Cursor.tree_mem_of_mem_row hc) with ⟨st, hst⟩ | htoken
    · obtain ⟨path, start, tree⟩ := c
      obtain rfl : tree = st.tree := hst
      rw [Cursor.statementTargets_tree]
      exact List.pairwise_singleton ..
    · rw [Cursor.statementTargets_of_isToken htoken]
      exact .nil
  · refine (Cursor.pairwise_row path i start _).imp_of_mem fun {b c} hb hc hbc t ht u hu => ?_
    have htb := bounds_of_mem_targets hb ht
    have huc := bounds_of_mem_targets hc hu
    omega

theorem follows_implementation (r : Request) (d : Component) :
    Follows r d.implementation.children (d.rename r true).implementation.children := by
  have hline : ∀ st ∈ d.statements, Follows r (blockLine st.tree) (blockLine (st.rename r).tree) := by
    intro st _
    change Follows r ([blank "\n  "] ++ [st.tree]) ([blank "\n  "] ++ [(st.rename r).tree])
    exact (Follows.of_tokens rfl).append (st.follows r)
  have hlines := Follows.flatMap hline
  change Follows r
    ([mark .implementationKw, space] ++ block (d.statements.map Statement.tree))
    ([mark .implementationKw, space] ++ block ((d.statements.map (Statement.rename r)).map
      Statement.tree))
  rw [block_eq, block_eq, List.map_map, List.flatMap_map, List.flatMap_map]
  exact (Follows.of_tokens rfl).append
    (((Follows.of_tokens rfl).append hlines).append (Follows.of_tokens rfl))

end Component

end Decl

/-! ## Files -/

namespace Scope

open Forest (Becomes)

variable {s : Scope} {r : Request} {wanted : Bool} {a : Identifier} {is : List Identifier}
  {d : Decl.Component} {path : List Nat} {start : Nat}

/-- The aliases of a scope over a layout, piece by piece. -/
theorem aliasIdentifiers_of_layout (h : s.IsOf ⟨⟨path, start, d.tree⟩, rfl⟩) :
    s.aliasIdentifiers = Forest.aliases Cursor.clauseReferences (path ++ [d.header.length]) 0
      (start + Forest.width d.header) (Decl.block (d.clauses.map Decl.Clause.tree)) := by
  have hspecification := specification_of_layout h
  have htree : s.specification.tree = d.specification := by
    rw [hspecification]
    rfl
  rw [aliasIdentifiers, references_of_layout htree, hspecification]
  rfl

/-- The edit of the alias renames it in the specification. -/
theorem becomes_specification (h : s.IsOf ⟨⟨path, start, d.tree⟩, rfl⟩)
    (ha : s.checkRename r = .ok a) :
    Becomes [⟨a.nameRange, r.new⟩] (start + Forest.width d.header) [d.specification]
      [(d.rename r wanted).specification] := by
  obtain ⟨-, -, hfirst, -, -⟩ := checkRename_eq_ok_iff.mp ha
  have hfind := Identifier.find?_of_firstNamed? hfirst
  rw [aliasIdentifiers_of_layout h] at hfind
  -- Without an entry of the old alias the search would have found none.
  by_cases halias : ∃ c ∈ d.clauses, c.items.hasAlias r.old = true
  · obtain ⟨b, hb, hbecomes⟩ := Decl.Component.finds_specification halias
      (path ++ [d.header.length]) 0 (start + Forest.width d.header)
    cases hb.symm.trans hfind
    exact hbecomes.node _
  · rw [Decl.Component.misses_specification halias] at hfind
    cases hfind

/-- The edits of the usages rename the targets in the implementation. -/
theorem becomes_implementation (h : s.IsOf ⟨⟨path, start, d.tree⟩, rfl⟩)
    (his : s.usages r wanted = .ok is) :
    Becomes (Edit.each r.new is) (start + Forest.width d.implementationLead) [d.implementation]
      [(d.rename r wanted).implementation] := by
  rw [usages_eq_ok his, targets_of_layout h]
  cases wanted with
  | false => exact Becomes.refl _ _
  | true => exact (Decl.Component.follows_implementation r d _ _ _).node _

/-- The alias stands in front of the targets, and these follow one another. -/
theorem respell_eq_each (h : s.IsOf ⟨⟨path, start, d.tree⟩, rfl⟩) (ha : s.checkRename r = .ok a)
    (his : s.usages r wanted = .ok is) :
    Edit.respell r.new (a :: is) = Edit.each r.new (a :: is) := by
  have htargets := usages_sublist his
  rw [targets_of_layout h] at htargets
  refine Edit.respell_of_increasing (List.pairwise_cons.mpr ⟨fun t ht => ?_, ?_⟩)
  -- The alias ends in the specification, which ends before the implementation starts.
  · obtain ⟨hmem, hname⟩ := mem_aliasIdentifiers_of_checkRename ha
    have halias := Identifier.nameRange_bounds (mem_specification_of_mem_aliasIdentifiers hmem) hname
    have hspecification : s.specification.cursor.stop ≤
        start + Forest.width d.implementationLead := by
      rw [specification_of_layout h, Cursor.stop, Decl.Component.implementationLead,
        Forest.width_append, Forest.width_append, Forest.width, Forest.width]
      dsimp only
      omega
    have htarget := Decl.Component.start_lt_of_mem_targets (htargets.mem ht)
    have hle := a.nameRange.start_le_stop
    omega
  · exact (Decl.Component.pairwise_targets _ _ _ d).sublist htargets

/-- The edits of a rename turn a component that is laid out into the renamed one. -/
theorem becomes_component (h : s.IsOf ⟨⟨path, start, d.tree⟩, rfl⟩) (ha : s.checkRename r = .ok a)
    (his : s.usages r wanted = .ok is) :
    Becomes (Edit.respell r.new (a :: is)) start [d.tree] [(d.rename r wanted).tree] := by
  have hlead : Becomes [⟨a.nameRange, r.new⟩] start d.implementationLead
      (d.rename r wanted).implementationLead :=
    (becomes_specification h ha).between d.header [blank "\n"]
  rw [respell_eq_each h ha his, Decl.Component.tree_eq, Decl.Component.tree_eq]
  exact (hlead.append (becomes_implementation h his)).node _

/-- In a file that is laid out, the edits of a rename give the text of the renamed file. -/
theorem applyAll_of_layout {us vs : List Decl.Component} {edits : List Edit}
    (h : s.IsOf ⟨⟨path, Forest.width (Decl.File.before us), d.tree⟩, rfl⟩)
    (hedits : s.renameEdits r wanted = .ok edits) :
    Edit.applyAll edits (Text.bytes (Decl.File.tree (us ++ d :: vs)).text) =
      Text.bytes (Decl.File.tree (us ++ d.rename r wanted :: vs)).text := by
  obtain ⟨a, is, ha, his, rfl⟩ := renameEdits_eq_ok_iff.mp hedits
  have hcomponent := becomes_component h ha his
  rw [← Nat.zero_add (Forest.width _)] at hcomponent
  have hfile := hcomponent.between (Decl.File.before us) (Decl.File.after vs)
  rw [Decl.File.tree_append_cons, Decl.File.tree_append_cons, List.append_cons _ d.tree,
    List.append_cons _ (d.rename r wanted).tree]
  exact hfile.applyAll_eq

end Scope

namespace Decl.File

/-- Renaming an alias of a component and laying out the file afterwards gives the text that the
edits of the rename make of the file as it was laid out before. -/
theorem applyAll_renameEdits_tree (i : Nat) (ds : File) (hi : i < ds.length) :
    ∃ s, Scope.bind (File.tree ds) (.index i) = .ok s ∧
      ∀ r wanted edits, s.renameEdits r wanted = .ok edits →
        Edit.applyAll edits (Text.bytes (File.tree ds).text) =
          Text.bytes (File.tree (File.rename i r wanted ds)).text := by
  obtain ⟨us, d, vs, rfl, rfl⟩ : ∃ us d vs, ds = us ++ d :: vs ∧ us.length = i :=
    ⟨ds.take i, ds[i], ds.drop (i + 1), by simp, by simp; omega⟩
  obtain ⟨s, hs, -, hof⟩ := Scope.exists_bind_layout us vs d
  refine ⟨s, hs, fun r wanted edits hedits => ?_⟩
  have hrename : File.rename us.length r wanted (us ++ d :: vs) =
      us ++ d.rename r wanted :: vs := by
    rw [File.rename, List.modify_eq_take_cons_drop hi]
    simp
  rw [hrename]
  exact Scope.applyAll_of_layout hof hedits

/-- The second of two components has two entries of an empty alias in one clause, one of them
without an interface, and statements whose target, member or both are empty. -/
theorem applyAll_renameEdits_tree_emptyAlias :
    let d : Component := {
      kind := .module
      isGeneric := true
      name := "é"
      clauses := [⟨.uses, .declarations [⟨.event, "booted"⟩]⟩,
        ⟨.provides, .interfaces [⟨some "I", none, ["t"], []⟩, ⟨none, some "", [], [⟨"u", "i"⟩]⟩,
          ⟨some "J", some "", [], []⟩]⟩]
      statements := [⟨.call, "", "é"⟩, ⟨.signal, "I", ""⟩, ⟨.call, "", ""⟩] }
    ∃ s edits, Scope.bind (File.tree [d, d]) (.index 1) = .ok s ∧
      s.renameEdits ⟨"", "X"⟩ true = .ok edits ∧
      Edit.applyAll edits (Text.bytes (File.tree [d, d]).text) =
        Text.bytes (File.tree (File.rename 1 ⟨"", "X"⟩ true [d, d])).text := by
  intro d
  obtain ⟨s, hs, happly⟩ := applyAll_renameEdits_tree 1 [d, d] (by decide)
  obtain ⟨s', edits, hs', hedits⟩ := Tree.accepts_iff.mp
    (by decide +kernel : (File.tree [d, d]).accepts (.index 1) ⟨"", "X"⟩ true = true)
  cases hs.symm.trans hs'
  exact ⟨s, edits, hs, hedits, happly _ _ _ hedits⟩

end Decl.File

end Nesc
