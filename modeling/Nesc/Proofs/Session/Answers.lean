import Nesc.Proofs.Session.Steps
import Nesc.Session.Query

/-!
# A session answers as the scope does

Each question of a session gives the answer that the scope alone gives, in every sound session
(`Session.gives_run`). The session after any number of questions is sound again, so what was asked
before cannot be told from the answers: it shows only in the log, where a fact is summed up once. A
fact that cannot be had is tried again each time, with the same fault.
-/

namespace Nesc

def Fact.all : List Fact :=
  [.references, .interfaces, .aliases, .aliasMap, .interfaceNames, .localNames, .declarations]

namespace Session

variable {s : Scope} {fs : List Fact}

theorem Gives.all {α : Type} {x : Work α} {a : α} (h : Gives s fs x a) : Gives s Fact.all x a :=
  h.mono fun f _ => by cases f <;> decide

/-! ## Facts

The proofs follow the binds of the work. What a fact is built from is in the list of what may be
found on the way, so that finding it never meets a cell that was filled in between. -/

theorem gives_references : Gives s [.references] (references s) s.references :=
  .once (by decide) rfl (.summary rfl)

theorem gives_declarations : Gives s [.declarations] (declarations s) s.declarationIdentifiers :=
  .once (by decide) rfl (.summary rfl)

/-- The interfaces are found from the references, whether these were in the store or not. -/
theorem gives_interfaces :
    Gives s [.interfaces, .references] (interfaces s) s.interfaceIdentifiers := by
  refine .once (by decide) rfl (.bind gives_references (.bind (.report ?_) (.summary rfl)))
  exact List.forall_mem_map.mpr fun _ _ => rfl

theorem gives_aliases : Gives s [.aliases, .references] (aliases s) s.aliasIdentifiers :=
  .once (by decide) rfl (.bind gives_references (.summary rfl))

/-- The map is built from the references alone; details of what it leaves out are reported before
it. -/
theorem gives_aliasMap : Gives s [.aliasMap, .references] (aliasMap s) s.aliasMap := by
  refine .once (by decide) rfl (.bind gives_references (.bind (.report ?_) (.summary rfl)))
  exact List.forall_mem_map.mpr fun _ _ => rfl

/-- Reading keeps nothing, and reports a fault if there is one. -/
theorem gives_read {α : Type} (r : Except Malformed α) : Gives s fs (read r).run r := by
  cases r with
  | ok a => exact .pure _
  | error m =>
    intro σ _
    exact ⟨rfl, .single (.report σ (List.forall_mem_singleton.mpr rfl))⟩

/-- The set of interface names builds on two facts, and is kept only if all names can be read. -/
theorem gives_interfaceNames :
    Gives s [.interfaceNames, .interfaces, .references] (interfaceNames s).run s.interfaceNames := by
  apply Gives.tryOnce (by decide)
  rw [Fact.eval, Scope.interfaceNames]
  exact .liftBind gives_interfaces (.tryMap _ (gives_read _))

theorem gives_localNames : Gives s [.localNames, .references] (localNames s).run s.localNames :=
  .tryOnce (by decide) (.liftBind gives_references (gives_read _))

/-! ## Lookups -/

theorem gives_aliasNamed? (n : String) :
    Gives s Fact.all (aliasNamed? s n).run (s.aliasNamed? n) :=
  .liftBind gives_aliases.all (gives_read _)

theorem gives_isAliasName (n : String) : Gives s Fact.all (isAliasName s n).run (s.isAliasName n) :=
  .tryMap _ (gives_aliasNamed? n)

theorem gives_interfaceOf? (a : Identifier) :
    Gives s Fact.all (interfaceOf? s a) (s.interfaceOf? a) :=
  .bind gives_aliasMap.all (.pure _)

/-- The map is not asked for unless there is an alias of the name. -/
theorem gives_interfaceNamed? (n : String) :
    Gives s Fact.all (interfaceNamed? s n).run (s.interfaceNamed? n) := by
  rw [Scope.interfaceNamed?, except_map_eq_bind]
  refine .tryBind (gives_aliasNamed? n) ?_
  intro a?
  cases a? with
  | none => exact .pure _
  | some a => exact .lift (gives_interfaceOf? a)

theorem gives_interfaceNameOf? (n : String) :
    Gives s Fact.all (interfaceNameOf? s n).run (s.interfaceNameOf? n) := by
  refine .tryBind (gives_interfaceNamed? n) ?_
  intro i?
  cases i? with
  | none => exact .pure _
  | some i => exact .tryBind (gives_read _) fun _ => .pure _

/-- Resolving takes the map for an alias, and the references for an interface that goes by its own
name. -/
theorem gives_resolve (n : String) : Gives s Fact.all (resolve s n).run (s.resolve n) := by
  refine .tryBind (gives_aliasNamed? n) ?_
  intro a?
  cases a? with
  | some a => exact .liftBind (gives_interfaceOf? a) (.pure _)
  | none =>
    refine .liftBind gives_references.all (.tryBind (gives_read _) ?_)
    intro i?
    cases i? with
    | some i => exact .pure _
    | none => exact .pure _

/-! ## Renaming -/

theorem gives_reading {α : Type} {x : Reading α} {a : Except Malformed α}
    (hx : Gives s fs x.run a) : Gives s fs (reading x).run (Refusal.ofRead a) :=
  hx.adapt _

/-- The check asks for the declarations even if a local interface has the new name; what it gives is
the same. -/
theorem gives_checkRename (r : Request) :
    Gives s Fact.all (checkRename s r).run (s.checkRename r) := by
  refine .tryBind (.pure _) fun _ => .tryBind (gives_reading (gives_read _)) fun c => ?_
  refine .tryBind (gives_reading (gives_aliasNamed? _)) ?_
  intro a?
  cases a? with
  | none => exact .pure _
  | some a =>
    refine .tryBind (gives_reading gives_localNames.all) fun ns => ?_
    refine .liftBind gives_declarations.all ?_
    by_cases hns : ns.contains r.new = true
    · rw [if_pos hns, if_pos hns]
      exact .pure _
    · rw [if_neg hns, if_neg hns]
      refine .tryBind (gives_reading (gives_read _)) ?_
      intro i?
      cases i? with
      | some i => exact .pure _
      | none => exact .pure _

theorem gives_renameEdits (r : Request) (wanted : Bool) :
    Gives s Fact.all (renameEdits s r wanted).run (s.renameEdits r wanted) := by
  refine .tryBind (gives_checkRename r) fun a => ?_
  refine .tryBind (gives_reading (gives_read _)) fun is => ?_
  exact .liftBind (.report (List.forall_mem_singleton.mpr rfl)) (.pure _)

/-- A query run in a session gives the answer that the scope gives. -/
theorem gives_run (q : Query) : Gives s Fact.all (q.run s) (q.answer s) := by
  cases q with
  | file => exact .pure _
  | specification => exact .pure _
  | identifier => exact .pure _
  | component => exact .pure _
  | name => exact gives_read _
  | references => exact gives_references.all
  | interfaces => exact gives_interfaces.all
  | aliases => exact gives_aliases.all
  | declarations => exact gives_declarations.all
  | aliasMap => exact gives_aliasMap.all
  | interfaceOf a => exact gives_interfaceOf? a
  | aliasNamed n => exact gives_aliasNamed? n
  | interfaceNamed n => exact gives_interfaceNamed? n
  | interfaceNameOf n => exact gives_interfaceNameOf? n
  | isAliasName n => exact gives_isAliasName n
  | interfaceNames => exact gives_interfaceNames.all
  | localNames => exact gives_localNames.all
  | resolve n => exact gives_resolve n
  | checkRename r => exact gives_checkRename r
  | renameEdits r usages => exact gives_renameEdits r usages

/-- The accessor of a fact. -/
def fact (s : Scope) : (f : Fact) → Work (Except Malformed f.Value)
  | .references => .ok <$> references s
  | .interfaces => .ok <$> interfaces s
  | .aliases => .ok <$> aliases s
  | .aliasMap => .ok <$> aliasMap s
  | .interfaceNames => (interfaceNames s).run
  | .localNames => (localNames s).run
  | .declarations => .ok <$> declarations s

theorem gives_fact (f : Fact) : Gives s Fact.all (fact s f) (f.eval s) := by
  cases f with
  | references => exact gives_references.all.map _
  | interfaces => exact gives_interfaces.all.map _
  | aliases => exact gives_aliases.all.map _
  | aliasMap => exact gives_aliasMap.all.map _
  | interfaceNames => exact gives_interfaceNames.all
  | localNames => exact gives_localNames.all
  | declarations => exact gives_declarations.all.map _

/-- A fact that can be had is in the store afterwards. -/
theorem store_of_fact {f : Fact} {v : f.Value} {σ τ : Session}
    (h : (fact s f).run σ = (.ok v, τ)) : τ.store f = some v := by
  have hmap : ∀ {f : Fact} {v : f.Value} {x : Work f.Value},
      (Except.ok <$> x : Work (Except Malformed f.Value)).run σ = (.ok v, τ) → x.run σ = (v, τ) := by
    intro f v x hx
    obtain ⟨hv, hτ⟩ := Prod.mk.inj hx
    exact Prod.ext (Except.ok.inj hv) hτ
  cases f with
  | references => exact store_of_once (hmap h)
  | interfaces => exact store_of_once (hmap h)
  | aliases => exact store_of_once (hmap h)
  | aliasMap => exact store_of_once (hmap h)
  | interfaceNames => exact store_of_tryOnce h
  | localNames => exact store_of_tryOnce h
  | declarations => exact store_of_once (hmap h)

/-! ## Questions one after the other -/

/-- The session after questions. -/
def after (s : Scope) (qs : List Query) (σ : Session) : Session := ((askAll s qs).run σ).2

/-- The answers to questions, each with its question. -/
def answers (s : Scope) (qs : List Query) (σ : Session) : List ((q : Query) × q.Answer) :=
  ((askAll s qs).run σ).1.map fun r => ⟨r.query, r.answer⟩

theorem after_cons (s : Scope) (q : Query) (qs : List Query) (σ : Session) :
    after s (q :: qs) σ = after s qs ((q.run s).run σ).2 := rfl

theorem answers_cons (s : Scope) (q : Query) (qs : List Query) (σ : Session) :
    answers s (q :: qs) σ = ⟨q, ((q.run s).run σ).1⟩ :: answers s qs ((q.run s).run σ).2 := rfl

/-- Any number of queries is a run of steps. -/
theorem run_after (qs : List Query) {σ : Session} (hσ : Sound s σ) :
    Run s Fact.all σ (after s qs σ) := by
  induction qs generalizing σ with
  | nil => exact .refl σ
  | cons q qs ih =>
    obtain ⟨-, hrun⟩ := gives_run q σ hσ
    rw [after_cons]
    exact hrun.trans (ih (hrun.sound hσ))

/-- The answers to queries are those of the scope, whatever was asked before. -/
theorem answers_eq (qs : List Query) {σ : Session} (hσ : Sound s σ) :
    answers s qs σ = qs.map fun q => ⟨q, q.answer s⟩ := by
  induction qs generalizing σ with
  | nil => rfl
  | cons q qs ih =>
    obtain ⟨hanswer, hrun⟩ := gives_run q σ hσ
    rw [answers_cons, List.map_cons, hanswer, ih (hrun.sound hσ)]

/-! ## From a fresh session on -/

theorem run_bind_eq_ok_iff {t : Tree} {b : Binding} {σ : Session} :
    (Session.bind t b).run {} = (.ok s, σ) ↔
      Scope.bind t b = .ok s ∧ σ = ⟨.empty, (b.faults t).map .fault⟩ := by
  unfold Session.bind
  cases Scope.bind t b with
  | ok s' =>
    change (Except.ok s', (⟨.empty, (b.faults t).map .fault⟩ : Session)) = (Except.ok s, σ) ↔ _
    rw [Prod.mk.injEq, eq_comm (a := σ)]
  | error e =>
    refine ⟨fun h => ?_, fun h => nomatch h.1⟩
    cases e <;> exact nomatch congrArg Prod.fst h

/-- A session that was just bound is sound: the store is empty and no summary was reported. -/
theorem sound_of_bind {t : Tree} {b : Binding} {σ : Session}
    (h : (Session.bind t b).run {} = (.ok s, σ)) : Sound s σ := by
  obtain ⟨-, rfl⟩ := run_bind_eq_ok_iff.mp h
  refine ⟨Store.coherent_empty s, ?_⟩
  intro f
  rw [summaries_of_details (List.forall_mem_map.mpr fun _ _ => rfl)]
  exact Nat.zero_le _

/-- The messages of the summaries. -/
def summaryMessages : List String :=
  ["collected interface references", "collected referenced interface identifiers",
    "collected interface alias identifiers", "built alias map", "collected command and event names"]

theorem exists_fact_of_mem_summaryMessages {m : String} (h : m ∈ summaryMessages) :
    ∃ f, ∀ e : Event, (e.message == m) = (e.fact? == some f) := by
  simp only [summaryMessages, List.mem_cons, List.not_mem_nil, or_false] at h
  rcases h with rfl | rfl | rfl | rfl | rfl
  · exact ⟨.references, fun e => by cases e <;> rfl⟩
  · exact ⟨.interfaces, fun e => by cases e <;> rfl⟩
  · exact ⟨.aliases, fun e => by cases e <;> rfl⟩
  · exact ⟨.aliasMap, fun e => by cases e <;> rfl⟩
  · exact ⟨.declarations, fun e => by cases e <;> rfl⟩

/-- A sound session has reported a summary at most once. -/
theorem Sound.countP_message_le {σ : Session} (hσ : Sound s σ) {m : String}
    (h : m ∈ summaryMessages) : σ.log.countP (fun e => e.message == m) ≤ 1 := by
  obtain ⟨f, hf⟩ := exists_fact_of_mem_summaryMessages h
  simp only [hf]
  apply Nat.le_trans (hσ.summaries_le f)
  split <;> decide

/-- A fact that cannot be had is not in the store. -/
theorem Sound.store_of_eval_error {σ : Session} (hσ : Sound s σ) {f : Fact} {m : Malformed}
    (h : f.eval s = .error m) : σ.store f = none := by
  cases hf : σ.store f with
  | none => rfl
  | some v =>
    have hv := hσ.coherent f v hf
    rw [h] at hv
    cases hv

/-- Bind a session and ask it any questions. Nothing is in its store at the start. Every answer is the
one that the fresh session gives. What is in the store is what the fresh session finds, and stays.
Every summary is reported once at most. A fact that can be had is kept. One that cannot be had is not
kept, and fails in the same way whenever it is asked for again. -/
theorem memory_transparent {t : Tree} {b : Binding} {σ₀ : Session}
    (h : (Session.bind t b).run {} = (.ok s, σ₀)) :
    σ₀.store = .empty ∧ ∀ qs, let σ := after s qs σ₀
      answers s qs σ₀ = (qs.map fun q => ⟨q, ((q.run s).run σ₀).1⟩) ∧
      (∀ f v, σ.store f = some v → ((fact s f).run σ₀).1 = .ok v ∧
        ∀ qs', (after s qs' σ).store f = some v) ∧
      (∀ m ∈ summaryMessages, σ.log.countP (fun e => e.message == m) ≤ 1) ∧
      (∀ f v τ, (fact s f).run σ = (.ok v, τ) → τ.store f = some v) ∧
      ∀ f m τ, (fact s f).run σ = (.error m, τ) →
        ∀ qs', (after s qs' τ).store f = none ∧
          ((fact s f).run (after s qs' τ)).1 = .error m := by
  have hσ₀ := sound_of_bind h
  obtain ⟨-, rfl⟩ := run_bind_eq_ok_iff.mp h
  refine ⟨rfl, ?_⟩
  intro qs σ
  have hσ : Sound s σ := (run_after qs hσ₀).sound hσ₀
  refine ⟨?_, ?_, fun m hm => hσ.countP_message_le hm, fun f v τ => store_of_fact, ?_⟩
  · rw [answers_eq qs hσ₀]
    apply List.map_congr_left
    intro q _
    rw [(gives_run q _ hσ₀).1]
  · intro f v hv
    refine ⟨?_, fun qs' => (run_after qs' hσ).kept hv⟩
    rw [(gives_fact f _ hσ₀).1]
    exact hσ.coherent f v hv
  · intro f m τ hτ qs'
    obtain ⟨hanswer, hrun⟩ := gives_fact f σ hσ
    rw [hτ] at hanswer hrun
    -- The failure shows that the scope has no value for `f`, which no later question changes.
    have hafter := (run_after qs' (hrun.sound hσ)).sound (hrun.sound hσ)
    refine ⟨hafter.store_of_eval_error hanswer.symm, ?_⟩
    rw [(gives_fact f _ hafter).1, ← hanswer]

/-- The identifier of the only interface has no name in it, so that the local names cannot be had. -/
theorem memory_transparent_brokenName :
    let t : Tree := .node .sourceFile [.node .component [.identifier "M", .node .accessList [
      .node .access [.node .parameterizedInterfaceList [.node .parameterizedInterface [
        .node .interfaceReference [.node .interfaceType [.node .identifier []]]]]]]]]
    ∃ s σ₀ m τ, (Session.bind t (.index 0)).run {} = (.ok s, σ₀) ∧ σ₀.store = .empty ∧
      (fact s .localNames).run (after s [.interfaces, .resolve "X"] σ₀) = (.error m, τ) ∧
      ∀ qs, (after s qs τ).store .localNames = none ∧
        ((fact s .localNames).run (after s qs τ)).1 = .error m := by
  intro t
  have hbroken : ((Scope.bind t (.index 0)).toOption.any fun s => !s.localNames.isOk) = true := by
    decide +kernel
  cases hs : Scope.bind t (.index 0) with
  | error e =>
    rw [hs] at hbroken
    cases hbroken
  | ok s =>
    rw [hs] at hbroken
    change (!s.localNames.isOk) = true at hbroken
    cases hm : s.localNames with
    | ok ns =>
      rw [hm] at hbroken
      cases hbroken
    | error m =>
      have h := run_bind_eq_ok_iff.mpr ⟨hs, rfl⟩
      obtain ⟨hempty, hall⟩ := memory_transparent h
      obtain ⟨-, -, -, -, hfails⟩ := hall [.interfaces, .resolve "X"]
      have hsound := (run_after [.interfaces, .resolve "X"] (sound_of_bind h)).sound (sound_of_bind h)
      have hfirst : (fact s .localNames).run _ = (.error m, _) :=
        Prod.ext ((gives_fact .localNames _ hsound).1.trans hm) rfl
      exact ⟨s, _, m, _, h, hempty, hfirst, hfails .localNames m _ hfirst⟩

end Session

end Nesc
