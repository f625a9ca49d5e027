import Nesc.Proofs.Decl.Intact
import Nesc.Proofs.Rename.Refused
import Nesc.Proofs.Session.Answers

/-!
# Faults in a session

A session passes on the faults of its scope: whatever was asked before and whatever is in the store, a
fault in an answer is that of an identifier without a name token, and a fault in binding is that of
the component that was to be bound. In a file without broken identifiers, as every layout of a
description is, no answer has a fault; incomplete files are no reason for one.
-/

namespace Nesc

namespace Malformed

variable {α : Type} {m : Malformed}

/-- The fault that a reading ended in. -/
def ofRead? : Except Malformed α → Option Malformed
  | .ok _ => none
  | .error m => some m

/-- The fault that a rename was refused for. -/
def ofRename? : Except Refusal α → Option Malformed
  | .error (.malformed m) => some m
  | _ => none

theorem ofRead?_eq_some_iff {x : Except Malformed α} : ofRead? x = some m ↔ x = .error m := by
  cases x <;> simp [ofRead?]

theorem ofRename?_eq_some_iff {x : Except Refusal α} :
    ofRename? x = some m ↔ x = .error (.malformed m) := by
  rcases x with (e | a)
  · cases e <;> simp [ofRename?]
  · simp [ofRename?]

end Malformed

namespace Query

/-- The fault that an answer reports, if it reports one. -/
def fault? : (q : Query) → q.Answer → Option Malformed
  | .name, x => Malformed.ofRead? x
  | .aliasNamed _, x => Malformed.ofRead? x
  | .interfaceNamed _, x => Malformed.ofRead? x
  | .interfaceNameOf _, x => Malformed.ofRead? x
  | .isAliasName _, x => Malformed.ofRead? x
  | .interfaceNames, x => Malformed.ofRead? x
  | .localNames, x => Malformed.ofRead? x
  | .resolve _, x => Malformed.ofRead? x
  | .checkRename _, x => Malformed.ofRename? x
  | .renameEdits .., x => Malformed.ofRename? x
  | _, _ => none

/-- A fault in an answer is that of a broken identifier of the file. -/
theorem hasFault_of_answer {s : Scope} {q : Query} {m : Malformed}
    (h : q.fault? (q.answer s) = some m) : s.file.tree.HasFault m := by
  cases q with
  | name => exact Scope.hasFault_of_name (Malformed.ofRead?_eq_some_iff.mp h)
  | aliasNamed n => exact Scope.hasFault_of_aliasNamed? (Malformed.ofRead?_eq_some_iff.mp h)
  | interfaceNamed n => exact Scope.hasFault_of_interfaceNamed? (Malformed.ofRead?_eq_some_iff.mp h)
  | interfaceNameOf n =>
    exact Scope.hasFault_of_interfaceNameOf? (Malformed.ofRead?_eq_some_iff.mp h)
  | isAliasName n => exact Scope.hasFault_of_isAliasName (Malformed.ofRead?_eq_some_iff.mp h)
  | interfaceNames => exact Scope.hasFault_of_interfaceNames (Malformed.ofRead?_eq_some_iff.mp h)
  | localNames => exact Scope.hasFault_of_localNames (Malformed.ofRead?_eq_some_iff.mp h)
  | resolve n => exact Scope.hasFault_of_resolve (Malformed.ofRead?_eq_some_iff.mp h)
  | checkRename r => exact Scope.hasFault_of_checkRename (Malformed.ofRename?_eq_some_iff.mp h)
  | renameEdits r usages =>
    exact Scope.hasFault_of_renameEdits (Malformed.ofRename?_eq_some_iff.mp h)
  | _ => cases h

end Query

namespace Session

variable {s : Scope} {t : Tree} {b : Binding} {σ : Session}

/-- Binding gives what the scope gives, whatever it reports on the way. -/
theorem run_bind_fst (t : Tree) (b : Binding) : ((Session.bind t b).run {}).1 = Scope.bind t b := by
  unfold Session.bind
  cases Scope.bind t b with
  | ok s => rfl
  | error e => cases e <;> rfl

theorem bind_eq_error {e : BindError} (h : (Session.bind t b).run {} = (.error e, σ)) :
    Scope.bind t b = .error e := by
  rw [← run_bind_fst, h]

/-- A fault in the answers of a session, after any questions, is that of a broken identifier. -/
theorem hasFault_of_mem_answers (hs : (Session.bind t b).run {} = (.ok s, σ)) {qs : List Query}
    {a : (q : Query) × q.Answer} (ha : a ∈ answers s qs σ) {m : Malformed}
    (hm : a.1.fault? a.2 = some m) : t.HasFault m := by
  rw [answers_eq qs (sound_of_bind hs)] at ha
  obtain ⟨q, -, rfl⟩ := List.mem_map.mp ha
  rw [← Scope.tree_file_of_bind (run_bind_eq_ok_iff.mp hs).1]
  exact Query.hasFault_of_answer hm

/-- Faults come from broken nodes alone, and name them. A session that cannot be bound for a fault was
to be bound to a component of the file that lacks what the fault names, and binding to a component
fails in no other way. A fault in an answer, after any questions, is that of an identifier of the file
that lacks its name token; so there is none if every identifier has its name token, which is the case
in every layout. -/
theorem faults_of_broken_nodes (t : Tree) :
    (∀ b σ m, (Session.bind t b).run {} = (.error (.malformed m), σ) →
      ∃ c, b.component? t = some c ∧ c.cursor ∈ (Cursor.root t).elements ∧ c.Lacks m) ∧
    (∀ b c e σ, b.component? t = some c → (Session.bind t b).run {} = (.error e, σ) →
      ∃ m, e = .malformed m) ∧
    (∀ b s σ, (Session.bind t b).run {} = (.ok s, σ) → ∀ qs, ∀ a ∈ answers s qs σ,
      ∀ m, a.1.fault? a.2 = some m → t.HasFault m) ∧
    (t.Intact → ∀ b s σ, (Session.bind t b).run {} = (.ok s, σ) → ∀ qs, ∀ a ∈ answers s qs σ,
      a.1.fault? a.2 = none) ∧
    ∀ ds, (Decl.File.tree ds).Intact := by
  refine ⟨fun b σ m h => Scope.lacks_of_bind (bind_eq_error h),
    fun b c e σ hc h => Scope.malformed_of_bind hc (bind_eq_error h),
    fun b s σ hs qs a ha m hm => hasFault_of_mem_answers hs ha hm, ?_, Decl.File.intact_tree⟩
  intro hintact b s σ hs qs a ha
  rw [Option.eq_none_iff_forall_ne_some]
  intro m hm
  exact hintact.not_hasFault m (hasFault_of_mem_answers hs ha hm)

/-- The only declaration has a broken identifier, which a rename comes to after other questions. A
second component has no specification, nor has one inside the body of the first. -/
theorem faults_of_broken_nodes_declaration :
    let t : Tree := .node .sourceFile [.node .component [.identifier "M", .node .accessList [
        .node .access [.node .parameterizedInterfaceList [.node .parameterizedInterface [
          .node .interfaceReference [.mark .asKw, .identifier "A"]]]],
        .node .access [.node .declarationList [.node .declaration [.node .identifier []]]]],
        .node .implementation [.node .component [.identifier "L"]]],
      .node .component [.identifier "N"]]
    let qs : List Query := [.localNames, .resolve "A", .renameEdits ⟨"A", "X"⟩ true]
    (∃ s σ, (Session.bind t (.index 0)).run {} = (.ok s, σ) ∧ ∃ a ∈ answers s qs σ,
      ∃ m, a.1.fault? a.2 = some m ∧ t.HasFault m) ∧
    ∀ b ∈ [Binding.index 1, .component (.nth .component 1)],
      ∃ σ m, (Session.bind t b).run {} = (.error (.malformed m), σ) ∧
        ∃ c, b.component? t = some c ∧ c.Lacks m := by
  intro t qs
  obtain ⟨hbind, hmalformed, hanswers, -, -⟩ := faults_of_broken_nodes t
  have hbroken : ((Scope.bind t (.index 0)).toOption.any fun s =>
      (qs.any fun q => (q.fault? (q.answer s)).isSome)) = true := by
    decide +kernel
  have hunbound : ∀ b ∈ [Binding.index 1, .component (.nth .component 1)],
      (Scope.bind t b).isOk = false ∧ (b.component? t).isSome = true := by
    decide +kernel
  constructor
  · cases hs : Scope.bind t (.index 0) with
    | error e =>
      rw [hs] at hbroken
      cases hbroken
    | ok s =>
      rw [hs] at hbroken
      obtain ⟨q, hq, hfault⟩ := List.any_eq_true.mp hbroken
      obtain ⟨m, hm⟩ := Option.isSome_iff_exists.mp hfault
      obtain ⟨σ, hrun⟩ : ∃ σ, (Session.bind t (.index 0)).run {} = (.ok s, σ) :=
        ⟨_, run_bind_eq_ok_iff.mpr ⟨hs, rfl⟩⟩
      have hmem : (⟨q, q.answer s⟩ : (q : Query) × q.Answer) ∈ answers s qs σ := by
        rw [answers_eq qs (sound_of_bind hrun)]
        exact List.mem_map.mpr ⟨q, hq, rfl⟩
      exact ⟨s, σ, hrun, _, hmem, m, hm, hanswers _ s σ hrun qs _ hmem m hm⟩
  · intro b hb
    obtain ⟨hfails, hcomponent⟩ := hunbound b hb
    cases hs : Scope.bind t b with
    | ok s =>
      rw [hs] at hfails
      cases hfails
    | error e =>
      have hrun : (Session.bind t b).run {} = (.error e, _) :=
        Prod.ext ((run_bind_fst t b).trans hs) rfl
      obtain ⟨c, hc⟩ := Option.isSome_iff_exists.mp hcomponent
      obtain ⟨m, rfl⟩ := hmalformed _ c e _ hc hrun
      obtain ⟨c, hc, -, hcm⟩ := hbind _ _ m hrun
      exact ⟨_, m, hrun, c, hc, hcm⟩

end Session

end Nesc
