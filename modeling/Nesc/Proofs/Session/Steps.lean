import Mathlib.Logic.Relation
import Nesc.Session.Basic

/-!
# The steps of a session

Whatever a session is asked, it does two sorts of things: it reports details or faults, or it finds
a fact that is not in the store, reports its summary and keeps it (`Session.Step`). So a run of steps
keeps a session sound: the store agrees with the scope, and the summary of a fact has been reported
at most once, and not at all while the fact is not in the store (`Session.Sound`). `Session.Gives` is
what is proved of a piece of work: in every sound session it gives the same result, and runs.
-/

namespace Nesc

theorem except_map_eq_bind {ε α β : Type} (f : α → β) (a : Except ε α) :
    a.map f = a >>= fun v => .ok (f v) := by
  cases a <;> rfl

/-- The fact that an event is the summary of. -/
def Event.fact? : Event → Option Fact
  | .collectedReferences .. => some .references
  | .collectedInterfaces _ => some .interfaces
  | .collectedAliases _ => some .aliases
  | .builtAliasMap _ => some .aliasMap
  | .collectedDeclarations _ => some .declarations
  | .referenceWithoutName _ | .aliasWithoutInterface _ | .computedRename .. | .fault _ => none

namespace Session

variable {s : Scope} {fs gs : List Fact} {σ τ : Session}

/-- How many of the events are summaries of `f`. -/
def summaries (f : Fact) (es : List Event) : Nat := es.countP fun e => e.fact? == some f

theorem summaries_append (f : Fact) (es es' : List Event) :
    summaries f (es ++ es') = summaries f es + summaries f es' :=
  List.countP_append

theorem summaries_of_details {es : List Event} (h : ∀ e ∈ es, e.fact? = none) (f : Fact) :
    summaries f es = 0 := by
  apply List.countP_eq_zero.mpr
  intro e he
  simp [h e he]

/-- One step of a session, in which it may find facts of `fs`. -/
inductive Step (s : Scope) (fs : List Fact) : Session → Session → Prop
  | report (σ : Session) {es : List Event} (hes : ∀ e ∈ es, e.fact? = none) :
      Step s fs σ { σ with log := σ.log ++ es }
  | find (σ : Session) {f : Fact} {v : f.Value} {es : List Event} (hf : f ∈ fs)
      (hnew : σ.store f = none) (hv : f.eval s = .ok v)
      (hes : ∀ g, summaries g es ≤ if g = f then 1 else 0) :
      Step s fs σ ⟨σ.store.put f v, σ.log ++ es⟩

/-- Steps one after the other. -/
def Run (s : Scope) (fs : List Fact) : Session → Session → Prop := Relation.ReflTransGen (Step s fs)

/-- The store agrees with the scope, and the log has the summary of each fact at most once, and only
if the fact is in the store. -/
structure Sound (s : Scope) (σ : Session) : Prop where
  coherent : σ.store.Coherent s
  summaries_le : ∀ f, summaries f σ.log ≤ if (σ.store f).isSome then 1 else 0

/-! ## What one step does -/

theorem Step.mono (h : Step s fs σ τ) (hfs : fs ⊆ gs) : Step s gs σ τ := by
  cases h with
  | report hes => exact .report σ hes
  | find hf hnew hv hes => exact .find σ (hfs hf) hnew hv hes

/-- A fact in the store stays there. -/
theorem Step.kept (h : Step s fs σ τ) {f : Fact} {v : f.Value} (hv : σ.store f = some v) :
    τ.store f = some v := by
  cases h with
  | report => exact hv
  | @find g w es hg hnew hw hes =>
    have hne : f ≠ g := by
      rintro rfl
      rw [hnew] at hv
      cases hv
    exact (Store.put_of_ne σ.store w hne).trans hv

/-- A step finds nothing but facts of `fs`. -/
theorem Step.store_of_not_mem (h : Step s fs σ τ) {f : Fact} (hf : f ∉ fs) :
    τ.store f = σ.store f := by
  cases h with
  | report => rfl
  | @find g w es hg hnew hw hes =>
    apply Store.put_of_ne
    rintro rfl
    exact hf hg

/-- A step keeps a session sound: what it adds to the store has the fact's value, and a summary is
reported only with a fact that was not kept yet. -/
theorem Step.sound (h : Step s fs σ τ) (hσ : σ.Sound s) : τ.Sound s := by
  cases h with
  | @report es hes =>
    refine ⟨hσ.coherent, ?_⟩
    intro f
    have hle := hσ.summaries_le f
    rw [summaries_append, summaries_of_details hes]
    exact hle
  | @find g w es hg hnew hw hes =>
    refine ⟨hσ.coherent.put hw, ?_⟩
    intro f
    have hle := hσ.summaries_le f
    have hadd := hes f
    change summaries f (σ.log ++ es) ≤ if (σ.store.put g w f).isSome then 1 else 0
    rw [summaries_append]
    by_cases hfg : f = g
    -- The cell was empty, so the log had no summary of `f` yet.
    · subst hfg
      rw [hnew] at hle
      rw [if_pos rfl] at hadd
      rw [Store.put_self]
      simp only [Option.isSome_none, Option.isSome_some, Bool.false_eq_true, ↓reduceIte] at hle ⊢
      omega
    · rw [Store.put_of_ne σ.store w hfg]
      rw [if_neg hfg] at hadd
      omega

/-! ## What a run does -/

namespace Run

theorem refl (σ : Session) : Run s fs σ σ := Relation.ReflTransGen.refl

theorem single (h : Step s fs σ τ) : Run s fs σ τ := Relation.ReflTransGen.single h

theorem trans {ρ : Session} (h : Run s fs σ τ) (h' : Run s fs τ ρ) : Run s fs σ ρ :=
  Relation.ReflTransGen.trans h h'

/-- What every step preserves, a run preserves. -/
theorem invariant {P : Session → Prop} (hP : ∀ {ρ ρ' : Session}, Step s fs ρ ρ' → P ρ → P ρ')
    (h : Run s fs σ τ) (hσ : P σ) : P τ := by
  induction h with
  | refl => exact hσ
  | tail _ hstep ih => exact hP hstep ih

theorem mono (h : Run s fs σ τ) (hfs : fs ⊆ gs) : Run s gs σ τ :=
  h.invariant (fun hstep hrun => hrun.trans (single (hstep.mono hfs))) (refl σ)

theorem kept (h : Run s fs σ τ) {f : Fact} {v : f.Value} (hv : σ.store f = some v) :
    τ.store f = some v :=
  h.invariant (P := fun ρ => ρ.store f = some v) (fun hstep => hstep.kept) hv

/-- Facts outside the ones a run may find are not touched. -/
theorem store_of_not_mem (h : Run s fs σ τ) {f : Fact} (hf : f ∉ fs) : τ.store f = σ.store f :=
  h.invariant (P := fun ρ => ρ.store f = σ.store f)
    (fun hstep hρ => (hstep.store_of_not_mem hf).trans hρ) rfl

/-- A run keeps a session sound, since each of its steps does. -/
theorem sound (h : Run s fs σ τ) (hσ : σ.Sound s) : τ.Sound s :=
  h.invariant (fun hstep => hstep.sound) hσ

end Run

/-! ## Work that gives one result -/

/-- In a sound session the work gives `a`, and on the way finds facts of `fs` alone. -/
def Gives {α : Type} (s : Scope) (fs : List Fact) (x : Work α) (a : α) : Prop :=
  ∀ σ, Sound s σ → (x.run σ).1 = a ∧ Run s fs σ (x.run σ).2

namespace Gives

variable {α β ε ε' : Type}

theorem mono {x : Work α} {a : α} (h : Gives s fs x a) (hfs : fs ⊆ gs) : Gives s gs x a := by
  intro σ hσ
  obtain ⟨ha, hrun⟩ := h σ hσ
  exact ⟨ha, hrun.mono hfs⟩

theorem pure (a : α) : Gives s fs (Pure.pure a) a := fun σ _ => ⟨rfl, .refl σ⟩

/-- Work after work gives what the second gives, in one run. -/
theorem bind {x : Work α} {f : α → Work β} {a : α} {b : β} (hx : Gives s fs x a)
    (hf : Gives s fs (f a) b) : Gives s fs (x >>= f) b := by
  intro σ hσ
  obtain ⟨ha, hrun⟩ := hx σ hσ
  obtain ⟨hb, hrun'⟩ := hf (x.run σ).2 (hrun.sound hσ)
  rw [← ha] at hb hrun'
  exact ⟨hb, hrun.trans hrun'⟩

theorem map {x : Work α} {a : α} (f : α → β) (hx : Gives s fs x a) : Gives s fs (f <$> x) (f a) := by
  intro σ hσ
  obtain ⟨rfl, hrun⟩ := hx σ hσ
  exact ⟨rfl, hrun⟩

theorem report {es : List Event} (hes : ∀ e ∈ es, e.fact? = none) :
    Gives s fs (Session.report es) () :=
  fun σ _ => ⟨rfl, .single (.report σ hes)⟩

/-- Work that can stop goes on with what it has, or stops. -/
theorem tryBind {x : ExceptT ε Work α} {f : α → ExceptT ε Work β} {a : Except ε α}
    {g : α → Except ε β} (hx : Gives s fs x.run a) (hf : ∀ v, Gives s fs (f v).run (g v)) :
    Gives s fs (x >>= f).run (a >>= g) := by
  rw [ExceptT.run_bind]
  cases a with
  | error e => exact hx.bind (pure _)
  | ok v => exact hx.bind (hf v)

theorem tryMap {x : ExceptT ε Work α} {a : Except ε α} (f : α → β) (hx : Gives s fs x.run a) :
    Gives s fs (x >>= fun v => Pure.pure (f v)).run (a.map f) := by
  rw [except_map_eq_bind]
  exact hx.tryBind fun v => pure _

theorem lift {x : Work α} {a : α} (hx : Gives s fs x a) :
    Gives s fs (liftM x : ExceptT ε Work α).run (.ok a) :=
  hx.map Except.ok

theorem liftBind {x : Work α} {f : α → ExceptT ε Work β} {a : α} {b : Except ε β}
    (hx : Gives s fs x a) (hf : Gives s fs (f a).run b) :
    Gives s fs ((liftM x : ExceptT ε Work α) >>= f).run b := by
  rw [ExceptT.run_bind]
  exact hx.lift.bind hf

theorem adapt {x : ExceptT ε Work α} {a : Except ε α} (f : ε → ε') (hx : Gives s fs x.run a) :
    Gives s fs (x.adapt f).run (a.mapError f) :=
  hx.map (Except.mapError f)

end Gives

/-! ## Facts that are kept -/

/-- Work that finds `f`: it runs without finding `f`, then reports the summary and gives the value. -/
def Finds (s : Scope) (fs : List Fact) (f : Fact) (x : Work f.Value) (v : f.Value) : Prop :=
  ∀ σ, Sound s σ → ∃ τ es, Run s fs σ τ ∧ (∀ g, summaries g es ≤ if g = f then 1 else 0) ∧
    x.run σ = (v, ⟨τ.store, τ.log ++ es⟩)

namespace Finds

variable {f : Fact} {v : f.Value}

theorem bind {α : Type} {x : Work α} {a : α} {y : α → Work f.Value} (hx : Gives s fs x a)
    (hy : Finds s fs f (y a) v) : Finds s fs f (x >>= y) v := by
  intro σ hσ
  obtain ⟨ha, hrun⟩ := hx σ hσ
  obtain ⟨τ, es, hrun', hes, heq⟩ := hy (x.run σ).2 (hrun.sound hσ)
  rw [← ha] at heq
  exact ⟨τ, es, hrun.trans hrun', hes, heq⟩

/-- Reporting the summary and giving the value is finding the fact. -/
theorem summary {e : Event} (he : e.fact? = some f) :
    Finds s fs f (do Session.report [e]; return v) v := by
  intro σ _
  refine ⟨σ, [e], .refl σ, ?_, rfl⟩
  intro g
  by_cases hg : g = f
  · rw [if_pos hg]
    exact List.countP_le_length
  · rw [if_neg hg]
    apply Nat.le_of_eq
    apply List.countP_eq_zero.mpr
    simp [he, Ne.symm hg]

end Finds

/-- A fact from the store, or else found and kept. -/
theorem run_once (f : Fact) (x : Work f.Value) (σ : Session) : (once f x).run σ =
    match σ.store f with
    | some v => (v, σ)
    | none => ((x.run σ).1, ⟨(x.run σ).2.store.put f (x.run σ).1, (x.run σ).2.log⟩) := by
  change (match σ.store f with
    | some v => Pure.pure v
    | none => x >>= fun v => keep f v >>= fun _ => Pure.pure v : Work f.Value).run σ = _
  cases σ.store f <;> rfl

/-- After asking for a fact it is in the store. -/
theorem store_of_once {f : Fact} {x : Work f.Value} {v : f.Value}
    (h : (once f x).run σ = (v, τ)) : τ.store f = some v := by
  rw [run_once] at h
  cases hstore : σ.store f with
  | some w =>
    rw [hstore] at h
    cases h
    exact hstore
  | none =>
    rw [hstore] at h
    cases h
    exact Store.put_self ..

/-- A fact is found if it is not in the store, and read from there otherwise. -/
theorem Gives.once {f : Fact} {x : Work f.Value} {v : f.Value} (hf : f ∉ fs)
    (hv : f.eval s = .ok v) (hx : Finds s fs f x v) : Gives s (f :: fs) (once f x) v := by
  intro σ hσ
  rw [run_once]
  cases hstore : σ.store f with
  | some w =>
    have hw := hσ.coherent f w hstore
    rw [hv] at hw
    exact ⟨(Except.ok.inj hw).symm, .refl σ⟩
  | none =>
    -- What runs before the summary cannot fill the cell of `f`, so the step finds it empty.
    obtain ⟨τ, es, hrun, hes, heq⟩ := hx σ hσ
    have hnew : τ.store f = none := by rw [hrun.store_of_not_mem hf, hstore]
    rw [heq]
    refine ⟨rfl, (hrun.mono (List.subset_cons_self f fs)).trans (.single ?_)⟩
    exact .find τ List.mem_cons_self hnew hv hes

/-- A fact from the store, or else found and kept if it can be found; a failure keeps nothing. -/
theorem run_tryOnce (f : Fact) (x : Reading f.Value) (σ : Session) : (tryOnce f x).run.run σ =
    match σ.store f with
    | some v => (.ok v, σ)
    | none =>
      match (x.run.run σ).1 with
      | .ok v => (.ok v, ⟨(x.run.run σ).2.store.put f v, (x.run.run σ).2.log⟩)
      | .error m => (.error m, (x.run.run σ).2) := by
  change (match σ.store f with
    | some v => Pure.pure v
    | none => x >>= fun v => liftM (keep f v) >>= fun _ => Pure.pure v : Reading f.Value).run.run σ = _
  cases σ.store f with
  | some v => rfl
  | none =>
    dsimp only
    rw [ExceptT.run_bind, StateT.run_bind]
    generalize x.run.run σ = p
    obtain ⟨r, τ⟩ := p
    cases r <;> rfl

/-- After asking for a fact with success it is in the store. -/
theorem store_of_tryOnce {f : Fact} {x : Reading f.Value} {v : f.Value}
    (h : (tryOnce f x).run.run σ = (.ok v, τ)) : τ.store f = some v := by
  rw [run_tryOnce] at h
  cases hstore : σ.store f with
  | some w =>
    rw [hstore] at h
    cases h
    exact hstore
  | none =>
    rw [hstore] at h
    dsimp only at h
    split at h
    · cases h
      exact Store.put_self ..
    · cases h

/-- A fact that cannot be found leaves its cell as it is. -/
theorem Gives.tryOnce {f : Fact} {x : Reading f.Value} (hf : f ∉ fs)
    (hx : Gives s fs x.run (f.eval s)) : Gives s (f :: fs) (tryOnce f x).run (f.eval s) := by
  intro σ hσ
  rw [run_tryOnce]
  cases hstore : σ.store f with
  | some w => exact ⟨(hσ.coherent f w hstore).symm, .refl σ⟩
  | none =>
    obtain ⟨ha, hrun⟩ := hx σ hσ
    have hrun' := hrun.mono (List.subset_cons_self f fs)
    cases hv : f.eval s with
    | error m =>
      rw [ha, hv]
      exact ⟨rfl, hrun'⟩
    | ok v =>
      have hnew : (x.run.run σ).2.store f = none := by rw [hrun.store_of_not_mem hf, hstore]
      have hfind : Step s (f :: fs) (x.run.run σ).2
          ⟨(x.run.run σ).2.store.put f v, (x.run.run σ).2.log ++ []⟩ :=
        .find _ List.mem_cons_self hnew hv fun _ => Nat.zero_le _
      rw [List.append_nil] at hfind
      rw [ha, hv]
      exact ⟨rfl, hrun'.trans (.single hfind)⟩

end Session

end Nesc
