import Nesc.Proofs.Rename.Resolution
import Nesc.Proofs.Scope.Faults

/-!
# Refused renames

The check of a rename stops at the first thing that is wrong (`Scope.Refuses` lists its exits). What
can be wrong is said here without the check: a request is safe for an alias (`Scope.IsSafe`), or there
are objections to it (`Scope.Objects`), which are ranked. The check accepts exactly the safe requests.
If every identifier of the file can be read, a refusal is the objection of the lowest rank. In a
broken file the check can stop at a name that cannot be read before it comes to an objection, or at an
objection before it comes to that name; only acceptance shows that everything was read.
-/

namespace Nesc

/-! ## Spelling -/

namespace Word

/-- The letters of ASCII. -/
def IsLetter (c : Char) : Prop := 'A' ≤ c ∧ c ≤ 'Z' ∨ 'a' ≤ c ∧ c ≤ 'z'

/-- The digits of ASCII. -/
def IsDigit (c : Char) : Prop := '0' ≤ c ∧ c ≤ '9'

/-- A letter or an underscore, and then any number of letters, digits and underscores. -/
def IsName (w : String) : Prop :=
  ∃ c cs, w.toList = c :: cs ∧ (IsLetter c ∨ c = '_') ∧
    ∀ d ∈ cs, IsLetter d ∨ IsDigit d ∨ d = '_'

theorem isAlpha_iff {c : Char} : c.isAlpha = true ↔ IsLetter c := by
  have hupper : c.isUpper = true ↔ 'A' ≤ c ∧ c ≤ 'Z' := decide_eq_true_iff
  have hlower : c.isLower = true ↔ 'a' ≤ c ∧ c ≤ 'z' :=
    Bool.and_eq_true_iff.trans (and_congr decide_eq_true_iff decide_eq_true_iff)
  exact Bool.or_eq_true_iff.trans (or_congr hupper hlower)

theorem isDigit_iff {c : Char} : c.isDigit = true ↔ IsDigit c := by
  simp [Char.isDigit, IsDigit, Char.le_def]

theorem isStart_iff {c : Char} : isStart c = true ↔ IsLetter c ∨ c = '_' := by
  simp [isStart, isAlpha_iff, or_comm]

theorem isRest_iff {c : Char} : isRest c = true ↔ IsLetter c ∨ IsDigit c ∨ c = '_' := by
  simp only [isRest, Char.isAlphanum, Bool.or_eq_true, beq_iff_eq, isAlpha_iff, isDigit_iff]
  grind

/-- The test of a spelling decides whether it is that of a name, character by character. -/
theorem isIdentifier_iff {w : String} : isIdentifier w = true ↔ IsName w := by
  unfold isIdentifier IsName
  cases w.toList with
  | nil => simp
  | cons c cs => simp [isStart_iff, isRest_iff]

end Word

/-! ## Exits of the check -/

theorem Identifier.mem_of_firstNamed? {n : String} {is : List Identifier} {i : Identifier}
    (h : firstNamed? n is = .ok (some i)) : i ∈ is ∧ spelling? i = some n := by
  obtain ⟨before, after, rfl, hi, -⟩ := firstNamed?_eq_some_iff.mp h
  exact ⟨by simp, hi⟩

theorem Refusal.ofRead_eq_error_iff {α : Type} {x : Except Malformed α} {e : Refusal} :
    ofRead x = .error e ↔ ∃ m, x = .error m ∧ e = .malformed m := by
  cases x <;> simp [ofRead, Except.mapError, eq_comm]

namespace Scope

variable {s : Scope} {r : Request} {a : Identifier} {e : Refusal}

/-- How the check of a rename can end without an alias, with what it has found out by then. -/
inductive Refuses (s : Scope) (r : Request) : Refusal → Prop
  | invalid {e : Refusal} (h : r.validate = .error e) : Refuses s r e
  | malformed {m : Malformed} (h : s.file.tree.HasFault m) : Refuses s r (.malformed m)
  | notAnAlias {c : String} (hvalid : r.validate = .ok ()) (hname : s.name = .ok c)
      (h : s.aliasNamed? r.old = .ok none) : Refuses s r (.notAnAlias r.old c)
  | localName {c : String} {a : Identifier} {ns : List String} (hvalid : r.validate = .ok ())
      (hname : s.name = .ok c) (halias : s.aliasNamed? r.old = .ok (some a))
      (hns : s.localNames = .ok ns) (h : r.new ∈ ns) : Refuses s r (.nameInUse r.new c)
  | declared {c : String} {a d : Identifier} (hvalid : r.validate = .ok ())
      (hname : s.name = .ok c) (halias : s.aliasNamed? r.old = .ok (some a))
      (h : Identifier.firstNamed? r.new s.declarationIdentifiers = .ok (some d)) :
      Refuses s r (.nameInUse r.new c)

theorem hasFault_of_declarations {n : String} {m : Malformed}
    (h : Identifier.firstNamed? n s.declarationIdentifiers = .error m) : s.file.tree.HasFault m :=
  hasFault_of_blames (Identifier.blames_of_firstNamed? h)
    fun _ => mem_file_of_mem_declarationIdentifiers

/-- A refused rename comes with a reason that is true of the request and the scope. -/
theorem refuses_of_checkRename (h : s.checkRename r = .error e) : s.Refuses r e := by
  unfold checkRename at h
  -- One case for each thing the check reads: it stops there, or goes on with what was read.
  rcases bind_eq_error_iff.mp h with hvalid | ⟨⟨⟩, hvalid, h⟩
  · exact .invalid hvalid
  rcases bind_eq_error_iff.mp h with hname | ⟨c, hname, h⟩
  · obtain ⟨m, hm, rfl⟩ := Refusal.ofRead_eq_error_iff.mp hname
    exact .malformed (hasFault_of_name hm)
  rcases bind_eq_error_iff.mp h with halias | ⟨a?, halias, h⟩
  · obtain ⟨m, hm, rfl⟩ := Refusal.ofRead_eq_error_iff.mp halias
    exact .malformed (hasFault_of_aliasNamed? hm)
  rw [Refusal.ofRead_eq_ok_iff] at hname halias
  cases a? with
  | none =>
    cases h
    exact .notAnAlias hvalid hname halias
  | some a =>
    rcases bind_eq_error_iff.mp h with hns | ⟨ns, hns, h⟩
    · obtain ⟨m, hm, rfl⟩ := Refusal.ofRead_eq_error_iff.mp hns
      exact .malformed (hasFault_of_localNames hm)
    rw [Refusal.ofRead_eq_ok_iff] at hns
    by_cases hmem : ns.contains r.new = true
    · rw [if_pos hmem] at h
      cases h
      exact .localName hvalid hname halias hns (List.contains_iff_mem.mp hmem)
    · rw [if_neg hmem] at h
      rcases bind_eq_error_iff.mp h with hd | ⟨d?, hd, h⟩
      · obtain ⟨m, hm, rfl⟩ := Refusal.ofRead_eq_error_iff.mp hd
        exact .malformed (hasFault_of_declarations hm)
      · rw [Refusal.ofRead_eq_ok_iff] at hd
        cases d? with
        | none => cases h
        | some d =>
          cases h
          exact .declared hvalid hname halias hd

theorem validate_ne_malformed (r : Request) (m : Malformed) :
    r.validate ≠ .error (.malformed m) := by
  unfold Request.validate
  split_ifs <;> simp

/-- A check that ends in a fault met a broken identifier of the file. -/
theorem hasFault_of_checkRename {m : Malformed} (h : s.checkRename r = .error (.malformed m)) :
    s.file.tree.HasFault m := by
  cases refuses_of_checkRename h with
  | invalid h => exact absurd h (validate_ne_malformed r m)
  | malformed h => exact h

theorem hasFault_of_usages {wanted : Bool} {m : Malformed} (h : s.usages r wanted = .error m) :
    s.file.tree.HasFault m := by
  unfold usages at h
  split at h
  · exact hasFault_of_blames (Identifier.blames_of_allNamed h) fun _ => mem_file_of_mem_targets
  · cases h

/-- A rename that ends in a fault met a broken identifier, in the check or among the targets. -/
theorem hasFault_of_renameEdits {wanted : Bool} {m : Malformed}
    (h : s.renameEdits r wanted = .error (.malformed m)) : s.file.tree.HasFault m := by
  rcases bind_eq_error_iff.mp h with h | ⟨a, -, h⟩
  · exact hasFault_of_checkRename h
  rcases bind_eq_error_iff.mp h with h | ⟨is, -, h⟩
  · obtain ⟨m', hm, hmm'⟩ := Refusal.ofRead_eq_error_iff.mp h
    cases hmm'
    exact hasFault_of_usages hm
  · cases h

/-! ## Safe requests -/

/-- The alias `a` can be given the new name: the name is good by its spelling, the component has a
name, the new name is in use neither for an interface nor for a bare declaration, and `a` is the first
alias of the old name. -/
structure IsSafe (s : Scope) (r : Request) (a : Identifier) : Prop where
  isName : Word.IsName r.new
  not_reserved : r.new ∉ Word.nescReserved ∧ r.new ∉ Word.cReserved
  changed : r.new ≠ r.old
  component : s.identifier.HasToken
  locals : ∃ ns, s.localNames = .ok ns ∧ r.new ∉ ns
  declarations : ∀ d ∈ s.declarationIdentifiers, ∃ n, Identifier.spelling? d = some n ∧ n ≠ r.new
  first : ∃ before after, s.aliasIdentifiers = before ++ a :: after ∧
    Identifier.spelling? a = some r.old ∧ ∀ b ∈ before, Identifier.spelling? b ≠ some r.old

theorem name_eq_ok_iff_hasToken : (∃ c, s.name = .ok c) ↔ s.identifier.HasToken := by
  simp only [name, Identifier.name_eq_ok_iff, ← Identifier.isSome_spelling?_iff,
    Option.isSome_iff_exists]

/-- The new name passes on its own exactly if it is spelled as a name, not reserved by either table,
and new. -/
theorem validate_eq_ok_iff_isName : r.validate = .ok () ↔ Word.IsName r.new ∧
    (r.new ∉ Word.nescReserved ∧ r.new ∉ Word.cReserved) ∧ r.new ≠ r.old := by
  rw [Request.validate_eq_ok_iff, Word.isIdentifier_iff, Bool.eq_false_iff, ne_eq,
    Word.isReserved_iff, not_or]

/-- The check accepts a rename exactly if it is safe, and gives the alias that the old name
means. -/
theorem checkRename_eq_ok_iff_isSafe : s.checkRename r = .ok a ↔ s.IsSafe r a := by
  rw [checkRename_eq_ok_iff, validate_eq_ok_iff_isName, name_eq_ok_iff_hasToken, aliasNamed?,
    Identifier.firstNamed?_eq_some_iff, Identifier.firstNamed?_eq_none_iff]
  constructor
  · rintro ⟨⟨hname, hreserved, hne⟩, hcomponent, ⟨before, after, hsplit, ha, hbefore⟩, hlocals, hd⟩
    refine ⟨hname, hreserved, hne, hcomponent, hlocals, hd, before, after, hsplit, ha, ?_⟩
    intro b hb hold
    obtain ⟨n, hn, hne⟩ := hbefore b hb
    rw [hn] at hold
    exact hne (Option.some.inj hold)
  · rintro ⟨hname, hreserved, hne, hcomponent, hlocals, hd, before, after, hsplit, ha, hbefore⟩
    refine ⟨⟨hname, hreserved, hne⟩, hcomponent, ⟨before, after, hsplit, ha, ?_⟩, hlocals, hd⟩
    -- The aliases in front can be read, since the local names can be listed.
    obtain ⟨ns, hns, -⟩ := hlocals
    intro b hb
    have hmem : b ∈ s.aliasIdentifiers := by
      rw [hsplit]
      exact List.mem_append_left _ hb
    obtain ⟨n, hn⟩ := Option.isSome_iff_exists.mp ((readable_of_localNames hns).aliases b hmem)
    exact ⟨n, hn, fun h => hbefore b hb (h ▸ hn)⟩

/-- In an accepted rename the old name stands for the alias, and the new name for nothing. -/
theorem resolve_of_checkRename (h : s.checkRename r = .ok a) :
    s.resolve r.old = .ok (.localName a (s.interfaceOf? a)) ∧ s.resolve r.new = .ok .unknown := by
  obtain ⟨-, -, -, ⟨ns, hns, -⟩, -⟩ := checkRename_eq_ok_iff.mp h
  have hread := readable_of_localNames hns
  rw [hread.resolve_eq, hread.resolve_eq, lookup_old h, lookup_new h]
  exact ⟨rfl, rfl⟩

end Scope

/-! ## Objections -/

/-- The place of a refusal in the order in which they are considered. -/
def Refusal.rank : Refusal → Nat
  | .emptyName => 0
  | .invalidIdentifier _ => 1
  | .reservedWord _ => 2
  | .unchanged _ => 3
  | .notAnAlias .. => 4
  | .nameInUse .. => 5
  | .malformed _ => 6

namespace Scope

variable {s : Scope} {r : Request} {a : Identifier} {e : Refusal}

/-- What each refusal says about a request. -/
def Objects (s : Scope) (r : Request) : Refusal → Prop
  | .emptyName => r.new = ""
  | .invalidIdentifier n => n = r.new ∧ ¬ Word.IsName r.new
  | .reservedWord n => n = r.new ∧ (r.new ∈ Word.nescReserved ∨ r.new ∈ Word.cReserved)
  | .unchanged n => n = r.old ∧ r.new = r.old
  | .notAnAlias n c => n = r.old ∧ s.name = .ok c ∧
      ∀ b ∈ s.aliasIdentifiers, Identifier.spelling? b ≠ some r.old
  | .nameInUse n c => n = r.new ∧ s.name = .ok c ∧
      ((∃ ns, s.localNames = .ok ns ∧ r.new ∈ ns) ∨
        ∃ d ∈ s.declarationIdentifiers, Identifier.spelling? d = some r.new)
  | .malformed _ => False

/-- The refusal is an objection, and there is none of a lower rank. -/
def FirstObjection (s : Scope) (r : Request) (e : Refusal) : Prop :=
  s.Objects r e ∧ ∀ e', s.Objects r e' → e.rank ≤ e'.rank

/-- There is one objection of each rank at most. -/
theorem Objects.unique {e' : Refusal} (h : s.Objects r e) (h' : s.Objects r e')
    (hrank : e.rank = e'.rank) : e = e' := by
  have hcomponent : ∀ {c c' : String}, s.name = .ok c → s.name = .ok c' → c = c' :=
    fun hc hc' => Except.ok.inj (hc.symm.trans hc')
  -- Refusals of one rank are of one sort; what they name is fixed by the request and the scope.
  cases e <;> cases e' <;> cases hrank
  · rfl
  · rw [h.1, h'.1]
  · rw [h.1, h'.1]
  · rw [h.1, h'.1]
  · rw [h.1, h'.1, hcomponent h.2.1 h'.2.1]
  · rw [h.1, h'.1, hcomponent h.2.1 h'.2.1]
  · exact h.elim

/-- Objections to a valid request are at least of the rank of an unknown alias. -/
theorem rank_of_validate (hvalid : r.validate = .ok ()) (h : s.Objects r e) : 4 ≤ e.rank := by
  obtain ⟨hname, hreserved, hne⟩ := validate_eq_ok_iff_isName.mp hvalid
  cases e with
  | emptyName =>
    rw [← Word.isIdentifier_iff, show r.new = "" from h] at hname
    cases hname
  | invalidIdentifier n => exact absurd hname h.2
  | reservedWord n => exact absurd h.2 (not_or.mpr hreserved)
  | unchanged n => exact absurd h.2 hne
  | _ => simp [Refusal.rank]

/-- Objections to a valid request for a known alias are at least of the rank of a name in use. -/
theorem rank_of_alias (hvalid : r.validate = .ok ()) (halias : s.aliasNamed? r.old = .ok (some a))
    (h : s.Objects r e) : 5 ≤ e.rank := by
  have hrank := rank_of_validate hvalid h
  cases e with
  | notAnAlias n c =>
    obtain ⟨hmem, hold⟩ := Identifier.mem_of_firstNamed? halias
    exact absurd hold (h.2.2 a hmem)
  | _ => simp [Refusal.rank] at hrank ⊢

/-- An invalid request is refused for the objection of the lowest rank that applies to it. -/
theorem firstObjection_of_validate (h : r.validate = .error e) : s.FirstObjection r e := by
  unfold Request.validate at h
  split_ifs at h with hempty hname hreserved hsame
  · cases h
    exact ⟨hempty, fun e' _ => Nat.zero_le _⟩
  · rw [Bool.not_eq_true', ← Bool.not_eq_true, Word.isIdentifier_iff] at hname
    cases h
    refine ⟨⟨rfl, hname⟩, fun e' h' => ?_⟩
    cases e' with
    | emptyName => exact absurd h' hempty
    | _ => simp [Refusal.rank]
  · rw [Bool.not_eq_true', ← Bool.not_eq_true, not_not, Word.isIdentifier_iff] at hname
    cases h
    refine ⟨⟨rfl, Word.isReserved_iff.mp hreserved⟩, fun e' h' => ?_⟩
    cases e' with
    | emptyName => exact absurd h' hempty
    | invalidIdentifier n => exact absurd hname h'.2
    | _ => simp [Refusal.rank]
  · rw [Bool.not_eq_true', ← Bool.not_eq_true, not_not, Word.isIdentifier_iff] at hname
    cases h
    refine ⟨⟨rfl, hsame⟩, fun e' h' => ?_⟩
    cases e' with
    | emptyName => exact absurd h' hempty
    | invalidIdentifier n => exact absurd hname h'.2
    | reservedWord n => exact absurd (Word.isReserved_iff.mpr h'.2) hreserved
    | _ => simp [Refusal.rank]

theorem not_objects_of_checkRename (h : s.checkRename r = .ok a) : ¬ s.Objects r e := by
  intro hobjects
  obtain ⟨hvalid, -, ha, ⟨ns, hns, hnew⟩, hd⟩ := checkRename_eq_ok_iff.mp h
  have hrank := rank_of_alias hvalid ha hobjects
  cases e with
  | nameInUse n c =>
    rcases hobjects.2.2 with ⟨ns', hns', hmem⟩ | ⟨d, hmem, hspelled⟩
    · cases hns.symm.trans hns'
      exact hnew hmem
    · obtain ⟨n, hn, hne⟩ := Identifier.firstNamed?_eq_none_iff.mp hd d hmem
      exact hne (Option.some.inj (hn.symm.trans hspelled))
  | malformed m => exact hobjects
  | _ => simp [Refusal.rank] at hrank

/-- In an intact file a refusal is never a fault, and it is the first objection. -/
theorem firstObjection_of_checkRename (hintact : s.file.tree.Intact)
    (herror : s.checkRename r = .error e) : s.FirstObjection r e := by
  cases refuses_of_checkRename herror with
  | invalid h => exact firstObjection_of_validate h
  | malformed h => exact absurd h (hintact.not_hasFault _)
  | notAnAlias hvalid hname h =>
    refine ⟨⟨rfl, hname, fun b hb hold => ?_⟩, fun e' h' => rank_of_validate hvalid h'⟩
    obtain ⟨n, hn, hne⟩ := Identifier.firstNamed?_eq_none_iff.mp h b hb
    exact hne (Option.some.inj (hn.symm.trans hold))
  | localName hvalid hname halias hns h =>
    exact ⟨⟨rfl, hname, .inl ⟨_, hns, h⟩⟩, fun e' h' => rank_of_alias hvalid halias h'⟩
  | declared hvalid hname halias h =>
    have hd := Identifier.mem_of_firstNamed? h
    exact ⟨⟨rfl, hname, .inr ⟨_, hd⟩⟩, fun e' h' => rank_of_alias hvalid halias h'⟩

/-- In an intact file a rename is refused for a reason exactly if it is the first objection. -/
theorem checkRename_eq_error_iff (hintact : s.file.tree.Intact) :
    s.checkRename r = .error e ↔ s.FirstObjection r e := by
  refine ⟨firstObjection_of_checkRename hintact, fun hfirst => ?_⟩
  cases h : s.checkRename r with
  | ok a => exact absurd hfirst.1 (not_objects_of_checkRename h)
  | error e' =>
    have hfirst' := firstObjection_of_checkRename hintact h
    have hrank := Nat.le_antisymm (hfirst.2 e' hfirst'.1) (hfirst'.2 e hfirst.1)
    rw [hfirst.1.unique hfirst'.1 hrank]

/-- The check of a rename accepts exactly the safe requests, with the alias they are safe for. Then the
old name stands for that alias, and the new name for nothing. If all identifiers of the file can be
read, a request is refused exactly with the first objection to it. -/
theorem checkRename_decides (s : Scope) (r : Request) :
    (∀ a, s.checkRename r = .ok a ↔ s.IsSafe r a) ∧
      (∀ a, s.checkRename r = .ok a →
        (∃ i?, s.resolve r.old = .ok (.localName a i?)) ∧ s.resolve r.new = .ok .unknown) ∧
      (s.file.tree.Intact → ∀ e, s.checkRename r = .error e ↔
        s.Objects r e ∧ ∀ e', s.Objects r e' → e.rank ≤ e'.rank) := by
  refine ⟨fun a => checkRename_eq_ok_iff_isSafe, fun a ha => ?_, fun hintact e => ?_⟩
  · obtain ⟨hold, hnew⟩ := resolve_of_checkRename ha
    exact ⟨⟨_, hold⟩, hnew⟩
  · exact checkRename_eq_error_iff hintact

/-- A file with an alias, an interface that goes by its own name, and an event. One request is safe. The
other has a reserved word as its new name, and an old name that is no alias: it is refused for the
former. -/
theorem checkRename_decides_reservedWord :
    let entry (ts : Forest) : Tree := .node .parameterizedInterface [.node .interfaceReference ts]
    let type (n : String) : Tree := .node .interfaceType [.identifier n]
    let t : Tree := .node .sourceFile [.node .component [.identifier "M", .node .accessList [
      .node .access [.node .parameterizedInterfaceList [
        entry [type "I", .mark .asKw, .identifier "A"], entry [type "J"]]],
      .node .access [.node .declarationList [.node .declaration [.identifier "booted"]]]]]]
    ∃ s a, bind t (.index 0) = .ok s ∧ s.file.tree.Intact ∧
      s.checkRename ⟨"A", "X"⟩ = .ok a ∧ s.IsSafe ⟨"A", "X"⟩ a ∧ s.resolve "X" = .ok .unknown ∧
      s.Objects ⟨"B", "call"⟩ (.reservedWord "call") ∧
      s.checkRename ⟨"B", "call"⟩ = .error (.reservedWord "call") := by
  intro entry type t
  obtain ⟨s, edits, hs, h⟩ := Tree.accepts_iff.mp
    (by decide +kernel : t.accepts (.index 0) ⟨"A", "X"⟩ false = true)
  obtain ⟨a, is, ha, -, -⟩ := renameEdits_eq_ok_iff.mp h
  have hintact : s.file.tree.Intact := by
    rw [tree_file_of_bind hs]
    decide +kernel
  obtain ⟨hsafe, hresolve, -⟩ := checkRename_decides s ⟨"A", "X"⟩
  obtain ⟨-, -, hrefused⟩ := checkRename_decides s ⟨"B", "call"⟩
  have hreserved : s.Objects ⟨"B", "call"⟩ (.reservedWord "call") := ⟨rfl, .inl (by decide)⟩
  refine ⟨s, a, hs, hintact, ha, (hsafe a).mp ha, (hresolve a ha).2, hreserved,
    (hrefused hintact _).mpr ⟨hreserved, fun e h => ?_⟩⟩
  cases e with
  | emptyName => exact absurd (show "call" = "" from h) (by decide)
  | invalidIdentifier n => exact absurd (Word.isIdentifier_iff.mp (by decide)) h.2
  | _ => simp [Refusal.rank]

end Scope

end Nesc
