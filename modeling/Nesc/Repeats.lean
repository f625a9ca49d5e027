/-! # Dropping repeats

Where equal elements stand next to each other, as they do in a sorted list, one of each run is
enough. `dropRepeats` keeps the first of every run. A sorted list without repeats is how a set of
names is kept (`NameSet`). -/

namespace Nesc

section

variable {α : Type}

/-- The first of each run in `x :: xs`. -/
def keepFirst (same : α → α → Bool) (x : α) : List α → List α
  | [] => [x]
  | y :: ys => if same x y then keepFirst same x ys else x :: keepFirst same y ys

/-- The first of each run of elements that are the same. -/
def dropRepeats (same : α → α → Bool) : List α → List α
  | [] => []
  | x :: xs => keepFirst same x xs

/-- What is kept stands in the order it had. -/
theorem keepFirst_sublist (same : α → α → Bool) (x : α) (xs : List α) :
    (keepFirst same x xs).Sublist (x :: xs) := by
  induction xs generalizing x with
  | nil => exact .refl _
  | cons y ys ih =>
    simp only [keepFirst]
    split
    · exact (ih x).trans (.cons_cons x (List.sublist_cons_self y ys))
    · exact .cons_cons x (ih y)

theorem mem_keepFirst [DecidableEq α] {z x : α} {xs : List α} :
    z ∈ keepFirst (· == ·) x xs ↔ z = x ∨ z ∈ xs := by
  induction xs generalizing x with
  | nil => simp [keepFirst]
  | cons y ys ih =>
    simp only [keepFirst, beq_iff_eq]
    split
    next h => subst h; simp [ih]
    · simp [ih]

/-- Only repeats are lost. -/
theorem mem_dropRepeats [DecidableEq α] {z : α} {xs : List α} :
    z ∈ dropRepeats (· == ·) xs ↔ z ∈ xs := by
  cases xs with
  | nil => simp [dropRepeats]
  | cons x xs => simp [dropRepeats, mem_keepFirst]

/-- In a list sorted by `r`, dropping repeats leaves no two elements that are the same. -/
theorem pairwise_keepFirst {r : α → α → Prop} {same : α → α → Bool}
    (trans : ∀ {a b c}, r a b → r b c → same a c = true → same a b = true) {x : α} {xs : List α}
    (h : (x :: xs).Pairwise r) :
    (keepFirst same x xs).Pairwise fun a b => r a b ∧ same a b = false := by
  induction xs generalizing x with
  | nil => simp [keepFirst]
  | cons y ys ih =>
    obtain ⟨hx, hy⟩ := List.pairwise_cons.mp h
    simp only [keepFirst]
    split
    next hs =>
      exact ih (h.sublist (.cons_cons x (List.sublist_cons_self y ys)))
    next hs =>
      have hxy := hx y (by simp)
      refine List.pairwise_cons.mpr ⟨fun z hz => ?_, ih hy⟩
      have hz' := (keepFirst_sublist same y ys).mem hz
      refine ⟨hx z hz', Bool.eq_false_iff.mpr fun hsz => ?_⟩
      rcases List.mem_cons.mp hz' with rfl | hzs
      · exact hs hsz
      · exact hs (trans hxy ((List.pairwise_cons.mp hy).1 z hzs) hsz)

/-- Only comparisons between elements of the list count. -/
theorem keepFirst_congr {same same' : α → α → Bool} {x : α} {xs : List α}
    (h : ∀ a ∈ x :: xs, ∀ b ∈ x :: xs, same a b = same' a b) :
    keepFirst same x xs = keepFirst same' x xs := by
  induction xs generalizing x with
  | nil => rfl
  | cons y ys ih =>
    have hx : keepFirst same x ys = keepFirst same' x ys :=
      ih fun a ha b hb => h a (by grind) b (by grind)
    have hy : keepFirst same y ys = keepFirst same' y ys :=
      ih fun a ha b hb => h a (by grind) b (by grind)
    rw [keepFirst, keepFirst, h x (by simp) y (by simp), hx, hy]

theorem dropRepeats_congr {same same' : α → α → Bool} {xs : List α}
    (h : ∀ a ∈ xs, ∀ b ∈ xs, same a b = same' a b) : dropRepeats same xs = dropRepeats same' xs := by
  cases xs with
  | nil => rfl
  | cons x xs => exact keepFirst_congr h

theorem pairwise_dropRepeats {r : α → α → Prop} {same : α → α → Bool}
    (trans : ∀ a b c, r a b → r b c → same a c = true → same a b = true) {xs : List α}
    (h : xs.Pairwise r) : (dropRepeats same xs).Pairwise fun a b => r a b ∧ same a b = false := by
  cases xs with
  | nil => exact .nil
  | cons x xs => exact pairwise_keepFirst (fun {a b c} => trans a b c) h

/-- Where no two elements are the same, all are kept. -/
theorem keepFirst_of_pairwise {same : α → α → Bool} {x : α} {xs : List α}
    (h : (x :: xs).Pairwise fun a b => same a b = false) : keepFirst same x xs = x :: xs := by
  induction xs generalizing x with
  | nil => rfl
  | cons y ys ih =>
    obtain ⟨hx, hy⟩ := List.pairwise_cons.mp h
    rw [keepFirst, hx y List.mem_cons_self, ih hy]
    rfl

theorem dropRepeats_of_pairwise {same : α → α → Bool} {xs : List α}
    (h : xs.Pairwise fun a b => same a b = false) : dropRepeats same xs = xs := by
  cases xs with
  | nil => rfl
  | cons x xs => exact keepFirst_of_pairwise h

end

/-! ## Sets of names

A finite set of names is kept as a strictly increasing list (`NameSet.sorted_ofList`). Names are
ordered by code points, which is the order of their UTF-8 bytes. -/

namespace NameSet

/-- The order in which a set keeps its names. -/
def upTo (a b : String) : Bool := decide (a ≤ b)

/-- The set of the names in a list. -/
def ofList (xs : List String) : List String := dropRepeats (· == ·) (xs.mergeSort upTo)

@[simp] theorem mem_ofList {z : String} {xs : List String} : z ∈ ofList xs ↔ z ∈ xs := by
  simp [ofList, mem_dropRepeats]

/-- A set lists its names in increasing order, each once. -/
theorem sorted_ofList (xs : List String) : (ofList xs).Pairwise (· < ·) := by
  have hsort : (xs.mergeSort upTo).Pairwise fun a b => upTo a b = true := by
    refine List.pairwise_mergeSort (fun a b c => ?_) (fun a b => ?_) xs
    · simpa [upTo] using String.le_trans
    · simpa [upTo] using String.le_total a b
  refine (pairwise_dropRepeats (fun a b c hab hbc hac => ?_) hsort).imp fun {a b} h => ?_
  · simp only [upTo, decide_eq_true_eq, beq_iff_eq] at *
    subst hac
    exact String.le_antisymm hab hbc
  · simp only [upTo, decide_eq_true_eq, beq_eq_false_iff_ne] at h
    exact Std.lt_of_le_of_ne h.1 h.2

end NameSet

end Nesc
