import Nesc.Rename

/-!
# Lists of edits in order

`Edit.respell` sorts the edits by their starts alone and drops an edit only if the one kept before
it has the same range. For any identifiers it makes an edit of each range and no other
(`Edit.mem_respell`). If all ranges have one width, two edits with the same start have the same
range, so the starts strictly increase (`Edit.pairwise_start_respell`). Identifiers that come in
order are not rearranged (`Edit.respell_of_increasing`).
-/

namespace Nesc

theorem Range.ext_of_width {r q : Range} (hstart : r.start = q.start) (hwidth : r.width = q.width) :
    r = q := by
  obtain ⟨a, b, hab⟩ := r
  obtain ⟨c, d, hcd⟩ := q
  simp only [Range.width] at hstart hwidth
  obtain rfl : a = c := hstart
  obtain rfl : b = d := by omega
  rfl

namespace Edit

variable {new : String} {is : List Identifier}

/-- The edits of the identifiers, one each, in the given order. -/
def each (new : String) (is : List Identifier) : List Edit := is.map fun i => ⟨i.nameRange, new⟩

/-- Sorted by start. -/
def upTo (a b : Edit) : Bool := decide (a.range.start ≤ b.range.start)

theorem respell_eq (new : String) (is : List Identifier) :
    respell new is = dropRepeats (fun a b => a.range == b.range) ((each new is).mergeSort upTo) :=
  rfl

theorem mem_each {e : Edit} : e ∈ each new is ↔ ∃ i ∈ is, e = ⟨i.nameRange, new⟩ := by
  simp only [each, List.mem_map, eq_comm]

/-- Sorting and dropping repeats loses no range: there is an edit at each identifier and no
other. -/
theorem mem_respell {e : Edit} : e ∈ respell new is ↔ ∃ i ∈ is, e = ⟨i.nameRange, new⟩ := by
  -- All edits carry the same text, so edits of one range are equal.
  have hsame : ∀ a ∈ (each new is).mergeSort upTo, ∀ b ∈ (each new is).mergeSort upTo,
      (a.range == b.range) = (a == b) := by
    intro a ha b hb
    obtain ⟨i, -, rfl⟩ := mem_each.mp (List.mem_mergeSort.mp ha)
    obtain ⟨j, -, rfl⟩ := mem_each.mp (List.mem_mergeSort.mp hb)
    rw [Bool.eq_iff_iff, beq_iff_eq, beq_iff_eq, Edit.mk.injEq]
    exact ⟨fun h => ⟨h, rfl⟩, fun h => h.1⟩
  rw [respell_eq, dropRepeats_congr hsame, mem_dropRepeats, List.mem_mergeSort, mem_each]

/-- The sort puts the edits in the order of their starts, and only of these. -/
theorem pairwise_upTo_mergeSort (es : List Edit) :
    (es.mergeSort upTo).Pairwise fun a b => a.range.start ≤ b.range.start := by
  have trans : ∀ a b c : Edit, upTo a b = true → upTo b c = true → upTo a c = true := by
    intro a b c hab hbc
    simp only [upTo, decide_eq_true_eq] at *
    exact Nat.le_trans hab hbc
  have total : ∀ a b : Edit, (upTo a b || upTo b a) = true := by
    intro a b
    simp only [upTo, Bool.or_eq_true, decide_eq_true_eq]
    exact Nat.le_total ..
  exact (List.pairwise_mergeSort trans total es).imp fun hab => of_decide_eq_true hab

/-- Edits of one width have strictly increasing starts. -/
theorem pairwise_start_respell {w : Nat} (hwidth : ∀ i ∈ is, i.nameRange.width = w) :
    (respell new is).Pairwise fun a b => a.range.start < b.range.start := by
  have hw : ∀ e ∈ (each new is).mergeSort upTo, e.range.width = w := by
    intro e he
    obtain ⟨i, hi, rfl⟩ := mem_each.mp (List.mem_mergeSort.mp he)
    exact hwidth i hi
  have hsorted : ((each new is).mergeSort upTo).Pairwise fun a b =>
      a.range.start ≤ b.range.start ∧ a.range.width = b.range.width := by
    refine List.Pairwise.imp_of_mem ?_ (pairwise_upTo_mergeSort (each new is))
    intro a b ha hb hab
    exact ⟨hab, (hw a ha).trans (hw b hb).symm⟩
  rw [respell_eq]
  refine (pairwise_dropRepeats ?_ hsorted).imp ?_
  · intro a b c hab hbc hac
    simp only [beq_iff_eq] at hac ⊢
    refine Range.ext_of_width (Nat.le_antisymm hab.1 ?_) hab.2
    rw [hac]
    exact hbc.1
  · rintro a b ⟨⟨hle, hwidth⟩, hne⟩
    refine Nat.lt_of_le_of_ne hle fun hstart => ?_
    exact absurd (Range.ext_of_width hstart hwidth) (ne_of_beq_false hne)

/-- Identifiers whose names start one after the other keep their order. -/
theorem respell_of_increasing
    (h : is.Pairwise fun i j => i.nameRange.start < j.nameRange.start) :
    respell new is = each new is := by
  have hstart : (each new is).Pairwise fun a b => a.range.start < b.range.start :=
    List.pairwise_map.mpr h
  have hsort : (each new is).mergeSort upTo = each new is :=
    List.mergeSort_of_pairwise (hstart.imp fun hab => decide_eq_true (Nat.le_of_lt hab))
  have hdiff : (each new is).Pairwise fun a b => (a.range == b.range) = false :=
    hstart.imp fun {a b} hab => beq_eq_false_iff_ne.mpr fun he => by
      rw [he] at hab
      exact Nat.lt_irrefl _ hab
  rw [respell_eq, hsort]
  exact dropRepeats_of_pairwise hdiff

end Edit

end Nesc
