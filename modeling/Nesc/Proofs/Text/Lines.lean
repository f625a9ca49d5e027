import Mathlib.Data.List.DropRight
import Mathlib.Data.List.Induction
import Nesc.Text

/-!
# Lines of a text

The table of line starts splits at every offset of the text: the starts at or before it are those of
the bytes in front of it, and the others lie behind it (`LineIndex.splitsAt_starts`). Bisection finds
where the table splits (`LineIndex.bisect_eq`), so the line of an offset is the number of newlines in
front of it, and the line starts just after the last of them (`LineIndex.position_ofBytes`). The start
and the column add up to the offset again; hence positions are ordered as offsets are
(`LineIndex.position_strictMono`, `LineIndex.position_le_iff`), and the span of a range holds the
positions of the offsets in the range (`LineIndex.contains_span_iff`).
-/

namespace Nesc

namespace LineIndex

/-- The offset just after the last newline of a byte sequence; zero if there is none. -/
def lastStart (bs : List UInt8) : Nat := (bs.rdropWhile (· != newline)).length

theorem lastStart_le (bs : List UInt8) : lastStart bs ≤ bs.length :=
  (bs.rdropWhile_prefix _).length_le

/-- One more byte starts a new line if it is a newline, and else stays on the last one. -/
theorem lastStart_concat (bs : List UInt8) (b : UInt8) :
    lastStart (bs ++ [b]) = if b = newline then bs.length + 1 else lastStart bs := by
  rw [lastStart, List.rdropWhile_concat]
  by_cases h : b = newline <;> simp [h, lastStart]

/-! ## The table of starts -/

theorem startsAfter_append (base : Nat) (bs cs : List UInt8) :
    startsAfter base (bs ++ cs) = startsAfter base bs ++ startsAfter (base + bs.length) cs := by
  induction bs generalizing base with
  | nil => rfl
  | cons b bs ih =>
    have hbase : base + 1 + bs.length = base + (b :: bs).length := by
      rw [List.length_cons]; omega
    simp only [List.cons_append, startsAfter, ih, hbase]
    split <;> rfl

theorem length_startsAfter (base : Nat) (bs : List UInt8) :
    (startsAfter base bs).length = bs.count newline := by
  induction bs generalizing base with
  | nil => rfl
  | cons b bs ih =>
    rw [startsAfter, List.count_cons]
    split <;> simp_all

/-- A start stands behind its newline, hence inside the text or at its end. -/
theorem bounds_of_mem_startsAfter {base x : Nat} {bs : List UInt8} (h : x ∈ startsAfter base bs) :
    base < x ∧ x ≤ base + bs.length := by
  induction bs generalizing base with
  | nil => exact absurd h List.not_mem_nil
  | cons b bs ih =>
    rw [List.length_cons]
    rw [startsAfter] at h
    split at h
    · rcases List.mem_cons.mp h with rfl | h
      · omega
      · have := ih h
        omega
    · have := ih h
      omega

theorem pairwise_startsAfter (base : Nat) (bs : List UInt8) :
    (startsAfter base bs).Pairwise (· < ·) := by
  induction bs generalizing base with
  | nil => exact .nil
  | cons b bs ih =>
    rw [startsAfter]
    split
    · exact List.pairwise_cons.mpr ⟨fun x hx => (bounds_of_mem_startsAfter hx).1, ih (base + 1)⟩
    · exact ih (base + 1)

/-- The last line starts just after the last newline. -/
theorem getLast?_startsAfter (bs : List UInt8) :
    (0 :: startsAfter 0 bs).getLast? = some (lastStart bs) := by
  induction bs using List.reverseRecOn with
  | nil => rfl
  | append_singleton bs b ih =>
    rw [startsAfter_append, lastStart_concat, startsAfter, ← List.cons_append]
    split
    · rw [startsAfter, List.getLast?_concat, Nat.zero_add]
    · rwa [startsAfter, List.append_nil]

/-- The table falls into the starts of the bytes in front of an offset and those behind it. -/
theorem startsAfter_take_drop (bs : List UInt8) {p : Nat} (hp : p ≤ bs.length) :
    startsAfter 0 bs = startsAfter 0 (bs.take p) ++ startsAfter p (bs.drop p) := by
  have hsplit := startsAfter_append 0 (bs.take p) (bs.drop p)
  rwa [List.take_append_drop, List.length_take_of_le hp, Nat.zero_add] at hsplit

theorem pairwise_starts (bs : List UInt8) : (ofBytes bs).starts.toList.Pairwise (· < ·) :=
  List.pairwise_cons.mpr
    ⟨fun _ hx => (bounds_of_mem_startsAfter hx).1, pairwise_startsAfter 0 bs⟩

theorem le_length_of_mem_starts {x : Nat} {bs : List UInt8} (h : x ∈ (ofBytes bs).starts) :
    x ≤ bs.length := by
  rcases List.mem_cons.mp (List.mem_toArray.mp h) with rfl | h
  · exact Nat.zero_le _
  · have := bounds_of_mem_startsAfter h
    omega

/-! ## Searching the table -/

/-- The numbers at or before `x` are the first `cut` ones. -/
def SplitsAt (xs : Array Nat) (x cut : Nat) : Prop :=
  cut ≤ xs.size ∧ ∀ i (h : i < xs.size), i < cut ↔ xs[i] ≤ x

/-- Bisection between bounds on either side of the split ends right in front of it. -/
theorem bisect_eq {xs : Array Nat} {x cut lo hi : Nat} {hlo : lo < xs.size} {hhi : hi ≤ xs.size}
    (h : SplitsAt xs x cut) (hcut : lo < cut) (hcut' : cut ≤ hi) :
    (bisect xs x lo hi hlo hhi).val + 1 = cut := by
  -- Each half keeps the split between its bounds; the middle says in which half it lies.
  fun_induction bisect xs x lo hi hlo hhi with
  | case1 lo hi hlo hhi hlt hmid hle ih => exact ih ((h.2 _ hmid).mpr hle) hcut'
  | case2 lo hi hlo hhi hlt hmid hle ih =>
    have hmid' := mt (h.2 _ hmid).mp hle
    exact ih hcut (by omega)
  | case3 lo hi hlo hhi hlt => change lo + 1 = cut; omega

/-- The table splits at an offset after as many starts as there are newlines in front of it, and one
for the first line. -/
theorem splitsAt_starts (bs : List UInt8) {p : Nat} (hp : p ≤ bs.length) :
    SplitsAt (ofBytes bs).starts p ((bs.take p).count newline + 1) := by
  have hstarts : (ofBytes bs).starts =
      ((0 :: startsAfter 0 (bs.take p)) ++ startsAfter p (bs.drop p)).toArray := by
    rw [List.cons_append, ← startsAfter_take_drop bs hp]
    rfl
  have hcut : (0 :: startsAfter 0 (bs.take p)).length = (bs.take p).count newline + 1 := by
    rw [List.length_cons, length_startsAfter]
  rw [hstarts, ← hcut]
  refine ⟨by simp, fun i hi => ?_⟩
  rw [List.getElem_toArray, List.getElem_append]
  split
  · next hlt =>
    refine iff_of_true hlt ?_
    rcases List.mem_cons.mp (List.getElem_mem hlt) with hzero | hmem
    · omega
    · have := bounds_of_mem_startsAfter hmem
      rw [List.length_take_of_le hp] at this
      omega
  · next hge =>
    refine iff_of_false hge (Nat.not_le.mpr ?_)
    exact (bounds_of_mem_startsAfter (List.getElem_mem _)).1

/-- What a search for `x` among increasing numbers may answer: its place, or else the place where it
would have to be put in, behind all smaller numbers and in front of all greater ones. -/
def Locates (xs : Array Nat) (x : Nat) : Except Nat Nat → Prop
  | .ok i => xs[i]? = some x
  | .error i => i ≤ xs.size ∧ ∀ j (h : j < xs.size), (j < i → xs[j] < x) ∧ (i ≤ j → x < xs[j])

theorem SplitsAt.unique {xs : Array Nat} {x cut cut' : Nat} (h : SplitsAt xs x cut)
    (h' : SplitsAt xs x cut') : cut = cut' := by
  have hle : ∀ {a b}, SplitsAt xs x a → SplitsAt xs x b → a ≤ b := by
    intro a b ha hb
    by_contra hlt
    have hb' : b < xs.size := by have := ha.1; omega
    have := (hb.2 b hb').mpr ((ha.2 b hb').mp (by omega))
    omega
  exact Nat.le_antisymm (hle h h') (hle h' h)

/-- A binary search that finds no equal entry gives the place where the table splits. -/
theorem splitsAt_of_locates_error {xs : Array Nat} {x next : Nat}
    (h : Locates xs x (.error next)) : SplitsAt xs x next := by
  refine ⟨h.1, fun i hi => ⟨fun hlt => Nat.le_of_lt ((h.2 i hi).1 hlt), fun hle => ?_⟩⟩
  by_contra hge
  have := (h.2 i hi).2 (by omega)
  omega

/-- A binary search that finds an equal entry gives the last place before the table splits, since no
entry repeats. -/
theorem splitsAt_of_locates_ok {xs : Array Nat} {x i : Nat} (hxs : xs.toList.Pairwise (· < ·))
    (h : Locates xs x (.ok i)) : SplitsAt xs x (i + 1) := by
  obtain ⟨hi, rfl⟩ := Array.getElem?_eq_some_iff.mp h
  have hmono : ∀ {a b} (hab : a < b) (hb : b < xs.size), xs[a] < xs[b] := by
    intro a b hab hb
    exact List.pairwise_iff_getElem.mp hxs a b (by simp; omega) (by simpa using hb) hab
  refine ⟨hi, fun j hj => ⟨fun hlt => ?_, fun hle => ?_⟩⟩
  · rcases Nat.lt_or_eq_of_le (Nat.le_of_lt_succ hlt) with hji | rfl
    · exact Nat.le_of_lt (hmono hji hi)
    · exact Nat.le_refl _
  · by_contra hge
    have := hmono (show i < j by omega) hj
    omega

/-! ## Positions -/

/-- The line of an offset is the number of newlines in front of it. -/
theorem line_ofBytes (bs : List UInt8) {p : Nat} (hp : p ≤ bs.length) :
    ((ofBytes bs).line p).val = (bs.take p).count newline := by
  have hsplit := splitsAt_starts bs hp
  exact Nat.succ.inj (bisect_eq hsplit (Nat.succ_pos _) hsplit.1)

/-- That line starts just behind the last of them. -/
theorem start_line_ofBytes (bs : List UInt8) {p : Nat} (hp : p ≤ bs.length) :
    (ofBytes bs).starts[(bs.take p).count newline]? = some (lastStart (bs.take p)) := by
  have hlast := getLast?_startsAfter (bs.take p)
  rw [List.getLast?_eq_getElem?, List.length_cons, length_startsAfter, Nat.add_sub_cancel] at hlast
  have hlt := (List.getElem?_eq_some_iff.mp hlast).1
  rw [← hlast, ← List.getElem?_append_left hlt, List.cons_append, ← startsAfter_take_drop bs hp]
  exact List.getElem?_toArray

/-- The line of an offset is the number of newlines in front of it, and its column the distance from
the last of them. -/
theorem position_ofBytes (bs : List UInt8) (o : Nat) :
    (ofBytes bs).position o = ⟨(bs.take (min o bs.length)).count newline,
      min o bs.length - lastStart (bs.take (min o bs.length))⟩ := by
  have hp : min o bs.length ≤ bs.length := Nat.min_le_right ..
  have hline := line_ofBytes bs hp
  have hstart := start_line_ofBytes bs hp
  rw [← hline, Array.getElem?_eq_getElem (Fin.isLt _)] at hstart
  rw [← hline, ← Option.some.inj hstart]
  rfl

theorem lastStart_take_le (bs : List UInt8) (p : Nat) : lastStart (bs.take p) ≤ p :=
  Nat.le_trans (lastStart_le _) (List.length_take_le p bs)

theorem position_of_length_le {bs : List UInt8} {o : Nat} (h : bs.length ≤ o) :
    (ofBytes bs).position o = (ofBytes bs).position bs.length := by
  rw [position_ofBytes, position_ofBytes, Nat.min_eq_right h, Nat.min_self]

/-- On one line positions differ by their columns; else the later offset has more newlines in front
of it. -/
theorem position_strictMono {bs : List UInt8} {a b : Nat} (hab : a < b) (hb : b ≤ bs.length) :
    (ofBytes bs).position a < (ofBytes bs).position b := by
  have ha : a ≤ bs.length := by omega
  rw [position_ofBytes, position_ofBytes, Nat.min_eq_left ha, Nat.min_eq_left hb, Position.lt_iff]
  have hcount : (bs.take a).count newline ≤ (bs.take b).count newline :=
    (List.take_sublist_take_left (Nat.le_of_lt hab)).count_le newline
  rcases Nat.lt_or_eq_of_le hcount with hlt | heq
  · exact .inl hlt
  · -- Equally many newlines: both are read off one entry of the table.
    have hstart : lastStart (bs.take a) = lastStart (bs.take b) := by
      have hstart := start_line_ofBytes bs ha
      rw [heq, start_line_ofBytes bs hb] at hstart
      exact (Option.some.inj hstart).symm
    have := lastStart_take_le bs a
    exact .inr ⟨heq, by simp only; omega⟩

theorem position_min (bs : List UInt8) (o : Nat) :
    (ofBytes bs).position (min o bs.length) = (ofBytes bs).position o := by
  rw [position_ofBytes, position_ofBytes, Nat.min_assoc, Nat.min_self]

/-- Offsets in order have positions in order, once they are cut off at the end. -/
theorem position_lt_of_min_lt {bs : List UInt8} {a b : Nat}
    (h : min a bs.length < min b bs.length) : (ofBytes bs).position a < (ofBytes bs).position b := by
  rw [← position_min bs a, ← position_min bs b]
  exact position_strictMono h (Nat.min_le_right ..)

/-- Positions are ordered as offsets are, once these are cut off at the end of the text. -/
theorem position_le_iff {bs : List UInt8} {a b : Nat} :
    (ofBytes bs).position a ≤ (ofBytes bs).position b ↔ min a bs.length ≤ min b bs.length := by
  constructor
  · intro hle
    by_contra hlt
    have hlt := Position.lt_iff.mp (position_lt_of_min_lt (Nat.not_le.mp hlt))
    have hle := Position.le_iff.mp hle
    omega
  · intro hle
    rcases Nat.lt_or_eq_of_le hle with hlt | heq
    · have hlt := Position.lt_iff.mp (position_lt_of_min_lt hlt)
      exact Position.le_iff.mpr (by omega)
    · rw [← position_min bs a, heq, position_min]
      exact Position.le_iff.mpr (.inr ⟨rfl, Nat.le_refl _⟩)

/-- In a text that offsets of 32 bits can address, the table of line starts increases and its entries
are such offsets. For every offset, cut off at the end of the text, the line is the number of
newlines in front of it and the column its distance from the last of them; the line is one of the
table, and its start and the column add up to the offset. However the table is searched, the answer
leads to this line: it is where the offset itself is found, and the one in front of the place where
it is missing. Positions increase strictly up to the end of the text and stay there. -/
theorem position_exact (s : String) (hsize : s.utf8ByteSize < UInt32.size) :
    (ofText s).starts.toList.Pairwise (· < ·) ∧
    (∀ x ∈ (ofText s).starts, x < UInt32.size) ∧
    (∀ o, let p := min o s.utf8ByteSize
      let front := (Text.bytes s).take p
      let pos := (ofText s).position o
      pos.line = front.count newline ∧
      lastStart front ≤ p ∧ pos.column = p - lastStart front ∧
      pos.line < (ofText s).lineCount ∧
      (∃ start, (ofText s).starts[pos.line]? = some start ∧ start + pos.column = p) ∧
      (∀ i, Locates (ofText s).starts p (.ok i) → i = pos.line) ∧
      ∀ next, Locates (ofText s).starts p (.error next) → next = pos.line + 1) ∧
    (∀ a b, a < b → b ≤ s.utf8ByteSize → (ofText s).position a < (ofText s).position b) ∧
    ∀ o, s.utf8ByteSize ≤ o → (ofText s).position o = (ofText s).position s.utf8ByteSize := by
  rw [← Text.length_bytes] at hsize ⊢
  refine ⟨pairwise_starts _, fun x hx => ?_, fun o => ?_, fun _ _ => position_strictMono,
    fun _ => position_of_length_le⟩
  · exact Nat.lt_of_le_of_lt (le_length_of_mem_starts hx) hsize
  · intro p front pos
    have hp : p ≤ (Text.bytes s).length := Nat.min_le_right ..
    have hpos : pos = ⟨front.count newline, p - lastStart front⟩ := position_ofBytes _ o
    have hle : lastStart front ≤ p := lastStart_take_le _ p
    have hstart := start_line_ofBytes (Text.bytes s) hp
    have hsplit : SplitsAt (ofText s).starts p (front.count newline + 1) := splitsAt_starts _ hp
    rw [hpos]
    refine ⟨rfl, hle, rfl, hsplit.1, ⟨lastStart front, hstart, Nat.add_sub_of_le hle⟩, fun i hi => ?_,
      fun next hnext => (splitsAt_of_locates_error hnext).unique hsplit⟩
    exact Nat.succ.inj ((splitsAt_of_locates_ok (pairwise_starts _) hi).unique hsplit)

/-- The text ends with a newline, and the offset lies past it. -/
theorem position_exact_finalNewline :
    "ab\nç\n".utf8ByteSize < UInt32.size ∧ Locates (ofText "ab\nç\n").starts 6 (.ok 2) ∧
    ((ofText "ab\nç\n").position 99).line = 2 ∧
    (ofText "ab\nç\n").position 2 < (ofText "ab\nç\n").position 3 := by
  have hsize : "ab\nç\n".utf8ByteSize < UInt32.size := by decide
  have hlocates : Locates (ofText "ab\nç\n").starts 6 (.ok 2) := rfl
  obtain ⟨-, -, hexact, hmono, -⟩ := position_exact "ab\nç\n" hsize
  obtain ⟨-, -, -, -, -, hfound, -⟩ := hexact 99
  exact ⟨hsize, hlocates, (hfound 2 hlocates).symm, hmono 2 3 (by decide) (by decide)⟩

end LineIndex

/-! ## Spans of ranges

The span of a range of offsets holds the positions of the offsets in the range, its ends included,
and no other positions of the text. It reaches over more than one line exactly if a newline lies in
the range, since each end counts the newlines in front of it. Ranges that reach past the end of the
text are cut off there (`Range.cutAt`). -/

namespace Range

/-- The range with both bounds cut off at `n`. -/
def cutAt (n : Nat) (r : Range) : Range :=
  ⟨min r.start n, min r.stop n, by have := r.start_le_stop; omega⟩

theorem take_stop {α : Type} (r : Range) (xs : List α) :
    xs.take r.stop = xs.take r.start ++ r.slice xs := by
  have hstop : r.stop = r.start + r.width := by
    have := r.start_le_stop
    rw [width]; omega
  rw [hstop, List.take_add]
  rfl

end Range

namespace LineIndex

variable (bs : List UInt8) (r : Range)

/-- A span holds the positions of the offsets between the bounds, and no other position of the
text. -/
theorem contains_span_iff (o : Nat) :
    ((ofBytes bs).span r).contains ((ofBytes bs).position o) = true ↔
      min r.start bs.length ≤ min o bs.length ∧ min o bs.length ≤ min r.stop bs.length := by
  simp only [Span.contains, span, Bool.and_eq_true, decide_eq_true_eq, position_le_iff]

/-- The newlines in front of the end of a range are those in front of its start and those in it. -/
theorem isMultiline_span_iff :
    ((ofBytes bs).span r).isMultiline = true ↔ newline ∈ (r.cutAt bs.length).slice bs := by
  have hcount : (bs.take (min r.stop bs.length)).count newline =
      (bs.take (min r.start bs.length)).count newline +
        ((r.cutAt bs.length).slice bs).count newline := by
    rw [← List.count_append]
    exact congrArg (List.count newline) (Range.take_stop (r.cutAt bs.length) bs)
  simp only [Span.isMultiline, span, position_ofBytes, bne_iff_ne]
  rw [hcount, ← List.count_pos_iff]
  omega

/-- A span holds the position of an offset exactly if the offset lies between the bounds of the
range, its ends come in order, and it reaches over several lines exactly if the bytes of the range
hold a newline; offsets count as cut off at the end of the text. -/
theorem span_mirrors_range (s : String) (r : Range) :
    let index := ofText s
    let n := s.utf8ByteSize
    (∀ o, (index.span r).contains (index.position o) = true ↔
      min r.start n ≤ min o n ∧ min o n ≤ min r.stop n) ∧
    (index.span r).start ≤ (index.span r).stop ∧
    ((index.span r).isMultiline = true ↔ newline ∈ (r.cutAt n).slice (Text.bytes s)) := by
  intro index n
  have hn : (Text.bytes s).length = n := Text.length_bytes s
  refine ⟨fun o => hn ▸ contains_span_iff (Text.bytes s) r o, ?_,
    hn ▸ isMultiline_span_iff (Text.bytes s) r⟩
  have := r.start_le_stop
  exact position_le_iff.mpr (by omega)

end LineIndex

end Nesc
