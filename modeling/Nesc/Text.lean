/-! # Texts, positions and edits

Offsets, ranges and columns count bytes of the UTF-8 form. Cutting a text at an arbitrary offset
need not give a text again, so what an edit does is said on the byte sequence; `Text.bytes_inj`
makes that as good as saying it on the text. A position counts lines and, within the line, bytes;
the line index finds the position of an offset. -/

namespace Nesc

namespace Text

/-- The bytes of a text in UTF-8. -/
def bytes (s : String) : List UInt8 := s.toByteArray.data.toList

@[simp] theorem bytes_empty : bytes "" = [] := rfl

@[simp] theorem bytes_append (s t : String) : bytes (s ++ t) = bytes s ++ bytes t := by
  simp [bytes]

@[simp] theorem length_bytes (s : String) : (bytes s).length = s.utf8ByteSize := by
  simp [bytes]

theorem bytes_inj {s t : String} : bytes s = bytes t ↔ s = t := by
  refine ⟨fun h => String.toByteArray_inj.mp (ByteArray.ext (Array.toList_inj.mp h)), ?_⟩
  rintro rfl
  rfl

end Text

/-! ## Ranges of byte offsets -/

/-- The bytes from `start` up to but excluding `stop`. -/
structure Range where
  start : Nat
  stop : Nat
  start_le_stop : start ≤ stop := by omega
deriving DecidableEq, Repr

namespace Range

/-- The range with the given bounds; bounds in the wrong order have none. -/
def ofBounds? (start stop : Nat) : Option Range :=
  if h : start ≤ stop then some ⟨start, stop, h⟩ else none

/-- The range of `width` bytes that begins at `start`. -/
def ofWidth (start width : Nat) : Range := ⟨start, start + width, Nat.le_add_right start width⟩

def width (r : Range) : Nat := r.stop - r.start

/-- The elements of a sequence that lie in the range. -/
def slice {α : Type} (r : Range) (xs : List α) : List α := (xs.drop r.start).take r.width

/-- Bounds with two dots between them. -/
def toText (r : Range) : String := s!"{r.start}..{r.stop}"

@[simp] theorem ofBounds?_eq_some_iff {a b : Nat} {r : Range} :
    ofBounds? a b = some r ↔ r.start = a ∧ r.stop = b := by
  obtain ⟨start, stop, h⟩ := r
  simp only [ofBounds?]
  split <;> simp_all <;> omega

@[simp] theorem width_ofWidth (start width : Nat) : (ofWidth start width).width = width := by
  simp [ofWidth, Range.width]

end Range

/-! ## Positions and spans

Lines and columns count from zero. Positions are ordered by line first (`Position.le_iff`), and a
span holds both of its ends. -/

/-- A place in a text: a line and a byte column in it. -/
structure Position where
  line : Nat
  column : Nat
deriving DecidableEq, Repr

namespace Position

instance : Ord Position where
  compare p q := (compare p.line q.line).then (compare p.column q.column)

instance : LE Position := leOfOrd

instance : LT Position := ltOfOrd

instance (p q : Position) : Decidable (p ≤ q) :=
  inferInstanceAs (Decidable ((compare p q).isLE = true))

instance (p q : Position) : Decidable (p < q) :=
  inferInstanceAs (Decidable (compare p q = .lt))

theorem compare_eq (p q : Position) :
    compare p q = (compare p.line q.line).then (compare p.column q.column) := rfl

/-- Positions are ordered by line first, then by column. -/
theorem le_iff {p q : Position} :
    p ≤ q ↔ p.line < q.line ∨ p.line = q.line ∧ p.column ≤ q.column := by
  change (compare p q).isLE = true ↔ _
  rw [compare_eq]
  rcases Nat.lt_trichotomy p.line q.line with h | h | h
  · simp [Nat.compare_eq_lt.mpr h, h]
  · simp [h, Nat.isLE_compare]
  · simp [Nat.compare_eq_gt.mpr h]; omega

theorem lt_iff {p q : Position} :
    p < q ↔ p.line < q.line ∨ p.line = q.line ∧ p.column < q.column := by
  change compare p q = .lt ↔ _
  rw [compare_eq]
  rcases Nat.lt_trichotomy p.line q.line with h | h | h
  · simp [Nat.compare_eq_lt.mpr h, h]
  · simp [h, Nat.compare_eq_lt]
  · simp [Nat.compare_eq_gt.mpr h]; omega

end Position

/-- A stretch of text between two positions. The ends are as given, in whatever order. -/
structure Span where
  start : Position
  stop : Position
deriving DecidableEq, Repr

namespace Span

/-- Whether a position lies in the span, ends included. -/
def contains (s : Span) (p : Position) : Bool := s.start ≤ p && p ≤ s.stop

/-- Whether the ends lie on different lines. -/
def isMultiline (s : Span) : Bool := s.start.line != s.stop.line

end Span

/-! ## Positions of byte offsets

A line starts at offset zero and after every newline byte. The index keeps these offsets, in
increasing order, and finds the line of an offset by bisection. Offsets past the end of the text
count as its end. -/

/-- Where the lines of a text start, and how long the text is. -/
structure LineIndex where
  starts : Array Nat
  length : Nat
  /-- There is always a first line. -/
  starts_pos : 0 < starts.size

namespace LineIndex

/-- The byte that ends a line. -/
def newline : UInt8 := 10

/-- The offsets just after the newlines of a byte sequence that stands at offset `base`. -/
def startsAfter (base : Nat) : List UInt8 → List Nat
  | [] => []
  | b :: bs =>
    if b = newline then (base + 1) :: startsAfter (base + 1) bs else startsAfter (base + 1) bs

/-- The index of a byte sequence. -/
def ofBytes (bs : List UInt8) : LineIndex where
  starts := (0 :: startsAfter 0 bs).toArray
  length := bs.length
  starts_pos := by simp

/-- The index of a text. -/
def ofText (s : String) : LineIndex := ofBytes (Text.bytes s)

def lineCount (index : LineIndex) : Nat := index.starts.size

/-- The last of the places `lo`, …, `hi - 1` whose start is at or before `offset`, given that the
start at `lo` is and that the starts increase. -/
def bisect (starts : Array Nat) (offset lo hi : Nat) (hlo : lo < starts.size)
    (hhi : hi ≤ starts.size) : Fin starts.size :=
  if h : lo + 1 < hi then
    have hmid : (lo + hi) / 2 < starts.size := by omega
    if starts[(lo + hi) / 2] ≤ offset then
      bisect starts offset ((lo + hi) / 2) hi hmid hhi
    else
      bisect starts offset lo ((lo + hi) / 2) hlo (Nat.le_of_lt hmid)
  else ⟨lo, hlo⟩
termination_by hi - lo

/-- The line on which an offset lies. -/
def line (index : LineIndex) (offset : Nat) : Fin index.starts.size :=
  bisect index.starts offset 0 index.starts.size index.starts_pos (Nat.le_refl _)

/-- The position of an offset; past the end of the text, that of the end. -/
def position (index : LineIndex) (offset : Nat) : Position :=
  let inside := min offset index.length
  let line := index.line inside
  ⟨line, inside - index.starts[line]⟩

/-- The span from the first to the last bound of a range. -/
def span (index : LineIndex) (r : Range) : Span := ⟨index.position r.start, index.position r.stop⟩

end LineIndex

/-! ## Edits

An edit replaces a range of bytes by a text. Edits are computed here and elsewhere only; `apply`
and `applyAll` say what carrying them out means. A list of edits is carried out from its last to
its first, so that for edits in increasing order each one meets the offsets it was computed for. -/

/-- The replacement of a range of bytes by a text. -/
structure Edit where
  range : Range
  newText : String
deriving DecidableEq, Repr

namespace Edit

/-- The lines and columns an edit replaces. -/
def span (e : Edit) (index : LineIndex) : Span := index.span e.range

/-- The byte sequence after one edit. -/
def apply (e : Edit) (bs : List UInt8) : List UInt8 :=
  bs.take e.range.start ++ Text.bytes e.newText ++ bs.drop e.range.stop

/-- The byte sequence after all edits of a list, the last carried out first. -/
def applyAll (es : List Edit) (bs : List UInt8) : List UInt8 := es.foldr apply bs

@[simp] theorem applyAll_nil (bs : List UInt8) : applyAll [] bs = bs := rfl

@[simp] theorem applyAll_cons (e : Edit) (es : List Edit) (bs : List UInt8) :
    applyAll (e :: es) bs = e.apply (applyAll es bs) := rfl

end Edit

end Nesc
