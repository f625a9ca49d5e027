import Nesc.Proofs.Tree.Places

/-!
# The text of a respelled tree

Respelling tokens by their paths and editing the text at their ranges are two descriptions of one
change. `Cursor.rewrites_respellings`: the edits of the chosen tokens, in document order, turn the
text of a tree into the text of the respelled tree. Nothing is asked of the old texts; the tokens
may have any width, also none. The edits are carried out on the whole text; `Edit.Rewrites` says
what they do to a piece of it.
-/

namespace Nesc

/-! ## Edits piece by piece

`Rewrites es start xs ys` holds if `es` turns the piece `xs`, standing at offset `start`, into `ys`,
whatever stands around it. Pieces compose (`Rewrites.append`): since the last edit is carried out
first, the edits of a later piece are done before those of an earlier one move it. -/

namespace Edit

theorem applyAll_append (es fs : List Edit) (bs : List UInt8) :
    applyAll (es ++ fs) bs = applyAll es (applyAll fs bs) :=
  List.foldr_append ..

/-- Wherever the bytes `xs` stand at offset `start`, the edits replace them by `ys` and leave what
is around them as it is. -/
def Rewrites (es : List Edit) (start : Nat) (xs ys : List UInt8) : Prop :=
  ∀ before after : List UInt8, before.length = start →
    applyAll es (before ++ xs ++ after) = before ++ ys ++ after

namespace Rewrites

theorem refl (start : Nat) (xs : List UInt8) : Rewrites [] start xs xs := by
  intro before after _
  rfl

theorem single {r : Range} {new : String} {xs : List UInt8} (hwidth : r.stop = r.start + xs.length) :
    Rewrites [⟨r, new⟩] r.start xs (Text.bytes new) := by
  intro before after hstart
  have htake : (before ++ xs ++ after).take r.start = before := by
    rw [List.append_assoc, ← hstart, List.take_left]
  have hdrop : (before ++ xs ++ after).drop r.stop = after := by
    rw [hwidth, ← hstart, ← List.length_append, List.drop_left]
  rw [applyAll_cons, applyAll_nil, apply, htake, hdrop]

/-- Edits of neighbouring pieces replace both. -/
theorem append {es fs : List Edit} {start : Nat} {xs xs' ys ys' : List UInt8}
    (hx : Rewrites es start xs xs') (hy : Rewrites fs (start + xs.length) ys ys') :
    Rewrites (es ++ fs) start (xs ++ ys) (xs' ++ ys') := by
  intro before after hstart
  have hlater : applyAll fs (before ++ (xs ++ ys) ++ after) = before ++ xs ++ (ys' ++ after) := by
    have h := hy (before ++ xs) after (by rw [List.length_append, hstart])
    simpa only [List.append_assoc] using h
  rw [applyAll_append, hlater, hx before (ys' ++ after) hstart]
  simp only [List.append_assoc]

theorem applyAll_eq {es : List Edit} {xs ys : List UInt8} (h : Rewrites es 0 xs ys) :
    applyAll es xs = ys := by
  simpa using h [] [] rfl

end Rewrites

end Edit

/-! ## Respelling the tokens of a tree -/

namespace Cursor

variable (chosen : List Nat → Bool) (new : String)

/-- The edits that respell the chosen tokens of an element, in document order. -/
def respellings (c : Cursor) : List Edit :=
  (c.leaves.filter (chosen ·.path)).map fun d => ⟨d.range, new⟩

theorem respellings_token (path : List Nat) (start : Nat) (k : Kind) (s : String) :
    respellings chosen new ⟨path, start, .token k s⟩ =
      if chosen path then [⟨.ofWidth start s.utf8ByteSize, new⟩] else [] := by
  rw [respellings, leaves_of_isToken rfl]
  cases h : chosen path <;> simp [h, range, Tree.width]

theorem respellings_node (path : List Nat) (start : Nat) (k : Kind) (ts : Forest) :
    respellings chosen new ⟨path, start, .node k ts⟩ =
      (row path 0 start ts).flatMap (respellings chosen new) := by
  rw [respellings, leaves_of_isNode rfl, List.filter_flatMap, List.map_flatMap]
  rfl

/-- If each tree of a row is rewritten by its own edits, the row is rewritten by all of them. -/
theorem rewrites_row {path : List Nat} {ts : Forest}
    (h : ∀ t ∈ ts, ∀ path start, Edit.Rewrites (respellings chosen new ⟨path, start, t⟩) start
      (Text.bytes t.text) (Text.bytes (t.respellAt chosen new path).text)) (i start : Nat) :
    Edit.Rewrites ((row path i start ts).flatMap (respellings chosen new)) start
      (Text.bytes (Forest.text ts))
      (Text.bytes (Forest.text (Forest.respellAt chosen new path i ts))) := by
  induction ts generalizing i start with
  | nil => exact .refl start []
  | cons t ts ih =>
    rw [List.forall_mem_cons] at h
    have hhead := h.1 (path ++ [i]) start
    have htail := ih h.2 (i + 1) (start + t.width)
    rw [← length_bytes_text] at htail
    rw [row, List.flatMap_cons, Forest.respellAt, Forest.text, Forest.text, Text.bytes_append,
      Text.bytes_append]
    rw [← length_bytes_text]
    exact hhead.append htail

/-- The edits of the chosen tokens turn the text of an element into that of the respelled one. -/
theorem rewrites_respellings (c : Cursor) :
    Edit.Rewrites (c.respellings chosen new) c.start (Text.bytes c.text)
      (Text.bytes (c.tree.respellAt chosen new c.path).text) := by
  obtain ⟨path, start, t⟩ := c
  induction t using Tree.induction generalizing path start with
  | token k s =>
    rw [respellings_token]
    simp only [text, Tree.text, Tree.respellAt]
    split
    · exact .single (by simp [Range.ofWidth])
    · exact .refl start _
  | node k ts ih =>
    rw [respellings_node]
    exact rewrites_row chosen new (fun t ht path start => ih t ht path start) 0 start

end Cursor

/-- Carrying out the respellings of a tree gives the text of the respelled tree. -/
theorem Tree.applyAll_respellings (chosen : List Nat → Bool) (new : String) (t : Tree) :
    Edit.applyAll ((Cursor.root t).respellings chosen new) (Text.bytes t.text) =
      Text.bytes (t.respell chosen new).text :=
  (Cursor.rewrites_respellings chosen new (.root t)).applyAll_eq

end Nesc
