import Nesc.Proofs.Tree.Places
import Nesc.Tree.Builder

/-!
# Building loses nothing

A builder sets the elements in front of an open node aside. The same construction can be kept flat:
one list of all elements, and for each open node a mark, how long the list was when it was opened
(`FlatBuilder`). Both build the same trees from the same instructions and fail on the same ones
(`FlatBuilder.build_eq`). The text of the elements made so far is the text of the instructions carried
out so far, whatever nodes are open (`Builder.text_elements_run`). In the finished tree the tokens lie
side by side from the start of the text to its end (`Cursor.tiles_leaves`), and every element stands
where its tokens do (`Cursor.text_eq_join_leaves`).
-/

namespace Nesc

/-! ## The flat construction -/

/-- What all instructions come down to. -/
inductive Call where
  | start (kind : Kind)
  | token (kind : Kind) (text : String)
  | finish
deriving DecidableEq, Repr

/-- The calls that an instruction stands for. -/
def Step.calls : Step → List Call
  | .start k => [.start k]
  | .finish => [.finish]
  | .token k s => [.token k s]
  | .keyword s => [.token ((Kind.ofKeyword? s).getD .ident) s]
  | .whitespace s => [.token .whitespace s]
  | .space => [.token .whitespace " "]
  | .identifier n => [.start .identifier, .token .ident n, .finish]

/-- A tree under construction, kept in one list. -/
structure FlatBuilder where
  /-- All elements made so far and not yet gathered. -/
  elements : Forest := []
  /-- The open nodes, innermost first, each with the number of elements in front of it. -/
  marks : List (Kind × Nat) := []

namespace FlatBuilder

/-- Carry out one call. -/
def call (b : FlatBuilder) : Call → Except BuildError FlatBuilder
  | .start k => .ok { b with marks := (k, b.elements.length) :: b.marks }
  | .token k s => .ok { b with elements := b.elements ++ [.token k s] }
  | .finish =>
    match b.marks with
    | [] => .error .noOpenNode
    | (k, n) :: marks => .ok ⟨b.elements.take n ++ [.node k (b.elements.drop n)], marks⟩

/-- The tree that has been built: the one element, if it is a node. Open nodes do not matter. -/
def result (b : FlatBuilder) : Except BuildError Tree :=
  match b.elements with
  | [.node k ts] => .ok (.node k ts)
  | _ => .error .notOneNode

/-- The tree that a list of instructions builds. -/
def build (steps : List Step) : Except BuildError Tree := do
  (← (steps.flatMap Step.calls).foldlM call {}).result

/-- Closing a node gathers the elements behind its mark. -/
theorem call_finish (us vs : Forest) (k : Kind) (marks : List (Kind × Nat)) :
    call ⟨us ++ vs, (k, us.length) :: marks⟩ .finish = .ok ⟨us ++ [.node k vs], marks⟩ := by
  simp [call]

end FlatBuilder

namespace Builder

/-- The open nodes with the number of elements in front of each. -/
def marks : List Frame → List (Kind × Nat)
  | [] => []
  | f :: fs => (f.kind, (elements ⟨[], f :: fs⟩).length) :: marks fs

/-- A builder without what it keeps apart. -/
def flat (b : Builder) : FlatBuilder := ⟨b.elements, marks b.frames⟩

theorem flat_push (b : Builder) (t : Tree) :
    (b.push t).flat = ⟨b.elements ++ [t], marks b.frames⟩ := by
  simp [flat, elements, push]

/-- The elements split at the innermost mark into those in front of the node and those in it. -/
theorem flat_of_frames_cons {b : Builder} {f : Frame} {fs : List Frame} (h : b.frames = f :: fs) :
    b.flat = ⟨elements ⟨[], f :: fs⟩ ++ b.current,
      (f.kind, (elements ⟨[], f :: fs⟩).length) :: marks fs⟩ := by
  simp [flat, elements, marks, h]

/-- One instruction does to the flat view what its calls do to a flat construction. -/
theorem foldlM_calls_flat (b : Builder) (s : Step) :
    s.calls.foldlM FlatBuilder.call b.flat = (b.step s).map flat := by
  cases s with
  | start k =>
    have hopen : elements ⟨[], ⟨k, b.current⟩ :: b.frames⟩ = b.elements := by simp [elements]
    simp [Step.calls, FlatBuilder.call, step, Except.map, flat, marks, hopen]
  | finish =>
    cases hf : b.frames with
    | nil => simp [Step.calls, FlatBuilder.call, flat, marks, step, hf, Except.map]
    | cons f fs =>
      -- The gathered node stands where the elements of the frame were set aside.
      have hclosed : elements ⟨f.before ++ [.node f.kind b.current], fs⟩ =
          elements ⟨[], f :: fs⟩ ++ [.node f.kind b.current] := by
        simp [elements]
      rw [flat_of_frames_cons hf]
      simp [Step.calls, FlatBuilder.call_finish, step, hf, Except.map, flat, hclosed]
  | identifier n =>
    have hfinish := FlatBuilder.call_finish b.elements [.token .ident n] .identifier (marks b.frames)
    simp only [step, Except.map, flat_push]
    exact hfinish
  | _ => exact (congrArg Except.ok (flat_push b _)).symm

/-- A run of steps on nested frames is a run of calls on the flat list. -/
theorem foldlM_flat (b : Builder) (steps : List Step) :
    (steps.flatMap Step.calls).foldlM FlatBuilder.call b.flat =
      (steps.foldlM step b).map flat := by
  induction steps generalizing b with
  | nil => rfl
  | cons s steps ih =>
    rw [List.flatMap_cons, List.foldlM_append, foldlM_calls_flat, List.foldlM_cons]
    cases b.step s with
    | error e => rfl
    | ok c => exact ih c

end Builder

/-- Keeping the elements flat or apart makes no difference to what is built. -/
theorem FlatBuilder.build_eq (steps : List Step) : build steps = Tree.build steps := by
  have hflat := Builder.foldlM_flat {} steps
  change (steps.flatMap Step.calls).foldlM call {} = _ at hflat
  rw [build, Tree.build, hflat]
  cases steps.foldlM Builder.step {} with
  | error e => rfl
  | ok b => rfl

/-! ## The text of a construction -/

/-- After any run the text made so far is the one before and what the instructions added. -/
theorem Builder.text_elements_run {b b' : Builder} {steps : List Step}
    (h : steps.foldlM step b = .ok b') :
    Forest.text b'.elements = Forest.text b.elements ++ String.join (steps.map Step.text) := by
  induction steps generalizing b with
  | nil =>
    cases h
    simp
  | cons s steps ih =>
    rw [List.foldlM_cons] at h
    cases hs : b.step s with
    | error e =>
      rw [hs] at h
      cases h
    | ok c =>
      rw [hs] at h
      rw [ih h, text_elements_step hs, List.map_cons, String.join_cons, String.append_assoc]

theorem Builder.elements_of_result {b : Builder} {t : Tree} (h : b.result = .ok t) :
    b.elements = [t] := by
  unfold result at h
  split at h
  · next hb =>
    cases h
    exact hb
  · cases h

/-- The text of a tree that was built is that of the tokens, in the order they were given. -/
theorem Tree.text_build {steps : List Step} {t : Tree} (h : Tree.build steps = .ok t) :
    t.text = String.join (steps.map Step.text) := by
  rw [Tree.build] at h
  cases hb : steps.foldlM Builder.step {} with
  | error e =>
    rw [hb] at h
    cases h
  | ok b =>
    rw [hb] at h
    have htext := Builder.text_elements_run hb
    rw [Builder.elements_of_result h] at htext
    simpa [Forest.text, Builder.elements] using htext

/-! ## Tokens side by side -/

namespace Cursor

/-- Elements one after the other from `start` to `stop`: each begins where the one before it ends. -/
def Tiles : Nat → List Cursor → Nat → Prop
  | start, [], stop => start = stop
  | start, c :: cs, stop => c.start = start ∧ Tiles c.stop cs stop

theorem Tiles.append {start middle stop : Nat} {cs ds : List Cursor} (hc : Tiles start cs middle)
    (hd : Tiles middle ds stop) : Tiles start (cs ++ ds) stop := by
  induction cs generalizing start with
  | nil => exact hc ▸ hd
  | cons c cs ih => exact ⟨hc.1, ih hc.2⟩

/-- The tokens of a row tile it, tree by tree. -/
theorem tiles_row {ts : Forest}
    (h : ∀ t ∈ ts, ∀ path start, Tiles start (leaves ⟨path, start, t⟩) (start + t.width))
    (path : List Nat) (i start : Nat) :
    Tiles start ((row path i start ts).flatMap leaves) (start + Forest.width ts) := by
  induction ts generalizing i start with
  | nil => rfl
  | cons t ts ih =>
    rw [List.forall_mem_cons] at h
    have htail := ih h.2 (i + 1) (start + t.width)
    rw [Nat.add_assoc] at htail
    exact (h.1 (path ++ [i]) start).append htail

/-- The tokens of an element tile its range. -/
theorem tiles_leaves (c : Cursor) : Tiles c.start c.leaves c.stop := by
  obtain ⟨path, start, t⟩ := c
  induction t using Tree.induction generalizing path start with
  | token k s => exact ⟨rfl, rfl⟩
  | node k ts ih =>
    rw [leaves_of_isNode rfl]
    exact tiles_row ih path 0 start

theorem map_text_leaves_row {ts : Forest}
    (h : ∀ t ∈ ts, ∀ path start, (leaves ⟨path, start, t⟩).map text = t.tokenTexts)
    (path : List Nat) (i start : Nat) :
    ((row path i start ts).flatMap leaves).map text = Forest.tokenTexts ts := by
  induction ts generalizing i start with
  | nil => rfl
  | cons t ts ih =>
    rw [List.forall_mem_cons] at h
    rw [row, List.flatMap_cons, List.map_append, h.1, ih h.2, Forest.tokenTexts]

theorem map_text_leaves (c : Cursor) : c.leaves.map text = c.tree.tokenTexts := by
  obtain ⟨path, start, t⟩ := c
  induction t using Tree.induction generalizing path start with
  | token k s => rfl
  | node k ts ih =>
    rw [leaves_of_isNode rfl]
    exact map_text_leaves_row ih path 0 start

theorem text_eq_join_leaves (c : Cursor) : c.text = String.join (c.leaves.map text) := by
  rw [map_text_leaves, ← Tree.text_eq_join_tokens]
  rfl

end Cursor

/-- If instructions build a tree, then so do their calls in a flat construction. The text of the tree
is what the instructions add, in their order. Its tokens, in document order, lie side by side from the
start of the text to its end, and the bytes at the range of an element are the texts of the tokens in
it, one after the other: for a token, its own. If offsets of 32 bits can address the text, they can
address every range. -/
theorem Tree.build_lossless {steps : List Step} {t : Tree} (h : Tree.build steps = .ok t)
    (hsize : (String.join (steps.map Step.text)).utf8ByteSize < UInt32.size) :
    FlatBuilder.build steps = .ok t ∧
    t.text = String.join (steps.map Step.text) ∧
    Cursor.Tiles 0 (Cursor.root t).leaves t.text.utf8ByteSize ∧
    ∀ d ∈ (Cursor.root t).elements,
      d.range.stop < UInt32.size ∧
      d.range.slice (Text.bytes t.text) = Text.bytes (String.join (d.leaves.map Cursor.text)) ∧
      ∀ k s, d.tree = .token k s → d.range.slice (Text.bytes t.text) = Text.bytes s := by
  have htext := text_build h
  have hwidth : t.width = t.text.utf8ByteSize := t.width_eq
  refine ⟨(FlatBuilder.build_eq steps).trans h, htext, ?_, fun d hd => ⟨?_, ?_, ?_⟩⟩
  · have htiles := Cursor.tiles_leaves (Cursor.root t)
    rwa [Cursor.stop, Cursor.root, Nat.zero_add, hwidth] at htiles
  · have hstop : d.stop ≤ 0 + t.width := (Cursor.elements_bounds hd).2
    rw [Cursor.stop_range]
    rw [← htext] at hsize
    omega
  · rw [Cursor.slice_range hd, ← Cursor.text_eq_join_leaves]
  · intro k s htoken
    rw [Cursor.slice_range hd, Cursor.text, htoken, text]

/-- A name without text, a word that is no keyword, and a node that is never closed. -/
theorem Tree.build_lossless_openNode :
    let steps : List Step := [.start .sourceFile, .start .component, .keyword "module", .space,
      .identifier "", .keyword "é", .finish]
    let t : Tree := .node .component [.token .moduleKw "module", .space, .identifier "",
      .token .ident "é"]
    Tree.build steps = .ok t ∧ (String.join (steps.map Step.text)).utf8ByteSize < UInt32.size ∧
      t.text = "module é" ∧ Cursor.Tiles 0 (Cursor.root t).leaves 9 := by
  intro steps t
  have hbuild : Tree.build steps = .ok t := by rfl
  have hsize : (String.join (steps.map Step.text)).utf8ByteSize < UInt32.size := by decide +kernel
  obtain ⟨-, htext, htiles, -⟩ := Tree.build_lossless hbuild hsize
  have hjoin : String.join (steps.map Step.text) = "module é" := by decide +kernel
  rw [hjoin] at htext
  rw [htext] at htiles
  exact ⟨hbuild, hsize, htext, htiles⟩

end Nesc
