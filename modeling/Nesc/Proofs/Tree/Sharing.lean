import Mathlib.Data.List.Pairwise
import Nesc.Proofs.Tree.Building
import Nesc.Proofs.Tree.Storage

/-!
# Building on a heap

The elements of a tree under construction can be kept on a heap: the list of elements then has
references, and a node that is closed is shared if it has at most three children and each of them says
that a node above it may be shared (`SharingBuilder`). Every construction can be carried out in this
way, and the heap then holds the tree that is built (`SharingBuilder.build_of_build`).

A view of the stored tree gives out handles, each an address with an offset. Two handles are equal
exactly if their cursors are the same (`StoredTree.Stores.handle_eq_iff_same`): sharing makes elements the
same in those cases that `Cursor.Same` lists, and in no others.
-/

namespace Nesc

/-! ## The construction -/

/-- An element made so far: where it is stored, and whether a node above it may still be shared. -/
structure Ref where
  address : Nat
  compact : Bool

/-- A tree under construction on a heap. -/
structure SharingBuilder where
  heap : Heap := {}
  /-- All elements made so far and not yet gathered. -/
  elements : List Ref := []
  /-- The open nodes, innermost first, each with the number of elements in front of it. -/
  marks : List (Kind × Nat) := []

/-- A tree on a heap, by the address of its root. -/
structure StoredTree where
  heap : Heap
  root : Nat

/-- The stored tree is `t`, and only what is stored once is shared. -/
structure StoredTree.Stores (s : StoredTree) (t : Tree) : Prop where
  sound : s.heap.Sound
  holds : s.heap.Holds t s.root
  repeats : s.heap.RepeatsShared (s.heap.addresses s.root t)

namespace SharingBuilder

/-- Carry out one call. -/
def call (b : SharingBuilder) : Call → Except BuildError SharingBuilder
  | .start k => .ok { b with marks := (k, b.elements.length) :: b.marks }
  | .token k s =>
    let (heap, i) := b.heap.put true (.token k s)
    .ok { b with heap, elements := b.elements ++ [⟨i, true⟩] }
  | .finish =>
    match b.marks with
    | [] => .error .noOpenNode
    | (k, n) :: marks =>
      let below := b.elements.drop n
      let addresses := below.map Ref.address
      let once := below.length ≤ 3 && below.all Ref.compact
      let (heap, i) := b.heap.put once (.node k (b.heap.widthAll addresses) addresses)
      let compact := once && !(k == .whitespace && below.isEmpty)
      .ok ⟨heap, b.elements.take n ++ [⟨i, compact⟩], marks⟩

/-- The tree that has been built: the one element, if it is a node. Open nodes do not matter. -/
def result (b : SharingBuilder) : Except BuildError StoredTree :=
  match b.elements with
  | [e] =>
    match b.heap.cells[e.address]? with
    | some (.node ..) => .ok ⟨b.heap, e.address⟩
    | _ => .error .notOneNode
  | _ => .error .notOneNode

/-- The stored tree that a list of instructions builds. -/
def build (steps : List Step) : Except BuildError StoredTree := do
  (← (steps.flatMap Step.calls).foldlM call {}).result

end SharingBuilder

/-! ## The heap against the flat construction -/

namespace Heap

/-- The reference is to the tree, and says whether a node above the tree may be shared. -/
def Refers (σ : Heap) (t : Tree) (e : Ref) : Prop :=
  σ.Holds t e.address ∧ e.compact = t.isCompact

variable {σ : Heap} {ts : Forest} {es : List Ref}

theorem holds_of_refers (h : List.Forall₂ σ.Refers ts es) :
    List.Forall₂ σ.Holds ts (es.map Ref.address) :=
  List.forall₂_map_right_iff.mpr (h.imp fun _ _ he => he.1)

/-- References tell whether a node over them is stored once. -/
theorem isStoredOnce_of_refers (h : List.Forall₂ σ.Refers ts es) (k : Kind) :
    (decide (es.length ≤ 3) && es.all Ref.compact) = (Tree.node k ts).isStoredOnce := by
  have hcompact : es.all Ref.compact = Forest.isCompact ts := by
    induction h with
    | nil => rfl
    | cons he _ ih => rw [List.all_cons, Forest.isCompact, he.2, ih]
  rw [Tree.isStoredOnce, hcompact, h.length_eq]

end Heap

/-- The heap has what the flat construction has, and only shared addresses occur twice. -/
structure SharingBuilder.Keeps (b : SharingBuilder) (f : FlatBuilder) : Prop where
  sound : b.heap.Sound
  marks : b.marks = f.marks
  elements : List.Forall₂ b.heap.Refers f.elements b.elements
  repeats : b.heap.RepeatsShared
    (b.heap.addressesAll (b.elements.map Ref.address) f.elements)

namespace SharingBuilder.Keeps

variable {b : SharingBuilder} {f : FlatBuilder}

theorem empty : Keeps {} {} where
  sound := .empty
  marks := rfl
  elements := .nil
  repeats := .nil

/-- The last elements are gathered into one tree, whose cell is put on the heap. A token gathers
none. -/
theorem put (h : b.Keeps f) {t : Tree} {c : Cell} {us : Forest} {ds es : List Ref}
    (hf : f.elements = us ++ t.children) (hb : b.elements = ds ++ es)
    (hlength : us.length = ds.length) (hc : b.heap.Describes c t)
    (hes : c.children = es.map Ref.address) (marks : List (Kind × Nat)) :
    let result := b.heap.put t.isStoredOnce c
    Keeps ⟨result.1, ds ++ [⟨result.2, t.isCompact⟩], marks⟩ ⟨us ++ [t], marks⟩ := by
  intro result
  obtain ⟨hsound, hgrow, hcell, hnew⟩ := h.sound.put hc
  change result.1.Sound at hsound
  have hall := h.elements
  have hrepeats := h.repeats
  have hholds := Heap.holds_of_refers hall
  rw [hf, hb] at hall hrepeats hholds
  have hus : List.Forall₂ b.heap.Refers us ds := by
    have htake := List.forall₂_take us.length hall
    rwa [List.take_left, hlength, List.take_left] at htake
  have ht : result.1.Holds t result.2 := Heap.holds_iff.mpr ⟨c, hcell, hc.mono hgrow⟩
  refine ⟨hsound, rfl, ?_, ?_⟩
  · refine List.rel_append (hus.imp fun u e he => ⟨he.1.mono hgrow, he.2⟩) ?_
    exact .cons ⟨ht, rfl⟩ .nil
  · -- The new address comes in between those in front of the tree and those of its parts.
    have hbound := Heap.lt_of_mem_addressesAll hholds
    rw [List.map_append, ← hes, Heap.addressesAll_append (by simpa using hlength)] at hrepeats hbound
    rw [List.map_append, List.map_singleton,
      Heap.addressesAll_put hgrow hc hcell (Heap.holds_of_refers hus)]
    refine (hrepeats.mono hgrow).insert fun hmem => ?_
    by_cases honce : t.isStoredOnce = true
    · exact ⟨t, ht, honce⟩
    · exact absurd (hnew (eq_false_of_ne_true honce) ▸ hbound _ hmem) (Nat.lt_irrefl _)

/-- A call that the flat construction can carry out can be carried out on the heap. -/
theorem call (h : b.Keeps f) {c : Call} {f' : FlatBuilder} (hf : f.call c = .ok f') :
    ∃ b', b.call c = .ok b' ∧ b'.Keeps f' := by
  obtain ⟨σ, es, marks⟩ := b
  obtain ⟨ts, marks'⟩ := f
  obtain rfl : marks = marks' := h.marks
  have hlength : ts.length = es.length := h.elements.length_eq
  cases c with
  | start k =>
    cases hf
    exact ⟨_, rfl, h.sound, by rw [hlength], h.elements, h.repeats⟩
  | token k s =>
    cases hf
    have hput := h.put (t := .token k s) (c := .token k s) (List.append_nil ts).symm
      (List.append_nil es).symm hlength rfl rfl marks
    exact ⟨_, rfl, hput⟩
  | finish =>
    cases marks with
    | nil => cases hf
    | cons mark marks =>
      obtain ⟨k, n⟩ := mark
      cases hf
      have hbelow := List.forall₂_drop n h.elements
      have hholds := Heap.holds_of_refers hbelow
      have hcell : σ.Describes (.node k _ _) (.node k (ts.drop n)) :=
        ⟨_, rfl, Heap.widthAll_eq hholds, hholds⟩
      have hput := h.put (List.take_append_drop n ts).symm (List.take_append_drop n es).symm
        (by simp [hlength]) hcell rfl marks
      rw [Tree.isCompact_node, ← Heap.isStoredOnce_of_refers hbelow] at hput
      have hempty : (ts.drop n).isEmpty = (es.drop n).isEmpty := by
        rw [Bool.eq_iff_iff, List.isEmpty_iff_length_eq_zero, List.isEmpty_iff_length_eq_zero,
          hbelow.length_eq]
      exact ⟨_, rfl, hempty ▸ hput⟩

/-- After any run the heap has what the flat construction has. -/
theorem run (h : b.Keeps f) {calls : List Call} {f' : FlatBuilder}
    (hf : calls.foldlM FlatBuilder.call f = .ok f') :
    ∃ b', calls.foldlM SharingBuilder.call b = .ok b' ∧ b'.Keeps f' := by
  induction calls generalizing b f with
  | nil =>
    cases hf
    exact ⟨b, rfl, h⟩
  | cons c calls ih =>
    rw [List.foldlM_cons] at hf
    cases hc : f.call c with
    | error e =>
      rw [hc] at hf
      cases hf
    | ok g =>
      rw [hc] at hf
      obtain ⟨b', hb', hkeeps⟩ := h.call hc
      rw [List.foldlM_cons, hb']
      exact ih hkeeps hf

/-- If the builder of trees ends with a tree, so does the builder on the heap, and it stores that
tree. -/
theorem result (h : b.Keeps f) {t : Tree} (hf : f.result = .ok t) :
    ∃ s, b.result = .ok s ∧ s.Stores t := by
  obtain ⟨σ, es, marks⟩ := b
  unfold FlatBuilder.result at hf
  split at hf
  next k ts hts =>
    cases hf
    have hall := h.elements
    have hrepeats := h.repeats
    rw [hts] at hall hrepeats
    obtain ⟨e, _, he, hnil, rfl⟩ := List.forall₂_cons_left_iff.mp hall
    cases hnil
    obtain ⟨is, hcell, -⟩ := he.1
    refine ⟨⟨σ, e.address⟩, ?_, h.sound, he.1, ?_⟩
    · simp only [SharingBuilder.result]
      rw [hcell]
    · simpa [Heap.addressesAll] using hrepeats
  next => cases hf

end SharingBuilder.Keeps

/-- What instructions build is built on the heap as well. -/
theorem SharingBuilder.build_of_build {steps : List Step} {t : Tree} (h : Tree.build steps = .ok t) :
    ∃ s, SharingBuilder.build steps = .ok s ∧ s.Stores t := by
  rw [← FlatBuilder.build_eq, FlatBuilder.build] at h
  cases hf : (steps.flatMap Step.calls).foldlM FlatBuilder.call {} with
  | error e =>
    rw [hf] at h
    cases h
  | ok f =>
    rw [hf] at h
    obtain ⟨b, hb, hkeeps⟩ := Keeps.empty.run hf
    obtain ⟨s, hs, hstores⟩ := hkeeps.result h
    refine ⟨s, ?_, hstores⟩
    rw [SharingBuilder.build, hb]
    exact hs

/-! ## Views -/

/-- An element as a view gives it out: where it is stored and where its text starts. -/
structure Handle where
  address : Nat
  start : Nat
deriving DecidableEq, Repr

namespace Heap

/-- The handle of the element right below with index `n`, behind the text of those in front of it. -/
def child? (σ : Heap) (g : Handle) (n : Nat) : Option Handle :=
  (σ.children g.address)[n]?.map fun i =>
    ⟨i, g.start + σ.widthAll ((σ.children g.address).take n)⟩

/-- The handle that child indices lead to. -/
def at? (σ : Heap) (g : Handle) : List Nat → Option Handle
  | [] => some g
  | n :: path => (σ.child? g n).bind fun g' => σ.at? g' path

/-- The address that child indices lead to. -/
def address? (σ : Heap) (g : Handle) (path : List Nat) : Option Nat :=
  (σ.at? g path).map Handle.address

end Heap

/-- A view of a stored tree, by the handle of its root. -/
def StoredTree.view (s : StoredTree) : Handle := ⟨s.root, 0⟩

namespace Heap

variable {σ : Heap} {t : Tree} {g : Handle} {i r : Nat}

theorem at?_append (p q : List Nat) :
    σ.at? g (p ++ q) = (σ.at? g p).bind fun g' => σ.at? g' q := by
  induction p generalizing g with
  | nil => rfl
  | cons n p ih =>
    simp only [List.cons_append, at?]
    cases σ.child? g n with
    | none => rfl
    | some g' => simp [ih]

theorem at?_concat {g' : Handle} {path : List Nat} {n j : Nat} {js : List Nat}
    (hg : σ.at? g path = some g') (hj : (σ.children g'.address).drop n = j :: js) :
    σ.at? g (path ++ [n]) =
      some ⟨j, g'.start + σ.widthAll ((σ.children g'.address).take n)⟩ := by
  have hget : (σ.children g'.address)[n]? = some j := by
    rw [← List.head?_drop, hj, List.head?_cons]
  simp [at?_append, hg, at?, child?, hget]

/-- The path of an element of a stored tree leads to a handle with its offset, at an address that holds
it. -/
theorem exists_handle (h : σ.Holds t r) {d : Cursor} (hd : d ∈ (Cursor.root t).elements) :
    ∃ i, σ.at? ⟨r, 0⟩ d.path = some ⟨i, d.start⟩ ∧ σ.Holds d.tree i := by
  refine Cursor.elements_induction hd ⟨r, rfl, h⟩ fun e f _ he hf => ?_
  obtain ⟨i, hi, hold⟩ := he
  obtain ⟨us, vs, hts, hpath, hstart⟩ := Cursor.exists_split_of_mem_row hf
  have hall := hold.children
  rw [hts] at hall
  have hfront := List.forall₂_take us.length hall
  have hbehind := List.forall₂_drop us.length hall
  rw [List.take_left] at hfront
  rw [List.drop_left] at hbehind
  obtain ⟨j, js, hj, -, hjs⟩ := List.forall₂_cons_left_iff.mp hbehind
  refine ⟨j, ?_, hj⟩
  rw [hpath, Nat.zero_add, at?_concat hi hjs, widthAll_eq hfront, hstart]

/-- If the tree is found at `i` by a path from `g`, then the paths of its elements lead from `g` to the
addresses of its parts. -/
def Lists (σ : Heap) (g : Handle) (t : Tree) (i : Nat) : Prop :=
  ∀ path start offset, σ.at? g path = some ⟨i, offset⟩ →
    (Cursor.elements ⟨path, start, t⟩).map (fun d => σ.address? g d.path) =
      (σ.addresses i t).map some

/-- Walking the children of a handle visits the addresses of the forest, in order. -/
theorem lists_row {path : List Nat} {n start offset : Nat} {ts : Forest} {is : List Nat}
    (h : List.Forall₂ (σ.Lists g) ts is) (hi : σ.at? g path = some ⟨i, offset⟩)
    (his : (σ.children i).drop n = is) :
    ((Cursor.row path n start ts).flatMap Cursor.elements).map (fun d => σ.address? g d.path) =
      (σ.addressesAll is ts).map some := by
  induction h generalizing n start with
  | nil => rfl
  | @cons t j ts js ht _ ih =>
    have htail : (σ.children i).drop (n + 1) = js := by rw [← List.tail_drop, his, List.tail_cons]
    rw [Cursor.row, List.flatMap_cons, List.map_append, addressesAll, List.map_append,
      ht _ _ _ (at?_concat hi his), ih htail]

/-- Walking down from a handle visits the addresses of the tree that it holds. -/
theorem Holds.lists (h : σ.Holds t i) : σ.Lists g t i := by
  refine h.induction fun t i _ hall path start offset hi => ?_
  have hself : σ.address? g path = some i := by rw [address?, hi, Option.map_some]
  rw [Cursor.elements_eq, addresses_eq, List.map_cons, List.map_cons, hself]
  exact congrArg _ (lists_row (hall.imp fun _ _ hu => hu.1) hi rfl)

/-- An address that is found at both cursors is shared. -/
def MeetShared (σ : Heap) (g : Handle) (a b : Cursor) : Prop :=
  ∀ i, σ.address? g a.path = some i → σ.address? g b.path = some i → σ.Shared i

instance : Std.Symm (σ.MeetShared g) where
  symm _ _ h i hb ha := h i ha hb

/-- An address that two elements of the tree share is that of a tree stored once. -/
theorem RepeatsShared.pairwise (h : σ.RepeatsShared (σ.addresses r t)) (ht : σ.Holds t r) :
    (Cursor.root t).elements.Pairwise (σ.MeetShared ⟨r, 0⟩) := by
  have hpair : ((σ.addresses r t).map some).Pairwise fun x y =>
      ∀ i, x = some i → y = some i → σ.Shared i := by
    rw [List.pairwise_map]
    refine List.Pairwise.imp (fun hij k hi hj => ?_) h
    cases hi
    exact hij (Option.some.inj hj).symm
  rw [← ht.lists [] 0 0 rfl, List.pairwise_map] at hpair
  exact hpair

end Heap

/-- At the paths of two elements there are handles, and they are equal exactly if the elements are the
same. -/
theorem StoredTree.Stores.handle_eq_iff_same {s : StoredTree} {t : Tree} (h : s.Stores t)
    {a b : Cursor} (ha : a ∈ (Cursor.root t).elements) (hb : b ∈ (Cursor.root t).elements) :
    ∃ g g', s.heap.at? s.view a.path = some g ∧ s.heap.at? s.view b.path = some g' ∧
      (g = g' ↔ a.Same b) := by
  obtain ⟨i, hi, hai⟩ := Heap.exists_handle h.holds ha
  obtain ⟨j, hj, hbj⟩ := Heap.exists_handle h.holds hb
  refine ⟨_, _, hi, hj, ?_⟩
  constructor
  · intro hg
    obtain ⟨rfl, hstart⟩ := Handle.mk.inj hg
    by_cases hab : a = b
    · exact .inl hab
    · have haddress : s.heap.address? s.view a.path = some i := congrArg (Option.map _) hi
      have haddress' : s.heap.address? s.view b.path = some i := congrArg (Option.map _) hj
      obtain ⟨u, hu, honce⟩ :=
        (h.repeats.pairwise h.holds).forall ha hb hab i haddress haddress'
      exact .inr ⟨hstart, hai.unique hbj, hu.unique hai ▸ honce⟩
  · rintro (rfl | ⟨hstart, htree, honce⟩)
    · exact Option.some.inj (hi.symm.trans hj)
    · rw [h.sound.once honce hai (htree ▸ hbj), hstart]

end Nesc
