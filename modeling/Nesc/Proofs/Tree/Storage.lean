import Mathlib.Data.List.Forall2
import Nesc.Proofs.Tree.Places

/-!
# Storage with sharing

Trees are stored as cells on a heap; the cell of a node has the addresses of its children
(`Heap.Holds`). A heap only grows, so what is stored stays where it is (`Heap.Holds.mono`), and an
address holds one tree (`Heap.Holds.unique`). A cell can be added anew, or shared: then an equal cell
that is stored already takes its place (`Heap.put`).

If exactly the cells of trees that are stored once are shared, then such a tree has one address on the
whole heap (`Heap.Sound`, `Heap.Sound.put`). All other trees get a new address each time they are
stored, so that an address which occurs twice among those of a tree and its parts is shared
(`Heap.RepeatsShared`, `Heap.RepeatsShared.insert`).
-/

namespace Nesc

/-- A stored element: a token, or a node with its width and the addresses of the elements right below
it. -/
inductive Cell where
  | token (kind : Kind) (text : String)
  | node (kind : Kind) (width : Nat) (children : List Nat)
deriving DecidableEq, Repr

def Cell.width : Cell → Nat
  | .token _ s => s.utf8ByteSize
  | .node _ w _ => w

def Cell.children : Cell → List Nat
  | .token .. => []
  | .node _ _ is => is

/-- All stored elements; the address of an element is its index. -/
structure Heap where
  cells : List Cell := []
deriving Repr

/-! ## What is compact -/

theorem Forest.isCompact_iff {ts : Forest} :
    Forest.isCompact ts = true ↔ ∀ t ∈ ts, t.isCompact = true := by
  induction ts with
  | nil => simp [Forest.isCompact]
  | cons t ts ih => simp [Forest.isCompact, ih]

theorem Tree.isCompact_node (k : Kind) (ts : Forest) :
    (Tree.node k ts).isCompact =
      ((Tree.node k ts).isStoredOnce && !(k == .whitespace && ts.isEmpty)) := by
  rw [Tree.isCompact, Tree.isStoredOnce]

/-- What does not keep a parent from being stored once is stored once itself. -/
theorem Tree.isStoredOnce_of_isCompact {t : Tree} (h : t.isCompact = true) :
    t.isStoredOnce = true := by
  cases t with
  | token k s => rfl
  | node k ts =>
    rw [isCompact_node, Bool.and_eq_true] at h
    exact h.1

theorem Tree.isStoredOnce_of_mem {k : Kind} {ts : Forest} (h : (Tree.node k ts).isStoredOnce = true)
    {t : Tree} (ht : t ∈ ts) : t.isStoredOnce = true := by
  rw [isStoredOnce, Bool.and_eq_true] at h
  exact isStoredOnce_of_isCompact (Forest.isCompact_iff.mp h.2 t ht)

theorem forall₂_left_unique {α β : Type} {R S : α → β → Prop} {xs ys : List α} {zs : List β}
    (hx : List.Forall₂ R xs zs) (hy : List.Forall₂ S ys zs)
    (h : ∀ x y z, R x z → S y z → x = y) : xs = ys := by
  induction hx generalizing ys with
  | nil =>
    cases hy
    rfl
  | cons hxz _ ih =>
    cases hy with
    | cons hyz hy => rw [h _ _ _ hxz hyz, ih hy]

namespace Heap

/-! ## Storing -/

/-- Store a cell at a new address. -/
def add (σ : Heap) (c : Cell) : Heap × Nat := (⟨σ.cells ++ [c]⟩, σ.cells.length)

/-- Find a cell that is stored, or else store it. -/
def share (σ : Heap) (c : Cell) : Heap × Nat :=
  -- All cells are searched, although not all can be found: a cell that was added anew has more
  -- children than a cell that is looked for, or one that does not allow sharing.
  match σ.cells.idxOf? c with
  | some i => (σ, i)
  | none => σ.add c

/-- Store a cell: shared with an equal one, or anew. -/
def put (σ : Heap) (once : Bool) (c : Cell) : Heap × Nat := if once then σ.share c else σ.add c

/-- The addresses right below an address. -/
def children (σ : Heap) (i : Nat) : List Nat := (σ.cells[i]?.map Cell.children).getD []

/-- The number of bytes of the text stored at an address. -/
def width (σ : Heap) (i : Nat) : Nat := (σ.cells[i]?.map Cell.width).getD 0

/-- The number of bytes of the texts stored at several addresses. -/
def widthAll (σ : Heap) : List Nat → Nat
  | [] => 0
  | i :: is => σ.width i + σ.widthAll is

variable {σ τ : Heap} {t u : Tree} {c d : Cell} {i j : Nat}

theorem children_of_cell (h : σ.cells[i]? = some c) : σ.children i = c.children := by
  simp [children, h]

/-! ## What an address holds -/

mutual

/-- The tree is stored at the address. -/
def Holds (σ : Heap) : Tree → Nat → Prop
  | .token k s, i => σ.cells[i]? = some (.token k s)
  | .node k ts, i =>
    ∃ is, σ.cells[i]? = some (.node k (Forest.width ts) is) ∧ HoldsAll σ ts is

/-- The trees are stored at the addresses, one by one. -/
def HoldsAll (σ : Heap) : Forest → List Nat → Prop
  | [], is => is = []
  | t :: ts, is => ∃ i js, is = i :: js ∧ Holds σ t i ∧ HoldsAll σ ts js

end

theorem holdsAll_iff {ts : Forest} {is : List Nat} :
    σ.HoldsAll ts is ↔ List.Forall₂ σ.Holds ts is := by
  induction ts generalizing is with
  | nil => simp [HoldsAll]
  | cons t ts ih => cases is <;> simp [HoldsAll, ih]

/-- The cell is that of the tree. -/
def Describes (σ : Heap) : Cell → Tree → Prop
  | .token k s, t => t = .token k s
  | .node k w is, t => ∃ ts, t = .node k ts ∧ w = Forest.width ts ∧ List.Forall₂ σ.Holds ts is

/-- A heap holds a tree at an address exactly if the cell there describes it. -/
theorem holds_iff : σ.Holds t i ↔ ∃ c, σ.cells[i]? = some c ∧ σ.Describes c t := by
  constructor
  · intro h
    cases t with
    | token k s => exact ⟨_, h, rfl⟩
    | node k ts =>
      obtain ⟨is, hcell, hall⟩ := h
      exact ⟨_, hcell, ts, rfl, rfl, holdsAll_iff.mp hall⟩
  · rintro ⟨c, hcell, hc⟩
    cases c with
    | token k s =>
      cases hc
      exact hcell
    | node k w is =>
      obtain ⟨ts, rfl, rfl, hall⟩ := hc
      exact ⟨is, hcell, holdsAll_iff.mpr hall⟩

theorem Describes.children (h : σ.Describes c t) : List.Forall₂ σ.Holds t.children c.children := by
  cases c with
  | token k s =>
    cases h
    exact .nil
  | node k w is =>
    obtain ⟨ts, rfl, -, hall⟩ := h
    exact hall

theorem Describes.width (h : σ.Describes c t) : c.width = t.width := by
  cases c with
  | token k s =>
    cases h
    rfl
  | node k w is =>
    obtain ⟨ts, rfl, rfl, -⟩ := h
    rfl

theorem Holds.children (h : σ.Holds t i) : List.Forall₂ σ.Holds t.children (σ.children i) := by
  obtain ⟨c, hcell, hc⟩ := holds_iff.mp h
  rw [children_of_cell hcell]
  exact hc.children

/-- What holds of a stored tree whenever it holds of its children holds of all stored trees. -/
@[elab_as_elim]
theorem Holds.induction {motive : Tree → Nat → Prop} (h : σ.Holds t i)
    (step : ∀ t i, σ.Holds t i →
      List.Forall₂ (fun u j => motive u j ∧ σ.Holds u j) t.children (σ.children i) → motive t i) :
    motive t i := by
  induction t using Tree.induction generalizing i with
  | token k s =>
    have hnone : σ.children i = [] := children_of_cell h
    exact step _ i h (hnone ▸ .nil)
  | node k ts ih =>
    have hall := (List.forall₂_and_left ..).mpr ⟨ih, h.children⟩
    exact step _ i h (hall.imp fun u j ⟨hu, huj⟩ => ⟨hu huj, huj⟩)

theorem Holds.width (h : σ.Holds t i) : σ.width i = t.width := by
  obtain ⟨c, hcell, hc⟩ := holds_iff.mp h
  rw [Heap.width, hcell, Option.map_some, Option.getD_some, hc.width]

theorem widthAll_eq {ts : Forest} {is : List Nat} (h : List.Forall₂ σ.Holds ts is) :
    σ.widthAll is = Forest.width ts := by
  induction h with
  | nil => rfl
  | cons ht _ ih => rw [widthAll, ht.width, ih, Forest.width]

theorem Holds.lt (h : σ.Holds t i) : i < σ.cells.length := by
  obtain ⟨c, hcell, -⟩ := holds_iff.mp h
  exact (List.getElem?_eq_some_iff.mp hcell).1

/-- An address holds one tree. -/
theorem Holds.unique (h : σ.Holds t i) (h' : σ.Holds u i) : t = u := by
  induction t using Tree.induction generalizing u i with
  | token k s =>
    obtain ⟨c, hcell, hc⟩ := holds_iff.mp h'
    cases Option.some.inj (h.symm.trans hcell)
    exact hc.symm
  | node k ts ih =>
    obtain ⟨is, hcell, hts⟩ := h
    obtain ⟨c, hcell', hc⟩ := holds_iff.mp h'
    cases Option.some.inj (hcell.symm.trans hcell')
    obtain ⟨us, rfl, -, hus⟩ := hc
    have hts := (List.forall₂_and_left ..).mpr ⟨ih, holdsAll_iff.mp hts⟩
    rw [forall₂_left_unique hts hus fun t u j ht hu => ht.1 ht.2 hu]

/-- All cells of the one heap are on the other, at their addresses. -/
def GrowsTo (σ τ : Heap) : Prop := ∀ ⦃i : Nat⦄ ⦃c : Cell⦄,
  σ.cells[i]? = some c → τ.cells[i]? = some c

theorem growsTo_add (σ : Heap) (c : Cell) : σ.GrowsTo (σ.add c).1 := by
  intro i d h
  obtain ⟨hi, -⟩ := List.getElem?_eq_some_iff.mp h
  rw [add, List.getElem?_append_left hi, h]

/-- What is stored stays where it is when the heap grows. -/
theorem Holds.mono (hστ : σ.GrowsTo τ) (h : σ.Holds t i) : τ.Holds t i := by
  induction t using Tree.induction generalizing i with
  | token k s => exact hστ h
  | node k ts ih =>
    obtain ⟨is, hcell, hall⟩ := h
    refine ⟨is, hστ hcell, ?_⟩
    rw [holdsAll_iff] at hall ⊢
    exact ((List.forall₂_and_left ..).mpr ⟨ih, hall⟩).imp fun t j ⟨ht, htj⟩ => ht htj

theorem Describes.mono (hστ : σ.GrowsTo τ) (h : σ.Describes c t) : τ.Describes c t := by
  cases c with
  | token k s => exact h
  | node k w is =>
    obtain ⟨ts, rfl, rfl, hall⟩ := h
    exact ⟨ts, rfl, rfl, hall.imp fun t j ht => ht.mono hστ⟩

/-! ## One address for what is stored once -/

/-- Every address holds a tree, and a tree that is stored once has one address. -/
structure Sound (σ : Heap) : Prop where
  filled : ∀ {i}, i < σ.cells.length → ∃ t, σ.Holds t i
  once : ∀ {t i j}, t.isStoredOnce = true → σ.Holds t i → σ.Holds t j → i = j

namespace Sound

theorem empty : Sound {} where
  filled h := absurd h (Nat.not_lt_zero _)
  once _ h _ := absurd h.lt (Nat.not_lt_zero _)

/-- An old address holds on a grown heap what it held before. -/
theorem holds_of_growsTo (hσ : σ.Sound) (hστ : σ.GrowsTo τ) (hi : i < σ.cells.length)
    (h : τ.Holds t i) : σ.Holds t i := by
  obtain ⟨u, hu⟩ := hσ.filled hi
  rw [h.unique (hu.mono hστ)]
  exact hu

/-- The cell of a tree that is stored once is determined by the tree. -/
theorem cell_unique (hσ : σ.Sound) (ht : t.isStoredOnce = true) (hc : σ.Describes c t)
    (hd : σ.Describes d t) : c = d := by
  cases t with
  | token k s =>
    cases c <;> cases d <;> simp_all [Describes]
  | node k ts =>
    have hright : Relator.RightUnique fun t i => t.isStoredOnce = true ∧ σ.Holds t i :=
      fun t i j hi hj => hσ.once hi.1 hi.2 hj.2
    cases c with
    | token => cases hc
    | node k' w is =>
      cases d with
      | token => cases hd
      | node k'' w' js =>
        obtain ⟨_, hk, rfl, his⟩ := hc
        obtain ⟨_, hk', rfl, hjs⟩ := hd
        cases hk
        cases hk'
        have honce := fun t => Tree.isStoredOnce_of_mem ht (t := t)
        rw [List.right_unique_forall₂' hright ((List.forall₂_and_left ..).mpr ⟨honce, his⟩)
          ((List.forall₂_and_left ..).mpr ⟨honce, hjs⟩)]

/-- A cell can be added if it is not that of a tree stored once, or is not there yet. -/
theorem add (hσ : σ.Sound) (hc : σ.Describes c t)
    (hnew : t.isStoredOnce = true → c ∉ σ.cells) : (σ.add c).1.Sound := by
  have hgrow := σ.growsTo_add c
  have hlast : (σ.add c).1.Holds t σ.cells.length :=
    holds_iff.mpr ⟨c, List.getElem?_concat_length, hc.mono hgrow⟩
  have hlength : (σ.add c).1.cells.length = σ.cells.length + 1 := List.length_append
  -- The new address is not a second one for a tree stored once.
  have hno : ∀ {u i}, u.isStoredOnce = true → (σ.add c).1.Holds u i → i < σ.cells.length →
      ¬ (σ.add c).1.Holds u σ.cells.length := by
    intro u i hu hui hi hulast
    rw [hulast.unique hlast] at hu hui
    obtain ⟨d, hcell, hd⟩ := holds_iff.mp (hσ.holds_of_growsTo hgrow hi hui)
    rw [← hσ.cell_unique hu hc hd] at hcell
    exact hnew hu (List.mem_of_getElem? hcell)
  constructor
  · intro i hi
    rcases Nat.lt_succ_iff_lt_or_eq.mp (hlength ▸ hi) with hi | rfl
    · obtain ⟨u, hu⟩ := hσ.filled hi
      exact ⟨u, hu.mono hgrow⟩
    · exact ⟨t, hlast⟩
  · intro u i j hu hui huj
    rcases Nat.lt_succ_iff_lt_or_eq.mp (hlength ▸ hui.lt) with hi | rfl <;>
      rcases Nat.lt_succ_iff_lt_or_eq.mp (hlength ▸ huj.lt) with hj | rfl
    · exact hσ.once hu (hσ.holds_of_growsTo hgrow hi hui) (hσ.holds_of_growsTo hgrow hj huj)
    · exact absurd huj (hno hu hui hi)
    · exact absurd hui (hno hu huj hj)
    · rfl

/-- Storing the cell of a tree, shared exactly if the tree is stored once. -/
theorem put (hσ : σ.Sound) (hc : σ.Describes c t) :
    let result := σ.put t.isStoredOnce c
    result.1.Sound ∧ σ.GrowsTo result.1 ∧ result.1.cells[result.2]? = some c ∧
      (t.isStoredOnce = false → result.2 = σ.cells.length) := by
  cases hfound : σ.cells.idxOf? c with
  | some i =>
    cases ht : t.isStoredOnce with
    | true =>
      obtain ⟨hi, hcell, -⟩ := List.idxOf?_eq_some_iff.mp hfound
      simp only [Heap.put, share, hfound, ↓reduceIte]
      exact ⟨hσ, fun _ _ h => h, by rw [List.getElem?_eq_getElem hi, hcell], nofun⟩
    | false =>
      exact ⟨hσ.add hc (by simp [ht]), σ.growsTo_add c, List.getElem?_concat_length, fun _ => rfl⟩
  | none =>
    have hput : σ.put t.isStoredOnce c = σ.add c := by
      simp [Heap.put, share, hfound]
    rw [hput]
    exact ⟨hσ.add hc fun _ => List.idxOf?_eq_none_iff.mp hfound, σ.growsTo_add c,
      List.getElem?_concat_length, fun _ => rfl⟩

end Sound

/-! ## The addresses of a tree and its parts -/

mutual

/-- The addresses of a tree stored at `i` and of everything in it, in document order. -/
def addresses (σ : Heap) (i : Nat) : Tree → List Nat
  | .token .. => [i]
  | .node _ ts => i :: addressesAll σ (σ.children i) ts

/-- The addresses of stored trees and of everything in them, tree by tree. -/
def addressesAll (σ : Heap) : List Nat → Forest → List Nat
  | i :: is, t :: ts => addresses σ i t ++ addressesAll σ is ts
  | _, _ => []

end

theorem addresses_eq (t : Tree) : σ.addresses i t = i :: σ.addressesAll (σ.children i) t.children := by
  cases t with
  | token k s => simp [addresses, addressesAll, Tree.children]
  | node k ts => rfl

theorem addressesAll_append {is js : List Nat} {ts us : Forest} (h : ts.length = is.length) :
    σ.addressesAll (is ++ js) (ts ++ us) = σ.addressesAll is ts ++ σ.addressesAll js us := by
  induction ts generalizing is with
  | nil =>
    rw [List.eq_nil_of_length_eq_zero h.symm]
    simp [addressesAll]
  | cons t ts ih =>
    cases is with
    | nil => cases h
    | cons i is =>
      simp only [List.cons_append, addressesAll, List.append_assoc]
      rw [ih (Nat.succ.inj h)]

theorem addressesAll_congr {ts : Forest} {is : List Nat}
    (h : List.Forall₂ (fun t i => τ.addresses i t = σ.addresses i t) ts is) :
    τ.addressesAll is ts = σ.addressesAll is ts := by
  induction h with
  | nil => rfl
  | cons ht _ ih => rw [addressesAll, addressesAll, ht, ih]

/-- A heap that grows keeps the addresses of what it holds. -/
theorem addresses_of_growsTo (hστ : σ.GrowsTo τ) (h : σ.Holds t i) :
    τ.addresses i t = σ.addresses i t := by
  refine h.induction fun t i h hall => ?_
  obtain ⟨c, hcell, -⟩ := holds_iff.mp h
  have hchildren : τ.children i = σ.children i := by
    rw [children_of_cell hcell, children_of_cell (hστ hcell)]
  rw [addresses_eq, addresses_eq, hchildren, addressesAll_congr (hall.imp fun _ _ hu => hu.1)]

theorem addressesAll_of_growsTo (hστ : σ.GrowsTo τ) {ts : Forest} {is : List Nat}
    (h : List.Forall₂ σ.Holds ts is) : τ.addressesAll is ts = σ.addressesAll is ts :=
  addressesAll_congr (h.imp fun _ _ ht => addresses_of_growsTo hστ ht)

/-- Putting a tree behind others puts its own address in front of those of its parts. -/
theorem addressesAll_put (hστ : σ.GrowsTo τ) (hc : σ.Describes c t) (hcell : τ.cells[i]? = some c)
    {us : Forest} {is : List Nat} (h : List.Forall₂ σ.Holds us is) :
    τ.addressesAll (is ++ [i]) (us ++ [t]) =
      σ.addressesAll is us ++ i :: σ.addressesAll c.children t.children := by
  have hlast : τ.addressesAll [i] [t] = τ.addresses i t := by simp [addressesAll]
  rw [addressesAll_append h.length_eq, addressesAll_of_growsTo hστ h, hlast, addresses_eq,
    children_of_cell hcell, addressesAll_of_growsTo hστ hc.children]

/-- What holds of all addresses of the trees holds of those of the forest. -/
theorem forall_mem_addressesAll {p : Nat → Prop} {ts : Forest} {is : List Nat}
    (h : List.Forall₂ (fun t i => ∀ j ∈ σ.addresses i t, p j) ts is) :
    ∀ j ∈ σ.addressesAll is ts, p j := by
  induction h with
  | nil => simp [addressesAll]
  | cons ht _ ih =>
    rw [addressesAll]
    exact List.forall_mem_append.mpr ⟨ht, ih⟩

theorem lt_of_mem_addresses (h : σ.Holds t i) : ∀ j ∈ σ.addresses i t, j < σ.cells.length := by
  refine h.induction fun t i h hall => ?_
  rw [addresses_eq]
  exact List.forall_mem_cons.mpr ⟨h.lt, forall_mem_addressesAll (hall.imp fun _ _ hu => hu.1)⟩

theorem lt_of_mem_addressesAll {ts : Forest} {is : List Nat} (h : List.Forall₂ σ.Holds ts is) :
    ∀ j ∈ σ.addressesAll is ts, j < σ.cells.length :=
  forall_mem_addressesAll (h.imp fun _ _ ht => lt_of_mem_addresses ht)

/-! ## Addresses that occur twice -/

/-- The address is that of a tree stored once. -/
def Shared (σ : Heap) (i : Nat) : Prop := ∃ t, σ.Holds t i ∧ t.isStoredOnce = true

/-- Only shared addresses occur twice in the list. -/
def RepeatsShared (σ : Heap) (is : List Nat) : Prop := is.Pairwise fun i j => i = j → σ.Shared i

theorem RepeatsShared.mono (hστ : σ.GrowsTo τ) {is : List Nat} (h : σ.RepeatsShared is) :
    τ.RepeatsShared is := by
  refine List.Pairwise.imp (fun hij e => ?_) h
  obtain ⟨t, ht, honce⟩ := hij e
  exact ⟨t, ht.mono hστ, honce⟩

/-- An address can come in anywhere if it is shared or new. -/
theorem RepeatsShared.insert {is js : List Nat} (h : σ.RepeatsShared (is ++ js))
    (hi : i ∈ is ++ js → σ.Shared i) : σ.RepeatsShared (is ++ i :: js) := by
  refine (List.pairwise_middle fun hab e => e ▸ hab e.symm).mpr (List.pairwise_cons.mpr ⟨?_, h⟩)
  rintro j hj rfl
  exact hi hj

end Heap

end Nesc
