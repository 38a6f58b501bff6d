import FemAssembly.Proofs.Element.Cell
import FemAssembly.Proofs.Element.Slots

/-!
# The stencil values of an element

In exact arithmetic, the stencil of an element holds for each pair of nodes what all cells
contribute to it.

* `scatterTable`: a table that is put together from small ones. `sum_mul_scatterTable_mul`: it acts
  as its parts do.
* `H1Kernel.CellReady`, `H1Kernel.cellMatrixAt_eq_ok_iff`: the cells whose matrix is made.
* `H1Kernel.stencilValue`, `H1Kernel.sum_valuesAt_elementDeposits`: the values of an element, as
  sums over its cells and their corners.
-/

namespace FemAssembly

open Finset
open Grid (coord volume numCorners)

variable {α : Type}

/-! ## Values that a position takes -/

theorem sum_valuesAt [AddCommMonoid α] (deposits : List (Nat × α)) (p : Nat) :
    (valuesAt deposits p).sum = (deposits.map fun d => if d.1 = p then d.2 else 0).sum := by
  induction deposits with
  | nil => rfl
  | cons d deposits ih =>
    rw [List.map_cons, List.sum_cons, ← ih]
    by_cases h : d.1 = p <;> simp [valuesAt, h]

/-! ## Tables -/

section Tables

variable {ι κ : Type} [CommSemiring α]

/-- The table that is made from small ones: the entry at `a` and `b` of the table `M t` is added at
`place t a` and `place t b`. -/
def scatterTable (tables : Finset ι) (indices : Finset κ) (place : ι → κ → Nat) (M : ι → κ → κ → α)
    (i j : Nat) : α :=
  ∑ t ∈ tables, ∑ a ∈ indices, ∑ b ∈ indices,
    if place t a = i ∧ place t b = j then M t a b else 0

/-- A table that is put together acts on `x` and `y` as its parts do. -/
theorem sum_mul_scatterTable_mul {tables : Finset ι} {indices : Finset κ} {place : ι → κ → Nat}
    {size : Nat} (hplace : ∀ t ∈ tables, ∀ a ∈ indices, place t a < size) (M : ι → κ → κ → α)
    (x y : Nat → α) :
    ∑ i ∈ range size, ∑ j ∈ range size, x i * scatterTable tables indices place M i j * y j =
      ∑ t ∈ tables, ∑ a ∈ indices, ∑ b ∈ indices, x (place t a) * M t a b * y (place t b) := by
  have hentry : ∀ i j, x i * scatterTable tables indices place M i j * y j =
      ∑ c ∈ (tables ×ˢ indices ×ˢ indices).filter
        fun c => (place c.1 c.2.1, place c.1 c.2.2) = (i, j),
          x (place c.1 c.2.1) * M c.1 c.2.1 c.2.2 * y (place c.1 c.2.2) := by
    intro i j
    simp only [scatterTable, mul_sum, sum_mul, sum_filter, sum_product, Prod.mk.injEq]
    refine sum_congr rfl fun t _ => sum_congr rfl fun a _ => sum_congr rfl fun b _ => ?_
    split
    · rename_i h
      rw [h.1, h.2]
    · rw [mul_zero, zero_mul]
  calc ∑ i ∈ range size, ∑ j ∈ range size, x i * scatterTable tables indices place M i j * y j
      = ∑ p ∈ range size ×ˢ range size, ∑ c ∈ (tables ×ˢ indices ×ˢ indices).filter
          fun c => (place c.1 c.2.1, place c.1 c.2.2) = p,
            x (place c.1 c.2.1) * M c.1 c.2.1 c.2.2 * y (place c.1 c.2.2) := by
        rw [sum_product]
        simp only [hentry]
    _ = ∑ c ∈ tables ×ˢ indices ×ˢ indices,
          x (place c.1 c.2.1) * M c.1 c.2.1 c.2.2 * y (place c.1 c.2.2) :=
        sum_fiberwise_of_maps_to (fun c hc => by
          obtain ⟨ht, hc⟩ := mem_product.mp hc
          obtain ⟨ha, hb⟩ := mem_product.mp hc
          exact mem_product.mpr ⟨mem_range.mpr (hplace _ ht _ ha),
            mem_range.mpr (hplace _ ht _ hb)⟩) _
    _ = _ := by simp only [sum_product]

end Tables

/-- Coordinate `d` of vertex `i` of element `e`, or zero if there is no such vertex. -/
def VertexCoordinates.coordinate [Zero α] (c : VertexCoordinates α) (e i d : Nat) : α :=
  match c.vertex e i with
  | .ok x => x.getD d 0
  | .error _ => 0

theorem VertexCoordinates.coordinate_eq [Zero α] {c : VertexCoordinates α} {e i : Nat} {x : List α}
    (h : c.vertex e i = .ok x) (d : Nat) : c.coordinate e i d = x.getD d 0 := by
  simp only [coordinate, h]

namespace H1Kernel

/-- The sum of `f` over the deposits of a cell with the matrix `M` is a sum over the pairs of its
corners. -/
theorem sum_map_cellDeposits [AddCommMonoid α] {dim order width cell : Nat}
    (M : Dense (numCorners dim) (numCorners dim) α) (f : Nat × α → α) :
    ((cellDeposits dim order width cell M).map f).sum =
      ∑ a, ∑ b, f (cornerPlace dim order width cell a b, M.toMatrix a b) := by
  simp only [cellDeposits, List.flatMap, List.map_flatten, List.sum_flatten, List.map_map,
    Function.comp_def, Fin.sum_univ_def]
  rfl

variable [Field α]

/-! ## Cells -/

/-- The corners of cell `cell` of element `e`. -/
def cellCorners (vertices : VertexCoordinates α) (dim order e cell : Nat) :
    Matrix (Fin dim) (Fin (numCorners dim)) α :=
  .of fun d a => vertices.coordinate e (cornerNode dim order cell a) d

variable [LinearOrder α] (k : H1Kernel α) (vertices : VertexCoordinates α)

/-- The corners of cell `cell` of element `e` can be read, and no Jacobian is singular. -/
def CellReady (e cell : Nat) : Prop :=
  (∀ a < numCorners k.dim, ∃ x, vertices.vertex e (cornerNode k.dim k.order cell a) = .ok x) ∧
    Regular k.rule (cellCorners vertices k.dim k.order e cell)

/-- The entries of the matrix of cell `cell` of element `e`. -/
noncomputable def cellEntries (e cell : Nat) :
    Matrix (Fin (numCorners k.dim)) (Fin (numCorners k.dim)) α :=
  k.entries (cellCorners vertices k.dim k.order e cell)

/-- What all cells of element `e` contribute to place `p` of its stencil. -/
noncomputable def stencilValue (width e p : Nat) : α :=
  ∑ cell ∈ range (volume k.order k.dim), ∑ a, ∑ b,
    if cornerPlace k.dim k.order width cell a b = p then k.cellEntries vertices e cell a b else 0

variable {k vertices}

/-- What place `p` takes from the cells of element `e` adds up to what they contribute to it. -/
theorem sum_valuesAt_elementDeposits {e : Nat}
    {M : Nat → Dense (numCorners k.dim) (numCorners k.dim) α}
    (hM : ∀ cell < volume k.order k.dim, (M cell).toMatrix = k.cellEntries vertices e cell)
    (p : Nat) : (valuesAt (k.elementDeposits M) p).sum =
      k.stencilValue vertices (volume 3 k.dim) e p := by
  calc (valuesAt (k.elementDeposits M) p).sum
      = ∑ cell ∈ range (volume k.order k.dim),
          ((cellDeposits k.dim k.order (volume 3 k.dim) cell (M cell)).map
            fun d => if d.1 = p then d.2 else 0).sum := by
        rw [sum_valuesAt, elementDeposits, List.map_flatMap, List.flatMap, List.sum_flatten,
          List.map_map]
        rfl
    _ = k.stencilValue vertices (volume 3 k.dim) e p :=
        sum_congr rfl fun cell hcell => by
          rw [sum_map_cellDeposits, hM cell (mem_range.mp hcell)]

variable [IsStrictOrderedRing α] [BEq α] [LawfulBEq α]

/-- The matrix of cell `cell`, from the vertices of element `e`. -/
theorem cellMatrix_of_vertices {e cell : Nat} {coordinates : List (List α)}
    (h : ((List.range (numCorners k.dim)).mapM fun corner =>
      vertices.vertex e (cornerNode k.dim k.order cell corner)) = .ok coordinates)
    {M : Dense (numCorners k.dim) (numCorners k.dim) α} :
    k.cellMatrix (Dense.ofFn fun (d : Fin k.dim) (a : Fin (numCorners k.dim)) =>
        (coordinates.getD a []).getD d 0) = .ok M ↔
      Regular k.rule (cellCorners vertices k.dim k.order e cell) ∧
        M.toMatrix = k.cellEntries vertices e cell := by
  have hcorners : (Dense.ofFn fun (d : Fin k.dim) (a : Fin (numCorners k.dim)) =>
      (coordinates.getD a []).getD d 0).toMatrix =
      cellCorners vertices k.dim k.order e cell := by
    rw [Dense.toMatrix_ofFn]
    ext d a
    exact (VertexCoordinates.coordinate_eq (getD_of_mapM_range_eq_ok h a.isLt []) d).symm
  rw [cellMatrix_eq_ok_iff, hcorners]
  rfl

theorem cellMatrixAt_eq_ok_iff {e cell : Nat}
    {M : Dense (numCorners k.dim) (numCorners k.dim) α} :
    k.cellMatrixAt vertices e cell = .ok M ↔
      k.CellReady vertices e cell ∧ M.toMatrix = k.cellEntries vertices e cell := by
  rw [cellMatrixAt, bind_eq_ok_iff]
  constructor
  · rintro ⟨coordinates, hcoordinates, hM⟩
    obtain ⟨hregular, hentries⟩ := (cellMatrix_of_vertices hcoordinates).mp hM
    exact ⟨⟨fun a ha => ⟨_, getD_of_mapM_range_eq_ok hcoordinates ha []⟩, hregular⟩, hentries⟩
  · rintro ⟨⟨hvertices, hregular⟩, hentries⟩
    obtain ⟨coordinates, hcoordinates⟩ := exists_mapM_eq_ok fun a ha =>
      hvertices a (List.mem_range.mp ha)
    exact ⟨coordinates, hcoordinates, (cellMatrix_of_vertices hcoordinates).mpr
      ⟨hregular, hentries⟩⟩

/-- The matrix of a cell `cell` of element `e` that is ready. -/
theorem CellReady.cellMatrixAt_eq_ok {e cell : Nat} (h : k.CellReady vertices e cell) :
    k.cellMatrixAt vertices e cell =
      .ok (Dense.ofFn fun a b => k.cellEntries vertices e cell a b) :=
  cellMatrixAt_eq_ok_iff.mpr ⟨h, Dense.toMatrix_ofFn _⟩

end H1Kernel

end FemAssembly
