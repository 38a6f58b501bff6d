import FemAssembly.Proofs.Structured.Operator

/-!
# The operator of the kernel on a unit cube

The cells of the low-order refinement of all elements tile the unit cube: each is a box, and in each
direction its edge is the step from one node point to the next. So the volumes of the cells add up
to one. In exact arithmetic the entries of the matrix therefore add up to the mass coefficient, and
the energy of a coordinate is the diffusion coefficient.

* `Subdivides`: node points that increase from zero to one.
* `gridPoint`, `Subdivides.sum_edges`: the node points of all elements in one direction, and the sum
  of the steps between them.
* `StructuredSpace.IsHypercube.cellCorners_eq`, `StructuredSpace.IsHypercube.sum_cellVolume`: the
  cells of a unit cube, and their volumes.
* `StructuredSpace.IsCoordinate`: a coordinate of the vertices, as a vector over the degrees of
  freedom (DOFs).
* `H1Kernel.Fills.sum_values`, `H1Kernel.Fills.energy_eq`: the sums over the matrix of a unit cube.
  `H1Kernel.consistency_of_unitHypercube`: such a matrix is made.
-/

namespace FemAssembly

open Finset Matrix
open Grid (coord volume numCorners)
open StructuredSpace (nodeDof)
open H1Kernel (cellCorners boxCorners cellVolume Regular cornerNode)

variable {α : Type} [Field α]

/-! ## One direction -/

/-- The node point `n` of the element `q`, when `[0, 1]` is cut into `elements` equal elements. -/
def gridPoint (points : List α) (elements q n : Nat) : α :=
  ((q : α) + points.toArray.getD n 0) / (elements : α)

/-- The `points` of an element of order `order` increase from zero to one. -/
structure Subdivides [LT α] (points : List α) (order : Nat) : Prop where
  length_eq : points.length = order + 1
  increasing : points.Pairwise (· < ·)
  first_eq : points.head? = some 0
  last_eq : points.getLast? = some 1

namespace Subdivides

variable [LinearOrder α] [IsStrictOrderedRing α] {points : List α} {order : Nat}
  (h : Subdivides points order)
include h

omit [IsStrictOrderedRing α] in
theorem getD_first : points.toArray.getD 0 0 = 0 := by
  have hfirst := h.first_eq
  rw [List.head?_eq_getElem?] at hfirst
  simp [hfirst]

omit [IsStrictOrderedRing α] in
theorem getD_last : points.toArray.getD order 0 = 1 := by
  have hlast := h.last_eq
  rw [List.getLast?_eq_getElem?, h.length_eq, Nat.add_sub_cancel] at hlast
  simp [hlast]

omit [IsStrictOrderedRing α] in
theorem getD_lt {n : Nat} (hn : n < order) :
    points.toArray.getD n 0 < points.toArray.getD (n + 1) 0 := by
  have hlt : n + 1 < points.length := h.length_eq ▸ Nat.succ_lt_succ hn
  have hpair := List.pairwise_iff_getElem.mp h.increasing n (n + 1) (by omega) hlt (by omega)
  simpa [hlt, Nat.lt_of_succ_lt hlt] using hpair

theorem order_pos : 0 < order := by
  refine Nat.pos_of_ne_zero fun horder => zero_ne_one (α := α) ?_
  rw [← h.getD_first, ← h.getD_last, horder]

omit [IsStrictOrderedRing α] in
/-- The last node point of element `q` is the first one of the next element. -/
theorem gridPoint_last (elements q : Nat) :
    gridPoint points elements q order = gridPoint points elements (q + 1) 0 := by
  rw [gridPoint, gridPoint, h.getD_first, h.getD_last, Nat.cast_add, Nat.cast_one, add_zero]

/-- The element `q` and the node point `n` are known from the number of the point in the whole grid.
-/
theorem gridPoint_div_mod (elements q : Nat) {n : Nat} (hn : n ≤ order) :
    gridPoint points elements ((q * order + n) / order) ((q * order + n) % order) =
      gridPoint points elements q n := by
  have horder := h.order_pos
  obtain rfl | hlt := Nat.eq_or_lt_of_le hn
  · rw [← Nat.succ_mul, Nat.mul_div_cancel _ horder, Nat.mul_mod_left, h.gridPoint_last]
  · rw [Nat.add_comm, Nat.add_mul_div_right _ _ horder, Nat.div_eq_of_lt hlt, Nat.zero_add,
      Nat.add_mul_mod_self_right, Nat.mod_eq_of_lt hlt]

variable {elements : Nat} (helements : 0 < elements)
include helements

theorem gridPoint_lt {n : Nat} (hn : n < order) (q : Nat) :
    gridPoint points elements q n < gridPoint points elements q (n + 1) :=
  div_lt_div_of_pos_right (add_lt_add_right (h.getD_lt hn) _) (Nat.cast_pos.mpr helements)

/-- The steps between the node points add up to `1`, the length of the interval. -/
theorem sum_edges : ∑ q ∈ range elements, ∑ n ∈ range order,
    (gridPoint points elements q (n + 1) - gridPoint points elements q n) = 1 := by
  have hne : (elements : α) ≠ 0 := Nat.cast_ne_zero.mpr helements.ne'
  calc ∑ q ∈ range elements, ∑ n ∈ range order,
        (gridPoint points elements q (n + 1) - gridPoint points elements q n)
      = ∑ q ∈ range elements,
          (gridPoint points elements (q + 1) 0 - gridPoint points elements q 0) := by
        simp only [sum_range_sub, h.gridPoint_last]
    _ = gridPoint points elements elements 0 - gridPoint points elements 0 0 :=
        sum_range_sub (gridPoint points elements · 0) elements
    _ = 1 := by
        simp [gridPoint, h.getD_first, hne]

end Subdivides

/-! ## Cells -/

namespace StructuredSpace

/-- The vector `x` holds coordinate `d` of the vertices, at the DOF of each of them. -/
def IsCoordinate (space : StructuredSpace α) (d : Nat) (x : Array α) : Prop :=
  x.size = space.restriction.numDofs ∧
    ∀ e < space.restriction.numElements, ∀ i < space.restriction.slots,
      ∃ p, space.vertices.vertex e i = .ok p ∧
        p[d]? = some (x.getD (space.restriction.dof e i).index 0)

namespace IsHypercube

variable {space : StructuredSpace α} {points : List α} {dim cells order e cell d : Nat}
  (h : space.IsHypercube points dim cells order)
include h

theorem exists_vertex (he : e < volume cells dim) {i : Nat} (hi : i < volume (order + 1) dim)
    (hd : d < dim) : ∃ p, space.vertices.vertex e i = .ok p ∧
      p[d]? = some (gridPoint points cells (coord cells e d) (coord (order + 1) i d)) := by
  refine ⟨_, h.vertex_eq e he i hi, ?_⟩
  rw [nodePosition_eq]
  simp [hd, gridPoint]

theorem coordinate_eq (he : e < volume cells dim) {i : Nat} (hi : i < volume (order + 1) dim)
    (hd : d < dim) : space.vertices.coordinate e i d =
      gridPoint points cells (coord cells e d) (coord (order + 1) i d) := by
  obtain ⟨p, hp, hcoordinate⟩ := h.exists_vertex he hi hd
  rw [VertexCoordinates.coordinate_eq hp, List.getD_eq_getElem?_getD, hcoordinate,
    Option.getD_some]

/-- The cells of the cube are boxes between grid points. -/
theorem cellCorners_eq (he : e < volume cells dim) (hcell : cell < volume order dim) :
    cellCorners space.vertices dim order e cell = boxCorners
      (fun d : Fin dim => gridPoint points cells (coord cells e d) (coord order cell d))
      fun d => gridPoint points cells (coord cells e d) (coord order cell d + 1) := by
  ext d a
  have hbit : coord 2 a d < 2 := Grid.coord_lt Nat.two_pos a d
  rw [cellCorners, boxCorners, of_apply, of_apply,
    h.coordinate_eq he (H1Kernel.cornerNode_lt hcell a) d.isLt,
    H1Kernel.coord_cornerNode hcell d.isLt, Grid.testBit_eq]
  by_cases hupper : coord 2 a d = 1
  · simp [hupper]
  · have hlower : coord 2 a d = 0 := by omega
    simp [hlower]

/-- Coordinate `d` in the vector `x`, at the DOFs of the corners of a cell. -/
theorem getD_of_isCoordinate {x : Array α} (hx : space.IsCoordinate d x)
    (he : e < volume cells dim) (hcell : cell < volume order dim) (a : Nat) :
    x.getD (nodeDof dim cells order e (cornerNode dim order cell a)) 0 =
      space.vertices.coordinate e (cornerNode dim order cell a) d := by
  have hnode : cornerNode dim order cell a < volume (order + 1) dim :=
    H1Kernel.cornerNode_lt hcell a
  obtain ⟨p, hp, hcoordinate⟩ := hx.2 e (h.isGrid.numElements_eq ▸ he) _ (h.isGrid.slots_eq ▸ hnode)
  rw [VertexCoordinates.coordinate_eq hp, List.getD_eq_getElem?_getD, hcoordinate,
    Option.getD_some, h.isGrid.index_eq e he _ hnode]

variable [LinearOrder α] [IsStrictOrderedRing α] (hpoints : Subdivides points order)
include hpoints

/-- Vertices with the same DOF have the same coordinate `d`. -/
theorem exists_isCoordinate (hd : d < dim) : ∃ x, space.IsCoordinate d x := by
  refine ⟨Array.ofFn fun dof : Fin space.restriction.numDofs => gridPoint points cells
    (coord (cells * order + 1) dof d / order) (coord (cells * order + 1) dof d % order), by simp,
    fun e he i hi => ?_⟩
  rw [h.isGrid.numElements_eq] at he
  rw [h.isGrid.slots_eq] at hi
  obtain ⟨p, hp, hcoordinate⟩ := h.exists_vertex he hi hd
  have hlt : nodeDof dim cells order e i < space.restriction.numDofs :=
    h.isGrid.numDofs_eq ▸ nodeDof_lt he i
  have hinner : coord (order + 1) i d < order + 1 := Grid.coord_lt (Nat.succ_pos order) i d
  refine ⟨p, hp, hcoordinate.trans (congrArg some ?_)⟩
  rw [h.isGrid.index_eq e he i hi, Array.getD_eq_getD_getElem?, Array.getElem?_ofFn, dif_pos hlt,
    Option.getD_some, coord_nodeDof he hd, hpoints.gridPoint_div_mod _ _ (Nat.le_of_lt_succ hinner)]

variable (hcells : 0 < cells) (rule : TwoPoint α)
include hcells

theorem regular (he : e < volume cells dim) (hcell : cell < volume order dim) :
    Regular rule (cellCorners space.vertices dim order e cell) := by
  rw [h.cellCorners_eq he hcell]
  exact H1Kernel.regular_boxCorners
    (fun d => hpoints.gridPoint_lt hcells (Grid.coord_lt hpoints.order_pos cell d) _) rule

/-- The cells fill the unit cube: their volumes by `rule` add up to `1`. -/
theorem sum_cellVolume : ∑ e ∈ range (volume cells dim), ∑ cell ∈ range (volume order dim),
    cellVolume rule (cellCorners space.vertices dim order e cell) = 1 := by
  have hvolume : ∀ e ∈ range (volume cells dim), ∀ cell ∈ range (volume order dim),
      cellVolume rule (cellCorners space.vertices dim order e cell) = ∏ d : Fin dim,
        (gridPoint points cells (coord cells e d) (coord order cell d + 1) -
          gridPoint points cells (coord cells e d) (coord order cell d)) := by
    intro e he cell hcell
    rw [h.cellCorners_eq (mem_range.mp he) (mem_range.mp hcell), H1Kernel.cellVolume_boxCorners
      fun d => hpoints.gridPoint_lt hcells (Grid.coord_lt hpoints.order_pos cell d) _]
  -- so the sum is the product of one sum for each direction
  rw [sum_congr rfl fun e he => sum_congr rfl (hvolume e he),
    Grid.sum_sum_prod_coord cells order fun _ q n =>
      gridPoint points cells q (n + 1) - gridPoint points cells q n]
  simp only [hpoints.sum_edges hcells, prod_const_one]

theorem sum_mul_cellVolume (c : α) :
    ∑ e ∈ range (volume cells dim), ∑ cell ∈ range (volume order dim),
      c * cellVolume rule (cellCorners space.vertices dim order e cell) = c := by
  simp only [← mul_sum]
  rw [h.sum_cellVolume hpoints hcells, mul_one]

end IsHypercube

end StructuredSpace

/-! ## Matrices -/

namespace H1Kernel

variable [LinearOrder α]

namespace Fills

variable {k : H1Kernel α} {space : StructuredSpace α} {points : List α} {cells : Nat}
  {a : Assembler α} {A : SparseMatrix α} (h : k.Fills space.vertices cells a)
  (hA : a.Assembled A) (hcube : space.IsHypercube points k.dim cells k.order)
include h hA hcube

variable [IsStrictOrderedRing α] (hcells : 0 < cells) (hpoints : Subdivides points k.order)
include hcells hpoints

/-- All entries of `A` together measure the mass of the unit cube. -/
theorem sum_values : A.values.sum = k.mass := by
  have hform := h.sum_mul_entry_mul hA (fun _ => 1) fun _ => 1
  simp only [one_mul, mul_one] at hform
  rw [A.sum_values, h.nrows_eq hA, h.ncols_eq hA, hform]
  calc ∑ e ∈ range (volume cells k.dim), ∑ cell ∈ range (volume k.order k.dim),
        1 ⬝ᵥ (k.cellEntries space.vertices e cell *ᵥ 1)
      = ∑ e ∈ range (volume cells k.dim), ∑ cell ∈ range (volume k.order k.dim),
          k.mass * cellVolume k.rule (cellCorners space.vertices k.dim k.order e cell) := by
        simp only [cellEntries, one_dotProduct_entries]
    _ = k.mass := hcube.sum_mul_cellVolume hpoints hcells k.rule k.mass

/-- Without mass the energy of coordinate `d` is that of a slope of one on the unit cube. -/
theorem energy_eq (hmass : k.mass = 0) {d : Nat} (hd : d < k.dim) {x : Array α}
    (hx : space.IsCoordinate d x) :
    ∑ row ∈ range A.nrows, x.getD row 0 * (A.apply x).getD row 0 = k.diffusion := by
  have henergy : ∀ e ∈ range (volume cells k.dim), ∀ cell ∈ range (volume k.order k.dim),
      ((x.getD · 0) ∘ k.cornerDof cells e cell) ⬝ᵥ
          (k.cellEntries space.vertices e cell *ᵥ ((x.getD · 0) ∘ k.cornerDof cells e cell)) =
        k.diffusion * cellVolume k.rule (cellCorners space.vertices k.dim k.order e cell) := by
    intro e he cell hcell
    -- the coordinate is a row of the corners, so that its gradient is a unit vector
    obtain ⟨X, hX⟩ : ∃ X, X = cellCorners space.vertices k.dim k.order e cell := ⟨_, rfl⟩
    have hcorners : (x.getD · 0) ∘ k.cornerDof cells e cell = X ⟨d, hd⟩ := by
      funext a
      rw [hX]
      exact hcube.getD_of_isCoordinate hx (mem_range.mp he) (mem_range.mp hcell) a
    have hregular := hcube.regular hpoints hcells k.rule (mem_range.mp he) (mem_range.mp hcell)
    rw [hcorners, cellEntries, ← hX, k.row_dotProduct_entries X (hX ▸ hregular) hmass]
  calc ∑ row ∈ range A.nrows, x.getD row 0 * (A.apply x).getD row 0
      = ∑ e ∈ range (volume cells k.dim), ∑ cell ∈ range (volume k.order k.dim),
          k.diffusion * cellVolume k.rule (cellCorners space.vertices k.dim k.order e cell) := by
        rw [A.sum_mul_apply, h.nrows_eq hA, h.ncols_eq hA,
          h.sum_mul_entry_mul hA (x.getD · 0) (x.getD · 0)]
        exact sum_congr rfl fun e he => sum_congr rfl (henergy e he)
    _ = k.diffusion := hcube.sum_mul_cellVolume hpoints hcells k.rule k.diffusion

end Fills

variable [IsStrictOrderedRing α] [BEq α] [LawfulBEq α]

/-- The kernel makes values from the vertices of the unit cube `space` wherever its arrays can
exist. -/
theorem exists_assemble_iff_of_isHypercube {k : H1Kernel α} {space : StructuredSpace α}
    {points : List α} {cells : Nat} (hcube : space.IsHypercube points k.dim cells k.order)
    (hdim : 1 ≤ k.dim) (hle : k.dim ≤ 3) (hcells : 0 < cells)
    (hpoints : Subdivides points k.order) :
    (∃ matrices, k.assemble space.vertices = .ok matrices) ↔
      KernelFits k.dim k.order (volume cells k.dim) := by
  have hready : k.Ready space.vertices := by
    intro e he cell hcell
    rw [hcube.numElements_eq] at he
    exact ⟨fun a _ => ⟨_, hcube.vertex_eq e he _ (cornerNode_lt hcell a)⟩,
      hcube.regular hpoints hcells k.rule he hcell⟩
  rw [exists_assemble_iff, hcube.numElements_eq]
  exact ⟨fun hmade => hmade.2.2.1, fun hfits =>
    ⟨⟨hdim, hle, hpoints.order_pos⟩, ⟨hcube.vertices_dim, hcube.perElement_eq⟩, hfits, hready⟩⟩

/-- For node points that increase from zero to one, `Subdivides points k.order`, and for any rule
with two points, the kernel `k` makes values from the vertices of a unit cube wherever its arrays
can exist. The entries of the assembled matrix `A` add up to the mass coefficient. Without mass the
energy of each coordinate `x` is the diffusion coefficient. -/
theorem consistency_of_unitHypercube {nodes : Nat → Except Error (List α)} (k : H1Kernel α)
    (hdim : 1 ≤ k.dim) (hle : k.dim ≤ 3) {cells : Nat} (hcells : 0 < cells) {points : List α}
    (hnodes : nodes k.order = .ok points) (hpoints : Subdivides points k.order)
    (kind : Discretization) (options : Options) :
    ((∃ space, (StructuredSpace.unitHypercube nodes k.dim cells k.order).result = .ok space) ↔
      HypercubeFits k.dim cells k.order) ∧
    ∀ space, (StructuredSpace.unitHypercube nodes k.dim cells k.order).result = .ok space →
      ((∃ matrices, k.assemble space.vertices = .ok matrices) ↔
        KernelFits k.dim k.order (volume cells k.dim)) ∧
      ∀ matrices, k.assemble space.vertices = .ok matrices →
        (numCorners k.dim ≤ options.maxDegree → ∃ a, (Assembler.ofParts kind space.restriction
          matrices.template matrices.values options).result = .ok a) ∧
        ∀ a, (Assembler.ofParts kind space.restriction matrices.template matrices.values
            options).result = .ok a →
          ∃ A, a.assembleWithoutEssential.result = .ok A ∧
            A.nrows = space.restriction.numDofs ∧ A.ncols = space.restriction.numDofs ∧
            A.values.sum = k.mass ∧
            (k.mass = 0 → ∀ d < k.dim, (∃ x, space.IsCoordinate d x) ∧
              ∀ x, space.IsCoordinate d x →
                ∑ row ∈ range A.nrows, x.getD row 0 * (A.apply x).getD row 0 = k.diffusion) := by
  refine ⟨?_, fun space hspace => ?_⟩
  · rw [StructuredSpace.exists_result_unitHypercube_iff]
    exact ⟨fun hmade => hmade.2.2.2.1, fun hfits => ⟨hdim, hle, hcells, hfits, points, hnodes⟩⟩
  obtain ⟨-, -, -, -, points', hpoints', hcube⟩ := StructuredSpace.isHypercube_of_result hspace
  obtain rfl := Except.ok.inj (hnodes.symm.trans hpoints')
  refine ⟨exists_assemble_iff_of_isHypercube hcube hdim hle hcells hpoints,
    fun matrices hmatrices => ?_⟩
  have hmakes := makes_of_assemble_eq_ok hmatrices
  have helements : space.vertices.numElements = space.restriction.numElements :=
    hcube.numElements_eq.trans hcube.isGrid.numElements_eq.symm
  refine ⟨hmakes.exists_ofParts hcube.isGrid helements kind, fun a ha => ?_⟩
  have h := fills_of_ofParts hcube.isGrid helements hmakes ha
  obtain ⟨A, hA, hassembled⟩ := h.exists_assembled
  refine ⟨A, hA, (h.nrows_eq hassembled).trans hcube.isGrid.numDofs_eq.symm,
    (h.ncols_eq hassembled).trans hcube.isGrid.numDofs_eq.symm,
    h.sum_values hassembled hcube hcells hpoints, fun hmass d hd => ?_⟩
  exact ⟨hcube.exists_isCoordinate hpoints hd,
    fun x hx => h.energy_eq hassembled hcube hcells hpoints hmass hd hx⟩

/-- Pure diffusion on four elements with the node points `0`, `1 / 3` and `1`, which are not evenly
spaced. -/
theorem consistency_of_unitHypercube_uneven :
    ∃ (space : StructuredSpace Rat) (a : Assembler Rat) (A : SparseMatrix Rat) (x : Array Rat),
      a.assembleWithoutEssential.result = .ok A ∧ A.nrows = 25 ∧ space.IsCoordinate 1 x ∧
        A.values.sum = 0 ∧
        ∑ row ∈ range A.nrows, x.getD row 0 * (A.apply x).getD row 0 = 3 := by
  let k : H1Kernel Rat := ⟨2, 2, 3, 0, ⟨1 / 4, 3 / 4⟩⟩
  let nodes : Nat → Except Error (List Rat) := fun _ => .ok [0, 1 / 3, 1]
  have hnodes : nodes 2 = .ok [0, 1 / 3, 1] := rfl
  have hpoints : Subdivides [0, 1 / 3, (1 : Rat)] 2 :=
    ⟨rfl, by decide +kernel, rfl, rfl⟩
  obtain ⟨hspaces, hmatrices⟩ := consistency_of_unitHypercube k (by decide) (by decide)
    Nat.two_pos hnodes hpoints .h1 {}
  obtain ⟨space, hspace⟩ := hspaces.mpr (by decide)
  obtain ⟨hmade, hassembled⟩ := hmatrices space hspace
  obtain ⟨matrices, hmatrices⟩ := hmade.mpr ⟨by decide, by decide⟩
  obtain ⟨hparts, hassembled⟩ := hassembled matrices hmatrices
  obtain ⟨a, ha⟩ := hparts (by decide)
  obtain ⟨A, hA, hnrows, -, hsum, henergy⟩ := hassembled a ha
  obtain ⟨⟨x, hx⟩, henergy⟩ := henergy rfl 1 (by decide)
  obtain ⟨-, -, -, -, points, -, hcube⟩ := StructuredSpace.isHypercube_of_result hspace
  exact ⟨space, a, A, x, hA, hnrows.trans hcube.isGrid.numDofs_eq, hx, hsum, henergy x hx⟩

end H1Kernel

end FemAssembly
