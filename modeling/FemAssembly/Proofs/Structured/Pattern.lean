import FemAssembly.Proofs.Sparse.Sums
import FemAssembly.Proofs.Structured.Hypercube

/-!
# The pattern of a structured matrix

Two degrees of freedom (DOFs) of a grid that are neighbours have a cell in common, and in every such
cell they are neighbours, too. So with the stencil of the cells a matrix is assembled that couples
every DOF to its neighbours in the whole grid, also across the faces between cells.

* `Grid.exists_meets`: neighbours have a cell in common, direction by direction.
* `Assembler.asserts_iff_of_isGrid`: what a cell couples.
* `Assembler.exists_pattern_unitHypercube`: the matrices of unit cubes, and what they store.
-/

namespace FemAssembly

open Grid (coord point volume numCorners Near)

/-- Neighbours `x` and `y` in one direction have a cell `q` in common. -/
theorem Grid.exists_meets {cells order x y : Nat} (hcells : 0 < cells) (horder : 0 < order)
    (hx : x < cells * order + 1) (hy : y < cells * order + 1) (hxy : x ≤ y + 1) (hyx : y ≤ x + 1) :
    ∃ q < cells, Meets order q x ∧ Meets order q y := by
  by_cases hlast : min x y = cells * order
  · -- both are the last node, in the last cell
    have hpred : (cells - 1) * order + order = cells * order := by
      rw [← Nat.succ_mul, Nat.succ_eq_add_one, Nat.sub_add_cancel hcells]
    exact ⟨cells - 1, by omega, ⟨by omega, by omega⟩, by omega, by omega⟩
  · -- the cell right of the smaller one
    have hlt : min x y / order < cells := (Nat.div_lt_iff_lt_mul horder).mpr (by omega)
    have hlower := Nat.div_mul_le_self (min x y) order
    have hupper := Nat.lt_div_mul_add horder (a := min x y)
    exact ⟨min x y / order, hlt, ⟨by omega, by omega⟩, by omega, by omega⟩

namespace Assembler

variable {α : Type} {a : Assembler α} {dim cells order e row column : Nat}

section

variable (hgrid : a.restriction.IsGrid dim cells order) (hstencil : a.template.IsStencil dim order)
include hgrid hstencil

/-- The cell `e` couples those of its DOFs `row` and `column` that are neighbours in the grid. -/
theorem asserts_iff_of_isGrid : a.Asserts e row column ↔ a.restriction.References e row ∧
    a.restriction.References e column ∧ Near dim (cells * order + 1) row column := by
  have hlists : ∀ {i j}, a.restriction.ReferencesAt e i row →
      a.restriction.ReferencesAt e j column →
      (a.template.Lists i j ↔ Near dim (cells * order + 1) row column) := by
    intro i j hi hj
    obtain ⟨-, hltI, -⟩ := hgrid.referencesAt_iff.mp hi
    obtain ⟨-, hltJ, -⟩ := hgrid.referencesAt_iff.mp hj
    rw [hstencil.lists_iff hltI, and_iff_right hltJ]
    refine forall₂_congr fun d hd => ?_
    have := (hgrid.coord_eq hi).2 d hd
    have := (hgrid.coord_eq hj).2 d hd
    omega
  constructor
  · rintro ⟨i, j, hi, hj, hlist⟩
    exact ⟨⟨i, hi⟩, ⟨j, hj⟩, (hlists hi hj).mp hlist⟩
  · rintro ⟨⟨i, hi⟩, ⟨j, hj⟩, hnear⟩
    exact ⟨i, j, hi, hj, (hlists hi hj).mpr hnear⟩

theorem coherent_of_isGrid : a.Coherent := by
  intro row column e e' hrow hcolumn hrow' hcolumn'
  rw [asserts_iff_of_isGrid hgrid hstencil, asserts_iff_of_isGrid hgrid hstencil]
  simp only [hrow, hcolumn, hrow', hcolumn', true_and]

/-- The cells couple `row` and `column` if these are neighbours in the grid, and not otherwise. -/
theorem exists_asserts_iff_of_isGrid (hcells : 0 < cells) (horder : 0 < order) :
    (∃ e, a.Asserts e row column) ↔ row < volume (cells * order + 1) dim ∧
      column < volume (cells * order + 1) dim ∧ Near dim (cells * order + 1) row column := by
  simp only [asserts_iff_of_isGrid hgrid hstencil]
  constructor
  · rintro ⟨e, hrow, hcolumn, hnear⟩
    exact ⟨(hgrid.references_iff.mp hrow).2.1, (hgrid.references_iff.mp hcolumn).2.1, hnear⟩
  · rintro ⟨hrow, hcolumn, hnear⟩
    have hcommon : ∀ d, ∃ q, d < dim → q < cells ∧
        Grid.Meets order q (coord (cells * order + 1) row d) ∧
        Grid.Meets order q (coord (cells * order + 1) column d) := by
      intro d
      by_cases hd : d < dim
      · obtain ⟨q, hq⟩ := Grid.exists_meets hcells horder
          (Grid.coord_lt (Nat.succ_pos _) row d) (Grid.coord_lt (Nat.succ_pos _) column d)
          (hnear d hd).1 (hnear d hd).2
        exact ⟨q, fun _ => hq⟩
      · exact ⟨0, fun h => absurd h hd⟩
    choose q hq using hcommon
    have hlt : ∀ d < dim, q d < cells := fun d hd => (hq d hd).1
    refine ⟨point dim cells q, hgrid.references_iff.mpr ⟨Grid.point_lt hlt, hrow, fun d hd => ?_⟩,
      hgrid.references_iff.mpr ⟨Grid.point_lt hlt, hcolumn, fun d hd => ?_⟩, hnear⟩
    · rw [Grid.coord_point hlt hd]
      exact (hq d hd).2.1
    · rw [Grid.coord_point hlt hd]
      exact (hq d hd).2.2

end

/-- The parts of a unit cube, `r`, and of its stencil, `t`, fit together with values `v` of the same
shape. -/
theorem exists_ofParts_of_isGrid (kind : Discretization) {r : Restriction} {t : Template}
    {v : ElementValues α} {options : Options} (hgrid : r.IsGrid dim cells order)
    (hstencil : t.IsStencil dim order) (horder : 0 < order)
    (hdegree : numCorners dim ≤ options.maxDegree) (hwidth : v.width = volume 3 dim)
    (hslots : v.slots = volume (order + 1) dim) (helements : v.numElements = volume cells dim) :
    ∃ a, (ofParts kind r t v options).result = .ok a ∧ a.restriction = r ∧ a.template = t ∧
      a.values = v := by
  obtain ⟨a, ha⟩ := exists_ofParts kind (hgrid.checkDegree_eq_ok horder hdegree)
    (hstencil.slots_eq.trans hgrid.slots_eq.symm) (hslots.trans hgrid.slots_eq.symm)
    (hwidth.trans hstencil.width_eq.symm) (helements.trans hgrid.numElements_eq.symm)
  obtain ⟨-, hrestriction, htemplate, hvalues, -⟩ := result_ofParts_eq_ok_iff.mp ha
  exact ⟨a, ha, hrestriction, htemplate, hvalues⟩

variable [Zero α] [One α] [Neg α] [Add α] [Mul α]

/-- With the stencil of its cells, the matrix `A` of a grid is assembled. -/
theorem exists_assembled_of_isGrid (hgrid : a.restriction.IsGrid dim cells order)
    (hstencil : a.template.IsStencil dim order) :
    ∃ A, a.assembleWithoutEssential.result = .ok A ∧ a.Assembled A := by
  obtain ⟨A, hA⟩ := exists_result_eq_ok
    ((coherent_of_isGrid hgrid hstencil).valued hgrid.distinctDofs)
    (visitsOnce_of_distinctDofs hgrid.distinctDofs)
  exact ⟨A, hA, assembled_of_result_eq_ok hA⟩

/-- The unit cube `space` and its stencil `template` exist exactly where their arrays fit. From
both, and `values` of the same shape, an assembler `a` is made whose bound on the degrees allows for
the cells at a corner, and it assembles. The matrix `A` stores the pairs of DOFs whose coordinates
in the grid differ by at most one in every direction, `Near`. So its pattern is symmetric, has the
diagonal, and is that of a product of tridiagonal matrices. -/
theorem exists_pattern_unitHypercube (dim cells order : Nat) :
    ((∃ space, (StructuredSpace.unitHypercube gaussLobattoPoints dim cells order).result =
      .ok space) ↔ 1 ≤ dim ∧ dim ≤ 3 ∧ 0 < cells ∧ 0 < order ∧ HypercubeFits dim cells order) ∧
    (0 < dim → ((∃ template, Template.tensorStencil dim order = .ok template) ↔
      volume (order + 1) dim * volume 3 dim * 16 < Word.signedBound)) ∧
    ∀ space template,
      (StructuredSpace.unitHypercube gaussLobattoPoints dim cells order).result = .ok space →
      Template.tensorStencil dim order = .ok template →
      ∀ (kind : Discretization) (values : ElementValues α) (options : Options),
        values.width = volume 3 dim → values.slots = volume (order + 1) dim →
        values.numElements = volume cells dim → numCorners dim ≤ options.maxDegree →
        ∃ a A, (ofParts kind space.restriction template values options).result = .ok a ∧
          a.assembleWithoutEssential.result = .ok A ∧
          A.nrows = volume (cells * order + 1) dim ∧ A.ncols = volume (cells * order + 1) dim ∧
          (∀ row column, (A.get? row column).isSome ↔ row < volume (cells * order + 1) dim ∧
            column < volume (cells * order + 1) dim ∧ Near dim (cells * order + 1) row column) ∧
          (∀ row column, (A.get? row column).isSome = (A.get? column row).isSome) ∧
          (∀ row < volume (cells * order + 1) dim, (A.get? row row).isSome) ∧
          A.nnz = (3 * (cells * order + 1) - 2) ^ dim := by
  refine ⟨exists_unitHypercube_gaussLobatto_iff, Template.exists_tensorStencil_iff, ?_⟩
  intro space template hspace htemplate kind values options hwidth hslots helements hdegree
  obtain ⟨-, -, hcells, horder, -⟩ := exists_unitHypercube_gaussLobatto_iff.mp ⟨space, hspace⟩
  obtain ⟨-, -, -, -, points, -, hcube⟩ := StructuredSpace.isHypercube_of_result hspace
  obtain ⟨a, ha, hrestriction, rfl, rfl⟩ := exists_ofParts_of_isGrid kind hcube.isGrid
    (Template.isStencil_of_tensorStencil htemplate) horder hdegree hwidth hslots helements
  have hgrid : a.restriction.IsGrid dim cells order := hrestriction ▸ hcube.isGrid
  have hstencil := Template.isStencil_of_tensorStencil htemplate
  obtain ⟨A, hA, h⟩ := exists_assembled_of_isGrid hgrid hstencil
  have hnrows := h.nrows_eq.trans hgrid.numDofs_eq
  have hncols := h.ncols_eq.trans hgrid.numDofs_eq
  have hstored : ∀ row column, (A.get? row column).isSome ↔ row < volume (cells * order + 1) dim ∧
      column < volume (cells * order + 1) dim ∧ Near dim (cells * order + 1) row column :=
    fun row column => (h.isSome_get?_iff (coherent_of_isGrid hgrid hstencil) row column).trans
      (exists_asserts_iff_of_isGrid hgrid hstencil hcells horder)
  refine ⟨a, A, ha, hA, hnrows, hncols, hstored, fun row column => ?_, fun row hrow => ?_, ?_⟩
  · rw [Bool.eq_iff_iff, hstored, hstored, Grid.near_comm, and_left_comm]
  · exact (hstored row row).mpr ⟨hrow, hrow, Grid.near_refl dim _ row⟩
  · have hpoints : 3 * (cells * order + 1) - 2 = 3 * (cells * order) + 1 := by omega
    rw [A.nnz_eq_sum, hnrows, hncols, hpoints, ← Grid.sum_near]
    refine Finset.sum_congr rfl fun row hrow => Finset.sum_congr rfl fun column hcolumn => ?_
    refine if_congr ((hstored row column).trans ?_) rfl rfl
    rw [and_iff_right (Finset.mem_range.mp hrow), and_iff_right (Finset.mem_range.mp hcolumn)]

/-- Two by two bilinear cells: nine DOFs, of which `4`, the one in the middle, couples to all
others, and the ones in the corners do not couple to each other. -/
theorem exists_pattern_unitHypercube_twoByTwo : ∃ (a : Assembler Int) (A : SparseMatrix Int),
    a.assembleWithoutEssential.result = .ok A ∧ A.nrows = 9 ∧ A.nnz = 49 ∧
      (∀ row < 9, (A.get? row 4).isSome) ∧ A.get? 0 2 = none := by
  obtain ⟨hspace, htemplate, hpattern⟩ := exists_pattern_unitHypercube (α := Int) 2 2 1
  obtain ⟨space, hspace⟩ := hspace.mpr (by decide)
  obtain ⟨template, htemplate⟩ := (htemplate (by decide)).mpr (by decide)
  obtain ⟨a, A, -, hA, hnrows, -, hstored, -, -, hnnz⟩ := hpattern space template hspace htemplate
    .h1 ⟨9, 4, 4, Array.replicate 144 1, rfl⟩ {} rfl rfl rfl (by decide)
  refine ⟨a, A, hA, hnrows, hnnz, fun row hrow => (hstored row 4).mpr ?_, ?_⟩
  · revert row
    decide
  · rw [← Option.not_isSome_iff_eq_none, hstored]
    decide

end Assembler

end FemAssembly
