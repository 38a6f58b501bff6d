import FemAssembly.Proofs.Assembly.Essential
import FemAssembly.Proofs.Assembly.Operator
import FemAssembly.Proofs.Element.H1
import FemAssembly.Proofs.Structured.Pattern

/-!
# The operator of the kernel on a grid of cells

The values of the kernel are put together twice: from the cells of the low-order refinement to the
nodes of an element, and from the nodes to the degrees of freedom (DOFs). In exact arithmetic the
matrix acts on vectors as the matrices of all these cells do together. So what holds for every cell
holds for the matrix.

* `H1Kernel.Fills`: an assembler with the elements of a grid and the values of the kernel.
* `H1Kernel.Fills.sum_mul_entry_mul`: the bilinear form of its matrix, cell by cell.
* `H1Kernel.operator_symmetric_of_unitHypercube`: it is symmetric, and without mass it annihilates
  constants, whatever the shapes of the cells.
-/

namespace FemAssembly

open Finset Matrix
open Grid (coord volume numCorners)
open StructuredSpace (nodeDof)

variable {α : Type} [Field α] [LinearOrder α]

namespace H1Kernel

/-- The DOF of corner `a` of cell `cell` of the refinement of element `e`. -/
def cornerDof (k : H1Kernel α) (cells e cell : Nat) (a : Fin (numCorners k.dim)) : Nat :=
  nodeDof k.dim cells k.order e (cornerNode k.dim k.order cell a)

/-- The assembler `a` has the elements of a grid and the values that the kernel `k` makes from their
`vertices`. -/
structure Fills (k : H1Kernel α) (vertices : VertexCoordinates α) (cells : Nat)
    (a : Assembler α) : Prop where
  isGrid : a.restriction.IsGrid k.dim cells k.order
  numElements_eq : vertices.numElements = volume cells k.dim
  makes : k.Makes vertices ⟨a.template, a.values⟩

namespace Fills

variable {k : H1Kernel α} {vertices : VertexCoordinates α} {cells : Nat} {a : Assembler α}
  (h : k.Fills vertices cells a)
include h

theorem isStencil : a.template.IsStencil k.dim k.order :=
  Template.isStencil_of_tensorStencil h.makes.template_eq

/-- What element `e` contributes to the pair of its nodes `i` and `j`. -/
theorem contribution_eq {e i j : Nat} (he : e < volume cells k.dim)
    (hi : i < volume (k.order + 1) k.dim) (hj : j < volume (k.order + 1) k.dim)
    (hlists : a.template.Lists i j) : a.contribution e i j = k.nodeEntry vertices e i j := by
  obtain ⟨c, hc⟩ := Template.lists_iff_exists.mp hlists
  obtain ⟨hlt, hcolumn⟩ := (h.isStencil.names_iff hi).mp hc
  have hlisted : a.template.listed i j = some c :=
    (h.isStencil.listed_eq_some_iff hi).mpr ⟨hlt, hcolumn⟩
  have hsign : (a.restriction.dof e i).relativeSign (a.restriction.dof e j) = (1 : α) := by
    simp [SignedIndex.relativeSign, SignedIndex.sameOrientation, h.isGrid.isReversed_eq e he i hi,
      h.isGrid.isReversed_eq e he j hj]
  have hvalue := h.makes.getD_values (h.numElements_eq ▸ he) hi hlt
  rw [Assembler.contribution, hsign, one_mul, hlisted, Option.getD_some,
    ← stencilValue_eq_nodeEntry k vertices hlt hcolumn]
  exact hvalue

/-- Every pair of nodes of an element counts in the entry at `row` and `column`, since those that
are no neighbours have no cell in common. -/
theorem entry_eq {A : SparseMatrix α} (hA : a.Assembled A) (row column : Nat) :
    A.entry row column = scatterTable (range (volume cells k.dim))
      (range (volume (k.order + 1) k.dim)) (nodeDof k.dim cells k.order) (k.nodeEntry vertices)
      row column := by
  rw [hA.entry_eq_sum (Assembler.coherent_of_isGrid h.isGrid h.isStencil), scatterTable,
    h.isGrid.numElements_eq, h.isGrid.slots_eq]
  refine sum_congr rfl fun e he => sum_congr rfl fun i hi => sum_congr rfl fun j hj => ?_
  rw [mem_range] at he hi hj
  have hcouples : a.Couples e i j row column ↔
      (nodeDof k.dim cells k.order e i = row ∧ nodeDof k.dim cells k.order e j = column) ∧
        a.template.Lists i j := by
    rw [Assembler.Couples, h.isGrid.referencesAt_iff, h.isGrid.referencesAt_iff]
    simp only [he, hi, hj, true_and, and_assoc]
  by_cases hlists : a.template.Lists i j
  · rw [h.contribution_eq he hi hj hlists]
    exact if_congr (hcouples.trans (and_iff_left hlists)) rfl rfl
  · -- the sum over the cells has no term for a pair that the template does not list
    have hzero : k.nodeEntry vertices e i j = 0 := by
      refine nodeEntry_eq_zero k vertices (fun c hc hcolumn => hlists ?_) e
      exact Template.lists_iff_exists.mpr ⟨c, (h.isStencil.names_iff hi).mpr ⟨hc, hcolumn⟩⟩
    rw [hzero, ite_self, if_neg fun hc => hlists (hcouples.mp hc).2]

/-- The matrix `A` acts on `x` and `y` as the matrices of the cells do together. -/
theorem sum_mul_entry_mul {A : SparseMatrix α} (hA : a.Assembled A) (x y : Nat → α) :
    ∑ row ∈ range (volume (cells * k.order + 1) k.dim),
      ∑ column ∈ range (volume (cells * k.order + 1) k.dim),
        x row * A.entry row column * y column =
      ∑ e ∈ range (volume cells k.dim), ∑ cell ∈ range (volume k.order k.dim),
        (x ∘ k.cornerDof cells e cell) ⬝ᵥ
          (k.cellEntries vertices e cell *ᵥ (y ∘ k.cornerDof cells e cell)) := by
  have hplace : ∀ e ∈ range (volume cells k.dim), ∀ i ∈ range (volume (k.order + 1) k.dim),
      nodeDof k.dim cells k.order e i < volume (cells * k.order + 1) k.dim :=
    fun e he i _ => StructuredSpace.nodeDof_lt (mem_range.mp he) i
  simp only [h.entry_eq hA]
  rw [sum_mul_scatterTable_mul hplace]
  refine sum_congr rfl fun e _ => ?_
  rw [k.sum_mul_nodeEntry_mul vertices e (fun i => x (nodeDof k.dim cells k.order e i))
    fun i => y (nodeDof k.dim cells k.order e i)]
  refine sum_congr rfl fun cell _ => ?_
  simp only [dotProduct, mulVec, mul_sum, ← mul_assoc]
  rfl

/-- Row `row` of the matrix `A`, cell by cell. -/
theorem sum_entry_mul {A : SparseMatrix α} (hA : a.Assembled A) {row : Nat}
    (hrow : row < volume (cells * k.order + 1) k.dim) (y : Nat → α) :
    ∑ column ∈ range (volume (cells * k.order + 1) k.dim), A.entry row column * y column =
      ∑ e ∈ range (volume cells k.dim), ∑ cell ∈ range (volume k.order k.dim),
        ((Pi.single row 1 : Nat → α) ∘ k.cornerDof cells e cell) ⬝ᵥ
          (k.cellEntries vertices e cell *ᵥ (y ∘ k.cornerDof cells e cell)) := by
  have hsum := h.sum_mul_entry_mul hA (Pi.single row 1) y
  rw [sum_eq_single row (fun other _ hne => sum_eq_zero fun column _ => by
    rw [Pi.single_eq_of_ne hne, zero_mul, zero_mul]) fun hnot =>
    absurd (mem_range.mpr hrow) hnot] at hsum
  simpa only [Pi.single_eq_same, one_mul] using hsum

/-- The matrices of the cells are symmetric, and so is `A`. -/
theorem entry_comm {A : SparseMatrix α} (hA : a.Assembled A) {row column : Nat}
    (hrow : row < volume (cells * k.order + 1) k.dim)
    (hcolumn : column < volume (cells * k.order + 1) k.dim) :
    A.entry row column = A.entry column row := by
  have hsingle : ∀ {i j}, i < volume (cells * k.order + 1) k.dim →
      j < volume (cells * k.order + 1) k.dim → A.entry i j =
        ∑ e ∈ range (volume cells k.dim), ∑ cell ∈ range (volume k.order k.dim),
          ((Pi.single i 1 : Nat → α) ∘ k.cornerDof cells e cell) ⬝ᵥ
            (k.cellEntries vertices e cell *ᵥ
              ((Pi.single j 1 : Nat → α) ∘ k.cornerDof cells e cell)) := by
    intro i j hi hj
    rw [← h.sum_entry_mul hA hi, sum_eq_single j (fun other _ hne => by simp [hne]) fun hnot =>
      absurd (mem_range.mpr hj) hnot]
    simp
  rw [hsingle hrow hcolumn, hsingle hcolumn hrow]
  refine sum_congr rfl fun e _ => sum_congr rfl fun cell _ => ?_
  rw [dotProduct_mulVec, ← mulVec_transpose, cellEntries, transpose_entries, dotProduct_comm]

/-- Without mass the matrices of the cells annihilate constants, and so does `A`. -/
theorem sum_entry {A : SparseMatrix α} (hA : a.Assembled A) (hmass : k.mass = 0) {row : Nat}
    (hrow : row < volume (cells * k.order + 1) k.dim) :
    ∑ column ∈ range (volume (cells * k.order + 1) k.dim), A.entry row column = 0 := by
  have hsum := h.sum_entry_mul hA hrow fun _ => 1
  simp only [mul_one] at hsum
  rw [hsum]
  refine sum_eq_zero fun e _ => sum_eq_zero fun cell _ => ?_
  have hone : (fun _ : Nat => (1 : α)) ∘ k.cornerDof cells e cell = 1 := rfl
  rw [hone, cellEntries, k.entries_mulVec_one _ hmass, dotProduct_zero]

/-- The matrix `A` is made. -/
theorem exists_assembled :
    ∃ A, a.assembleWithoutEssential.result = .ok A ∧ a.Assembled A :=
  Assembler.exists_assembled_of_isGrid h.isGrid h.isStencil

theorem nrows_eq {A : SparseMatrix α} (hA : a.Assembled A) :
    A.nrows = volume (cells * k.order + 1) k.dim :=
  hA.nrows_eq.trans h.isGrid.numDofs_eq

theorem ncols_eq {A : SparseMatrix α} (hA : a.Assembled A) :
    A.ncols = volume (cells * k.order + 1) k.dim :=
  hA.ncols_eq.trans h.isGrid.numDofs_eq

/-- Positions on both sides of the diagonal of `A` are stored together, with the same value. -/
theorem get?_comm {A : SparseMatrix α} (hA : a.Assembled A) (row column : Nat) :
    A.get? row column = A.get? column row := by
  have hstored := hA.isSome_get?_comm h.isStencil.symmetric row column
  cases hget : A.get? row column with
  | none =>
    rw [hget] at hstored
    exact (Option.isNone_iff_eq_none.mp (by simpa using hstored.symm)).symm
  | some value =>
    rw [hget] at hstored
    obtain ⟨value', hget'⟩ := Option.isSome_iff_exists.mp hstored.symm
    obtain ⟨hrow, hcolumn⟩ := SparseMatrix.lt_of_get?_eq_some hget
    have hentry := h.entry_comm hA (h.nrows_eq hA ▸ hrow) (h.ncols_eq hA ▸ hcolumn)
    rw [SparseMatrix.entry, SparseMatrix.entry, hget, hget', Option.getD_some,
      Option.getD_some] at hentry
    rw [hget', hentry]

end Fills

/-- The parts of a grid, `r`, and of the kernel, `matrices`, put together. -/
theorem fills_of_ofParts {k : H1Kernel α} {vertices : VertexCoordinates α} {cells : Nat}
    {r : Restriction} {matrices : LocalMatrices α} {kind : Discretization} {options : Options}
    {a : Assembler α} (hgrid : r.IsGrid k.dim cells k.order)
    (helements : vertices.numElements = r.numElements) (hmakes : k.Makes vertices matrices)
    (ha : (Assembler.ofParts kind r matrices.template matrices.values options).result = .ok a) :
    k.Fills vertices cells a := by
  obtain ⟨-, rfl, htemplate, hvalues, -⟩ := Assembler.result_ofParts_eq_ok_iff.mp ha
  refine ⟨hgrid, helements.trans hgrid.numElements_eq, ?_⟩
  rw [htemplate, hvalues]
  exact hmakes

/-- The parts of a grid, `r`, and of the kernel, `matrices`, fit together. -/
theorem Makes.exists_ofParts {k : H1Kernel α} {vertices : VertexCoordinates α}
    {matrices : LocalMatrices α} (h : k.Makes vertices matrices) {cells : Nat} {r : Restriction}
    (hgrid : r.IsGrid k.dim cells k.order) (helements : vertices.numElements = r.numElements)
    (kind : Discretization) {options : Options} (hdegree : numCorners k.dim ≤ options.maxDegree) :
    ∃ a, (Assembler.ofParts kind r matrices.template matrices.values options).result = .ok a := by
  obtain ⟨a, ha, -⟩ := Assembler.exists_ofParts_of_isGrid kind hgrid
    (Template.isStencil_of_tensorStencil h.template_eq) h.order_pos hdegree h.width_eq h.slots_eq
    (h.numElements_eq.trans (helements.trans hgrid.numElements_eq))
  exact ⟨a, ha⟩

variable [IsStrictOrderedRing α] [BEq α] [LawfulBEq α]

/-- From the restriction of a unit cube, `space.restriction`, and from the `matrices` that the
kernel `k` makes of any `vertices` of its cells, a symmetric matrix `A` is assembled, for any rule
with two points. Without mass each of its rows adds up to zero, and so it takes constants `c` to
zero. -/
theorem operator_symmetric_of_unitHypercube {β : Type} [Zero β] [Add β] [Div β] [NatCast β]
    {nodes : Nat → Except Error (List β)} (k : H1Kernel α) {cells : Nat}
    {space : StructuredSpace β}
    (hspace : (StructuredSpace.unitHypercube nodes k.dim cells k.order).result = .ok space)
    {vertices : VertexCoordinates α}
    (helements : vertices.numElements = space.restriction.numElements)
    {matrices : LocalMatrices α} (hmatrices : k.assemble vertices = .ok matrices)
    (kind : Discretization) (options : Options) :
    (numCorners k.dim ≤ options.maxDegree → ∃ a, (Assembler.ofParts kind space.restriction
      matrices.template matrices.values options).result = .ok a) ∧
    ∀ a, (Assembler.ofParts kind space.restriction matrices.template matrices.values
        options).result = .ok a →
      ∃ A, a.assembleWithoutEssential.result = .ok A ∧
        A.nrows = space.restriction.numDofs ∧ A.ncols = space.restriction.numDofs ∧
        (∀ row column, A.get? row column = A.get? column row) ∧
        (k.mass = 0 → (∀ row, ((A.row row).map Prod.snd).sum = 0) ∧
          ∀ c, A.apply (Array.replicate A.ncols c) = Array.replicate A.nrows 0) := by
  obtain ⟨-, -, -, -, points, -, hcube⟩ := StructuredSpace.isHypercube_of_result hspace
  have hgrid := hcube.isGrid
  have hmakes := makes_of_assemble_eq_ok hmatrices
  refine ⟨hmakes.exists_ofParts hgrid helements kind, fun a ha => ?_⟩
  have h := fills_of_ofParts hgrid helements hmakes ha
  obtain ⟨A, hA, hassembled⟩ := h.exists_assembled
  have hnrows := h.nrows_eq hassembled
  have hncols := h.ncols_eq hassembled
  refine ⟨A, hA, hnrows.trans hgrid.numDofs_eq.symm, hncols.trans hgrid.numDofs_eq.symm,
    h.get?_comm hassembled, fun hmass => ⟨fun row => ?_, fun c => ?_⟩⟩
  · by_cases hrow : row < A.nrows
    · rw [A.sum_row, hncols, h.sum_entry hassembled hmass (hnrows ▸ hrow)]
    · rw [A.row_eq_nil (Nat.le_of_not_lt hrow), List.map_nil, List.sum_nil]
  · refine Array.ext (by simp [SparseMatrix.size_apply]) fun row hrow _ => ?_
    have hlt : row < A.nrows := A.size_apply _ ▸ hrow
    have hconstant : ∀ j ∈ range A.ncols,
        A.entry row j * (Array.replicate A.ncols c).getD j 0 = A.entry row j * c :=
      fun j hj => by simp [mem_range.mp hj]
    rw [SparseMatrix.getElem_apply, sum_congr rfl hconstant, ← sum_mul, hncols,
      h.sum_entry hassembled hmass (hnrows ▸ hlt), zero_mul, Array.getElem_replicate]

/-- The vertices of two by two elements of order two. The node in column `x` and row `y` of the
whole grid is at `(8 * x + x * y, 8 * y + x * x)`, so that no cell has parallel sides. -/
def bentGrid : VertexCoordinates Rat where
  dim := 2
  perElement := 9
  numElements := 4
  data := ((StructuredSpace.cellNodes 4 9).flatMap fun (e, i) =>
    let x : Rat := (nodeDof 2 2 2 e i % 5 : Nat)
    let y : Rat := (nodeDof 2 2 2 e i / 5 : Nat)
    [8 * x + x * y, 8 * y + x * x]).toArray
  size_eq := by decide

/-- Pure diffusion on plane elements of order two. -/
def quadraticDiffusion : H1Kernel Rat := ⟨2, 2, 3, 0, ⟨1 / 4, 3 / 4⟩⟩

/-- The matrix of `quadraticDiffusion` on `bentGrid`. The DOFs `12` and `13` lie on the side that
two of the elements share, and `12` belongs to all four of them. -/
theorem operator_symmetric_of_unitHypercube_bentGrid :
    ∃ (a : Assembler Rat) (A : SparseMatrix Rat), a.assembleWithoutEssential.result = .ok A ∧
      A.nrows = 25 ∧ (A.get? 12 13).isSome ∧
      (∀ row column, A.get? row column = A.get? column row) ∧
      (∀ row, ((A.row row).map Prod.snd).sum = 0) ∧
      A.apply (Array.replicate A.ncols 1) = Array.replicate A.nrows 0 := by
  let nodes : Nat → Except Error (List Rat) := fun _ => .ok [0, 1 / 2, 1]
  obtain ⟨space, hspace, hcube⟩ : ∃ space, (StructuredSpace.unitHypercube nodes 2 2 2).result =
      .ok space ∧ space.IsHypercube [0, 1 / 2, 1] 2 2 2 :=
    StructuredSpace.exists_isHypercube rfl (by decide) (by decide) (by decide) (by decide)
  have hmade : ∀ e < 4, ∀ cell < 4, (quadraticDiffusion.cellMatrixAt bentGrid e cell).isOk := by
    decide +kernel
  have hready : quadraticDiffusion.Ready bentGrid := fun e he cell hcell =>
    have ⟨_, hM⟩ := exists_of_isOk (hmade e he cell hcell)
    (cellMatrixAt_eq_ok_iff.mp hM).1
  obtain ⟨matrices, hmatrices⟩ :=
    exists_assemble_iff.mpr ⟨by decide, by decide, ⟨by decide, by decide⟩, hready⟩
  have helements : bentGrid.numElements = space.restriction.numElements :=
    hcube.isGrid.numElements_eq.symm
  obtain ⟨hparts, hassembled⟩ :=
    operator_symmetric_of_unitHypercube quadraticDiffusion hspace helements hmatrices .h1 {}
  obtain ⟨a, ha⟩ := hparts (by decide)
  obtain ⟨A, hA, hnrows, -, hsymmetric, hconstants⟩ := hassembled a ha
  obtain ⟨hrows, happly⟩ := hconstants rfl
  have h := fills_of_ofParts hcube.isGrid helements (makes_of_assemble_eq_ok hmatrices) ha
  have hstored : (A.get? 12 13).isSome :=
    ((Assembler.assembled_of_result_eq_ok hA).isSome_get?_iff
      (Assembler.coherent_of_isGrid h.isGrid h.isStencil) 12 13).mpr
      ((Assembler.exists_asserts_iff_of_isGrid h.isGrid h.isStencil Nat.two_pos Nat.two_pos).mpr
        (by decide))
  exact ⟨a, A, hA, hnrows.trans hcube.isGrid.numDofs_eq, hstored, hsymmetric, hrows, happly 1⟩

end H1Kernel

end FemAssembly
