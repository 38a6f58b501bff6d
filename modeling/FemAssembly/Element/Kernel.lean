import FemAssembly.Element.Dense
import FemAssembly.Element.Values
import FemAssembly.Element.Vertices
import FemAssembly.Template

/-!
# Local kernels

A kernel computes, from the vertices of the elements, a template and the values that belong to it.

* `LocalMatrices`: a template with values.
* `LocalKernel`: the space that a kernel computes for, and what it computes.
* `ElementMatrix`: a dense matrix of any shape.
* `LocalMatrices.tabulated`, `LocalMatrices.ofElementMatrices`: values that are known beforehand,
  given as values or as one dense matrix for each element.
-/

namespace FemAssembly

/-- The local sparsity `template` of the elements and their `values`. -/
structure LocalMatrices (α : Type) where
  template : Template
  values : ElementValues α

/-- A way to compute the local matrices of elements of one `kind`. -/
structure LocalKernel (α : Type) where
  kind : Discretization
  assemble : VertexCoordinates α → Except Error (LocalMatrices α)

/-- The matrix of one element, which may have the wrong shape. -/
structure ElementMatrix (α : Type) where
  rows : Nat
  columns : Nat
  entries : Dense rows columns α

namespace ElementMatrix

variable {α : Type}

/-- The matrix with the given `rows`, if they all have one length. -/
def ofRows? (rows : List (List α)) : Option (ElementMatrix α) := do
  let columns := (rows.head?.map List.length).getD 0
  let rows ← rows.mapM fun row =>
    if h : row.length = columns then some (⟨row.toArray, h⟩ : Vector α columns) else none
  pure ⟨rows.length, columns, ⟨rows.toArray, rfl⟩⟩

/-- The entry in `row` and `column`, if the matrix has this row and column. -/
def entry? (matrix : ElementMatrix α) (row column : Nat) : Option α :=
  matrix.entries[row]? >>= (·[column]?)

end ElementMatrix

namespace LocalMatrices

variable {α : Type}

/-- The values `values`, which have to be aligned with `template`. -/
def tabulated (template : Template) (values : ElementValues α) : Except Error (LocalMatrices α) :=
  if template.width = values.width ∧ template.slots = values.slots then
    .ok ⟨template, values⟩
  else .error (.kernelSetup
    (.misaligned values.width values.slots template.width template.slots))

/-- Read the entries of `matrix` through `template` into the values of `element`. Entries outside of
the template have no influence. -/
def tabulateElement (template : Template) (matrix : ElementMatrix α) (element : Nat)
    (values : ElementValues α) : Except Error (ElementValues α) :=
  (List.range template.slots).foldlM (fun values row => do
    let columns ← template.rowColumns row
    columns.foldlM (fun values (k, column) => do
      let value ← Word.orFault (matrix.entry? row column)
      values.set k row element value) values) values

/-- Tabulate `matrices`, one dense matrix for each element. Every matrix has as many rows and
columns as `template`; the first that has not is reported. -/
def ofElementMatrices [Zero α] (template : Template) (matrices : List (ElementMatrix α)) :
    Except Error (LocalMatrices α) := do
  let zeros ← ElementValues.zeros template.width template.slots matrices.length
  let values ← matrices.zipIdx.foldlM (fun values (matrix, element) =>
    if matrix.rows = template.slots ∧ matrix.columns = template.slots then
      tabulateElement template matrix element values
    else .error (.kernelSetup
      (.matrixShape element matrix.rows matrix.columns template.slots))) zeros
  tabulated template values

/-- The kernel that computes nothing and returns `matrices`. -/
def kernel (matrices : LocalMatrices α) (kind : Discretization) : LocalKernel α :=
  ⟨kind, fun _ => .ok matrices⟩

end LocalMatrices

end FemAssembly
