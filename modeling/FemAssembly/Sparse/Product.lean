import FemAssembly.Sparse.Matrix

/-!
# Products of sparse matrices

* `SparseMatrix.transpose`: rows and columns exchanged.
* `SparseMatrix.mul`: the product. An entry is stored wherever the patterns meet, even if the terms
  cancel, and is the sum of its terms from zero by increasing inner index.
-/

namespace FemAssembly

namespace SparseMatrix

variable {α : Type}

def transpose [Add α] (M : SparseMatrix α) : SparseMatrix α :=
  ofTriplets M.ncols M.nrows (M.triplets.map fun (i, j, value) => (j, i, value))

/-- The terms of `row` in a product with `B`, by increasing inner index `k`: the column in `B`, and
the product of the factors from each side. -/
def rowTerms [Mul α] (row : SparseRow α) (B : SparseMatrix α) : List (Nat × α) :=
  row.flatMap fun (k, a) => (B.row k).map fun (j, b) => (j, a * b)

/-- The product of `A` and `B`. The pattern is laid out with zeros first, so that every sum starts
at zero. -/
def mul [Zero α] [Add α] [Mul α] (A B : SparseMatrix α) : SparseMatrix α :=
  let terms := A.rows.toList.zipIdx.flatMap fun (row, i) =>
    (rowTerms row B).map fun (j, term) => (i, j, term)
  let pattern := ofTriplets A.nrows B.ncols (terms.map fun (i, j, _) => (i, j, 0))
  terms.foldl (fun C (i, j, term) => C.addEntry i j term) pattern

end SparseMatrix

end FemAssembly
