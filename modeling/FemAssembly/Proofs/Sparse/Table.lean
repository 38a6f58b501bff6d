import FemAssembly.Proofs.Sparse.Product

/-!
# Tables of entries

In exact arithmetic a sparse matrix stands for the full table of its entries, and the operations on
sparse matrices are those of linear algebra on the tables.

* `SparseMatrix.table`: the table of the first rows and columns.
* `SparseMatrix.table_transpose`, `SparseMatrix.table_mul`: transposes and products.
* `SparseMatrix.table_mulVec`: the product with a vector, entry by entry.
-/

namespace FemAssembly

open Finset Matrix

namespace SparseMatrix

variable {α : Type}

/-- The table of the entries of `M` in the first `m` rows and `n` columns. -/
def table [Zero α] (M : SparseMatrix α) (m n : Nat) : Matrix (Fin m) (Fin n) α :=
  .of fun i j => M.entry i j

@[simp] theorem table_apply [Zero α] (M : SparseMatrix α) {m n : Nat} (i : Fin m) (j : Fin n) :
    M.table m n i j = M.entry i j :=
  rfl

theorem table_transpose [Zero α] [Add α] (M : SparseMatrix α) (m n : Nat) :
    M.transpose.table n m = (M.table m n)ᵀ := by
  ext i j
  exact M.entry_transpose i j

section

variable [NonUnitalNonAssocSemiring α]

theorem table_mul (A B : SparseMatrix α) (l n : Nat) :
    (A.mul B).table l n = A.table l A.ncols * B.table A.ncols n := by
  ext i j
  rw [table_apply, entry_mul, Matrix.mul_apply, ← Fin.sum_univ_eq_sum_range]
  rfl

/-- The entries of the product of the table of `M` with the vector `x`. -/
theorem table_mulVec (M : SparseMatrix α) (m n : Nat) (x : Nat → α) (i : Fin m) :
    (M.table m n *ᵥ fun j => x j) i = ∑ j ∈ range n, M.entry i j * x j := by
  rw [Matrix.mulVec, dotProduct, ← Fin.sum_univ_eq_sum_range]
  rfl

theorem ofFn_table_mulVec (M : SparseMatrix α) (m n : Nat) (x : Nat → α) :
    List.ofFn (M.table m n *ᵥ fun j => x j) =
      (List.range m).map fun i => ∑ j ∈ range n, M.entry i j * x j := by
  refine List.ext_getElem (by simp) fun i _ _ => ?_
  rw [List.getElem_ofFn, table_mulVec, List.getElem_map, List.getElem_range]

end

end SparseMatrix

end FemAssembly
