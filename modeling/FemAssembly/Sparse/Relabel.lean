import FemAssembly.Sparse.Matrix

/-!
# New column numbers

* `SparseMatrix.relabel`: a matrix in which every column has a new number or is left out. The new
  numbers increase with the old ones, so rows stay in order.
* `SparseMatrix.row_relabel`: the entries of a row of it.
-/

namespace FemAssembly

/-- New numbers `label c` below `bound` for some columns `c`, in the order of the old ones. -/
structure Relabelling (bound : Nat) where
  label : Nat → Option Nat
  increasing : ∀ {c d c' d'}, c < d → label c = some c' → label d = some d' → c' < d'
  below : ∀ {c c'}, label c = some c' → c' < bound

namespace SparseRow

variable {α : Type}

/-- The entries of `row` whose columns have a new number, with that number. -/
def relabel (label : Nat → Option Nat) (row : SparseRow α) : SparseRow α :=
  row.filterMap fun (c, value) => (label c).map (·, value)

theorem columns_relabel (label : Nat → Option Nat) (row : SparseRow α) :
    columns (relabel label row) = (columns row).filterMap label := by
  induction row with
  | nil => rfl
  | cons entry rest ih =>
    simp only [columns, relabel, List.map_cons, List.filterMap_cons] at ih ⊢
    cases label entry.1 <;> simp [ih]

theorem Sorted.relabel {bound : Nat} {row : SparseRow α} (h : Sorted row)
    (f : Relabelling bound) : Sorted (relabel f.label row) := by
  rw [Sorted, columns_relabel, List.pairwise_filterMap]
  exact h.imp fun hcd _ hc _ hd => f.increasing hcd hc hd

theorem below_relabel {bound : Nat} (row : SparseRow α) (f : Relabelling bound) :
    Below bound (SparseRow.relabel f.label row) := by
  intro c hc
  rw [columns_relabel] at hc
  obtain ⟨_, _, hlabel⟩ := List.mem_filterMap.mp hc
  exact f.below hlabel

end SparseRow

namespace SparseMatrix

variable {α : Type} {bound : Nat} (M : SparseMatrix α) (f : Relabelling bound)

/-- The matrix `M` in which every column has its number by `f`; columns without one are left out. -/
def relabel : SparseMatrix α where
  ncols := bound
  rows := M.rows.map (SparseRow.relabel f.label)
  sorted i h := by
    rw [Array.getElem_map]
    exact (M.sorted i (by simpa using h)).relabel f
  below i h := by
    rw [Array.getElem_map]
    exact SparseRow.below_relabel _ f

@[simp] theorem nrows_relabel : (M.relabel f).nrows = M.nrows := by simp [relabel, nrows]

@[simp] theorem ncols_relabel : (M.relabel f).ncols = bound := rfl

theorem row_relabel (i : Nat) : (M.relabel f).row i = SparseRow.relabel f.label (M.row i) := by
  simp only [row, relabel, Array.getD_eq_getD_getElem?, Array.getElem?_map]
  cases M.rows[i]? <;> simp [SparseRow.relabel]

end SparseMatrix

end FemAssembly
