import FemAssembly.Distributed.Halo
import FemAssembly.Sequence.Distinct
import FemAssembly.Sparse.Relabel

/-!
# Distributed matrices

Every rank of a distributed matrix holds the rows that it owns, in two blocks. The diagonal block
has the columns that the rank owns, counted from its first row. The off-diagonal block has the other
columns in which something is stored, counted by their place in a list of them.

* `DistributedMatrix.blockDiagonal`: a matrix without off-diagonal columns.
* `DistributedMatrix.fromLocalRows`, `DistributedMatrix.toLocalRows`: the rows of a rank with global
  columns, split into blocks and joined again.
* `DistributedMatrix.mul`: the matrix-vector product.
-/

namespace FemAssembly

/-- The rows of a square matrix that `rank` owns: `diagonal` has their entries in the own columns,
and `offDiagonal` those in the columns of other ranks. -/
structure DistributedMatrix (α : Type) where
  rank : Nat
  rowStarts : Array Nat
  diagonal : SparseMatrix α
  offDiagonal : SparseMatrix α
  /-- the global column of each off-diagonal column -/
  columns : List Nat
  plan : HaloPlan
  /-- the diagonal block took over the storage of the block it was made from -/
  adopted : Bool
  square : diagonal.nrows = diagonal.ncols
  same_rows : offDiagonal.nrows = diagonal.nrows
  mapped : offDiagonal.ncols = columns.length
  owned : diagonal.nrows = rowStarts.getD (rank + 1) 0 - rowStarts.getD rank 0

namespace DistributedMatrix

variable {α β σ : Type}

/-! ## Block-diagonal matrices -/

/-- The matrix whose diagonal block on this rank is `block`, without off-diagonal columns. A `block`
that is `shared`, because someone else holds it as well, is copied. -/
def blockDiagonal [Plain β Nat] (place : Place) (rowStarts : Array Nat) (block : SparseMatrix α)
    (shared : Bool) : RankProgram β σ (DistributedMatrix α) := do
  let rank := place.rank
  checkRowStarts rowStarts place.size
  let _ ← (rowRange rowStarts rank : Except Error (Nat × Nat))
  let owned := rowStarts.getD (rank + 1) 0 - rowStarts.getD rank 0
  if h : block.nrows = owned ∧ block.ncols = owned then
    RankProgram.noteEvent (if shared then .copied rank else .adopted rank)
    let plan ← HaloPlan.create place rowStarts []
    pure {
      rank, rowStarts, plan
      diagonal := block
      offDiagonal := SparseMatrix.zero owned 0
      columns := []
      adopted := !shared
      square := h.1.trans h.2.symm
      same_rows := by simp [h.1]
      mapped := rfl
      owned := h.1 }
  else .fail (.inconsistent (.localBlock block.nrows block.ncols rank owned))

/-! ## Splitting rows into blocks -/

/-- The own columns from `first` to `stop`, counted from `first`. -/
def ownColumns (first stop : Nat) : Relabelling (stop - first) where
  label c := if first ≤ c ∧ c < stop then some (c - first) else none
  increasing hcd hc hd := by
    split at hc
    · split at hd
      · simp only [Option.some.injEq] at hc hd
        omega
      · exact nomatch hd
    · exact nomatch hc
  below hc := by
    split at hc
    · simp only [Option.some.injEq] at hc
      omega
    · exact nomatch hc

/-- The columns outside of `first` to `stop` in which `rows` has an entry, in increasing order. -/
def foreignColumns (first stop : Nat) (rows : SparseMatrix α) : List Nat :=
  distinct (rows.columns.filter fun c => ¬ (first ≤ c ∧ c < stop))

/-- The `columns`, an increasing list, counted by their place in it. -/
def placeIn (columns : List Nat) (h : columns.Pairwise (· < ·)) : Relabelling columns.length where
  label c := columns.idxOf? c
  increasing hcd hc hd := position_lt_of_lt h hcd hc hd
  below hc := position_lt_length hc

/-- Split `rows`, the rows of a rank with global columns, into blocks. All ranks have to take part.
-/
def fromLocalRows [Plain β Nat] (place : Place) (rowStarts : Array Nat) (rows : SparseMatrix α) :
    RankProgram β σ (DistributedMatrix α) := do
  let rank := place.rank
  checkRowStarts rowStarts place.size
  let _ ← (rowRange rowStarts rank : Except Error (Nat × Nat))
  let first := rowStarts.getD rank 0
  let stop := rowStarts.getD (rank + 1) 0
  let global := globalSize rowStarts
  if h : rows.nrows = stop - first ∧ rows.ncols = global then
    let columns := foreignColumns first stop rows
    let plan ← HaloPlan.create place rowStarts columns
    pure {
      rank, rowStarts, columns, plan
      diagonal := rows.relabel (ownColumns first stop)
      offDiagonal := rows.relabel (placeIn columns (pairwise_distinct _))
      adopted := false
      square := by simp [h.1]
      same_rows := by simp
      mapped := rfl
      owned := by simp only [SparseMatrix.nrows_relabel, h.1, first, stop, rank] }
  else .fail (.inconsistent (.rowBlock rank (stop - first) global rows.nrows rows.ncols))

/-! ## The matrix as a whole -/

variable (M : DistributedMatrix α)

/-- The first global row of the rank of `M`. -/
def firstRow : Nat := M.rowStarts.getD M.rank 0

def numLocalRows : Nat := M.diagonal.nrows

/-- The number of rows of all ranks together. -/
def globalSize : Nat := FemAssembly.globalSize M.rowStarts

/-- The rows of the rank of `M`, with global columns. -/
def toLocalRows [Add α] : SparseMatrix α :=
  SparseMatrix.ofTriplets M.numLocalRows M.globalSize <|
    (M.diagonal.triplets.map fun (i, j, value) => (i, M.firstRow + j, value)) ++
      M.offDiagonal.triplets.map fun (i, j, value) => (i, M.columns.getD j 0, value)

/-! ## Products with vectors -/

/-- Add the products of `row` with the vector `x` to `sum`, one after the other. -/
def addRowProduct [Zero α] [Add α] [Mul α] (x : Array α) (sum : α) (row : SparseRow α) : α :=
  row.foldl (fun sum (j, value) => sum + value * x.getD j 0) sum

/-- The own part of the product of `M` with a vector, from the own part `x` of the vector. The
diagonal block is multiplied while the other values are under way. All ranks have to take part. -/
def mul [Zero α] [Add α] [Mul α] [Plain β α] (x : Array α) : RankProgram β σ (List α) := do
  if x.size ≠ M.numLocalRows then
    .fail (.inconsistent (.vectorLength x.size M.rank M.numLocalRows))
  else
    let exchange ← M.plan.startExchange Tag.product x
    let own := M.diagonal.rows.toList.map (addRowProduct x 0)
    let received := (← exchange.wait).toArray
    pure ((own.zip M.offDiagonal.rows.toList).map fun (sum, row) =>
      addRowProduct received sum row)

end DistributedMatrix

end FemAssembly
