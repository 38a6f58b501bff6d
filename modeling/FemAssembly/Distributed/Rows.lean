import FemAssembly.Sparse.Matrix
import FemAssembly.Word

/-!
# Row partitions

The rows of a distributed matrix are shared out to the ranks in contiguous ranges. Rank `p` owns the
rows from `starts p` to `starts (p + 1)`; a rank may own none.

* `partitionPoint`: where a predicate on a list stops holding, by halving.
* `checkRowStarts`: whether a list of starts is a partition among `size` ranks.
* `ownerOf`, `rowRange`: the rank that owns a row, and the rows that a rank owns.
* `Layout`: a partition, and how the local numbering of a rank relates to it.
* `isIdentityProlongation`, `ownedIdentity`: the prolongation that numbers the owned rows in order.
-/

namespace FemAssembly

/-- Narrow down the last position at which `holds` is true, from `size` positions after `base`. -/
def halve (holds : Nat → Bool) (base size : Nat) : Nat :=
  if size ≤ 1 then base
  else
    let half := size / 2
    halve holds (if holds (base + half) then base + half else base) (size - half)
termination_by size

/-- The number of leading elements of `list` of which `holds` is true, where it is true of none
after one of which it is false. -/
def partitionPoint (holds : Nat → Bool) (list : Array Nat) : Nat :=
  if list.size = 0 then 0
  else
    let last := halve (fun i => holds (list.getD i 0)) 0 list.size
    if holds (list.getD last 0) then last + 1 else last

/-- An increasing `list` holds `value`. -/
def containsSorted (list : Array Nat) (value : Nat) : Bool :=
  list[partitionPoint (· < value) list]? == some value

/-- The array `starts` has the starts of the row ranges of `size` ranks: one more than ranks, from
zero and not decreasing. -/
def checkRowStarts (starts : Array Nat) (size : Nat) : Except Error Unit := do
  let expected ← Word.add size 1
  if starts.size ≠ expected ∨ starts[0]? ≠ some 0 then
    .error (.inconsistent (.rowStarts expected starts.toList))
  else if (List.range size).any fun p => starts.getD (p + 1) 0 < starts.getD p 0 then
    .error (.inconsistent .rowStartsOrder)
  else .ok ()

/-- The rank that owns `row`: the last whose range starts at or before it. -/
def ownerOf (starts : Array Nat) (row : Nat) : Except Error Nat :=
  match partitionPoint (· ≤ row) starts with
  | 0 => .error (.fault .overflow)
  | p + 1 => .ok p

/-- How the numbering of a rank relates to the global rows. -/
structure Layout (α : Type) where
  /-- rank `p` owns the rows from `rowStarts p` to `rowStarts (p + 1)` -/
  rowStarts : Array Nat
  /-- from local to global numbers; without one, local number `i` is the `i`-th owned row -/
  prolongation : Option (SparseMatrix α) := none

/-- The first row of `rank`, and one past its last. -/
def rowRange (starts : Array Nat) (rank : Nat) : Except Error (Nat × Nat) := do
  pure (← Word.orFault starts[rank]?, ← Word.orFault starts[rank + 1]?)

/-- The last of the `starts`, which is the number of rows. -/
def globalSize (starts : Array Nat) : Nat := starts.getD (starts.size - 1) 0

/-- The prolongation `P` selects the rows of `rank` in order, with unit weights. A rank without a
range has none that does. -/
def isIdentityProlongation {α : Type} [One α] [BEq α] (P : SparseMatrix α) (starts : Array Nat)
    (rank : Nat) : Except Error Bool := do
  let next ← Word.add rank 1
  let first := starts.getD rank 0
  let stop := starts.getD next 0
  pure (decide (next < starts.size) && decide (first ≤ stop) &&
    decide (P.nrows = stop - first) && decide (P.ncols = globalSize starts) &&
    P.rows.toList.zipIdx.all fun (row, i) =>
      row.columns == [first + i] && row.all fun (_, value) => value == 1)

/-- The prolongation of `layout` numbers the rows of `rank` in order. -/
def Layout.isIdentity {α : Type} [One α] [BEq α] (layout : Layout α) (rank : Nat) :
    Except Error Bool :=
  match layout.prolongation with
  | none => .ok true
  | some P => isIdentityProlongation P layout.rowStarts rank

/-- The prolongation that an absent one stands for: local number `i` is row `i` of the range of
`rank`. -/
def ownedIdentity {α : Type} [One α] [Add α] (starts : Array Nat) (rank : Nat) : SparseMatrix α :=
  let first := starts.getD rank 0
  let owned := starts.getD (rank + 1) 0 - first
  SparseMatrix.ofTriplets owned (globalSize starts)
    ((List.range owned).map fun i => (i, first + i, 1))

end FemAssembly
