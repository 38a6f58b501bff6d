import FemAssembly.Assembly.Visit
import FemAssembly.Sparse.Matrix

/-!
# The count pass and the fill pass

The count pass counts the visits of every row, which reserves the storage of the rows. The fill pass
writes the entry of every visit to the next free place of its row. Each pass takes its visits in
some order, the schedule; the visits of different row slots may be mixed in any way.

* `countPass`: the number of entries of each row.
* `FillState`: the storage with a cursor for each row, and `FillState.write`, which claims the place
  at the cursor.
* `fillPass`: the filled storage.
* `matrixOfStorage`: the matrix whose rows are held in the storage in any order.
-/

namespace FemAssembly

/-- Count `visit` at its row. -/
def countVisit (counts : Array Nat) (visit : Visit) : Except Error (Array Nat) :=
  if visit.row.index < counts.size then .ok (counts.modify visit.row.index (· + 1))
  else .error (.fault .outOfRange)

/-- The number of visits of each of `numRows` rows, under `schedule`. -/
def countPass (numRows : Nat) (schedule : List Visit) : Except Error (Array Nat) :=
  schedule.foldlM countVisit (Array.replicate numRows 0)

/-- Storage that is being filled. -/
structure FillState (α : Type) where
  /-- the next place of each row -/
  cursors : Array Nat
  columns : Array Nat
  values : Array α

namespace FillState

variable {α : Type}

/-- Empty storage with room for the rows that `offsets` lays out, and every cursor at the start of
its row. -/
def start [Zero α] (offsets : Array Nat) : FillState α :=
  let nnz := offsets.getD (offsets.size - 1) 0
  ⟨offsets.pop, Array.replicate nnz 0, Array.replicate nnz 0⟩

/-- Claim the place at the cursor of `row` and write `column` and `value` there. The place must be
one that the count pass reserved for the row, before `offsets[row + 1]`. -/
def write (offsets : Array Nat) (s : FillState α) (row column : Nat) (value : α) :
    Except Error (FillState α) := do
  let place ← Word.orFault s.cursors[row]?
  let stop ← Word.orFault offsets[row + 1]?
  if stop ≤ place then .error (.writeBudgetExceeded row)
  else pure {
    cursors := s.cursors.setIfInBounds row (place + 1)
    columns := s.columns.setIfInBounds place column
    values := s.values.setIfInBounds place value }

/-- Every row of `s` is filled to its end in `offsets`. The first that is not, is reported. -/
def checkFilled (offsets : Array Nat) (s : FillState α) : Except Error Unit :=
  match s.cursors.zipIdx.find? fun (cursor, row) => cursor ≠ offsets.getD (row + 1) 0 with
  | some (cursor, row) =>
    let first := offsets.getD row 0
    .error (.inconsistent (.fillCount (cursor - first) row (offsets.getD (row + 1) 0 - first)))
  | none => .ok ()

end FillState

variable {α : Type}

/-- The matrix whose row `i` is held in `storage` from `offsets[i]` to `offsets[i + 1]`. -/
def matrixOfStorage (ncols : Nat) (offsets : Array Nat) (storage : FillState α) :
    Except Error (SparseMatrix α) :=
  let entries := storage.columns.zip storage.values
  SparseMatrix.ofUnsortedRows ncols <| Array.ofFn (n := offsets.size - 1) fun i =>
    (entries.extract (offsets.getD i 0) (offsets.getD (i + 1) 0)).toList

variable [Zero α] [One α] [Neg α] [Add α] [Mul α]

/-- Write the entry of `visit`. Its value is formed before a place is claimed. -/
def fillVisit (r : Restriction) (t : Template) (v : ElementValues α) (offsets : Array Nat)
    (s : FillState α) (visit : Visit) : Except Error (FillState α) := do
  let value ← entryValue r t v visit
  s.write offsets visit.row.index visit.column.index value

/-- The storage after all visits of `schedule`. -/
def fillPass (r : Restriction) (t : Template) (v : ElementValues α) (offsets : Array Nat)
    (schedule : List Visit) : Except Error (FillState α) := do
  let filled ← schedule.foldlM (fillVisit r t v offsets) (FillState.start offsets)
  filled.checkFilled offsets
  pure filled

end FemAssembly
