import FemAssembly.Assembly.Dirichlet
import FemAssembly.Distributed.Matrix
import FemAssembly.Options

/-!
# Essential degrees of freedom over ranks

Every rank eliminates essential rows of its own. It clears the couplings within its diagonal block
as well as its off-diagonal rows, and puts a one on the diagonal. The peers learn from flags which
of their off-diagonal columns are essential, and clear these columns.

* `DistributedMatrix.eliminateOwnRows`, `DistributedMatrix.clearColumns`: the two changes.
* `DistributedMatrix.startElimination`, `DistributedMatrix.finishElimination`: the exchange of flags
  around them. A failure in between leaves the own rows eliminated.
* `DistributedMatrix.eliminate`: both halves together.
-/

namespace FemAssembly

namespace DistributedMatrix

open SparseMatrix (SameShape sameShape_mapRow sameShape_foldl sameShape_foldl_decouple)

variable {α β σ : Type}

variable [Zero α]

/-! ## Own rows -/

/-- Clear every coupling of the own row `row` in `diagonal`, and put a one at `(row, row)`, where it
is stored. -/
def eliminateRow [One α] (diagonal : SparseMatrix α) (row : Nat) : SparseMatrix α :=
  (diagonal.decoupleRow row).replace row row 1

/-- Clear `row` of `M`. -/
def clearRow (M : SparseMatrix α) (row : Nat) : SparseMatrix α := M.mapRow row fun _ _ => 0

/-! ## Columns of other ranks -/

/-- Clear the columns in `essential` one after the other, in every row of `M`. -/
def clearByScan (M : SparseMatrix α) (essential : List Nat) : SparseMatrix α :=
  essential.foldl (fun M column =>
    (List.range M.nrows).foldl (fun M row => M.replace row column 0) M) M

/-- Clear every entry of `M` whose column is found in `essential`. -/
def clearBySearch (M : SparseMatrix α) (essential : List Nat) : SparseMatrix α :=
  let columns := essential.toArray
  (List.range M.nrows).foldl (fun M row =>
    M.mapRow row fun column value => if containsSorted columns column then 0 else value) M

/-- Clear the columns in `essential` of an off-diagonal block `M`, by `strategy`. -/
def clearEssential (strategy : ColumnElimination) (M : SparseMatrix α) (essential : List Nat) :
    SparseMatrix α :=
  match strategy with
  | .scan => clearByScan M essential
  | .binarySearch => clearBySearch M essential

/-! ## Shapes -/

theorem sameShape_eliminateRow [One α] (M : SparseMatrix α) (row : Nat) :
    SameShape (eliminateRow M row) M :=
  (sameShape_mapRow ..).trans (sameShape_foldl_decouple ..)

theorem sameShape_clearEssential (strategy : ColumnElimination) (M : SparseMatrix α)
    (essential : List Nat) : SameShape (clearEssential strategy M essential) M := by
  cases strategy with
  | scan =>
    exact sameShape_foldl (fun M _ => sameShape_foldl (fun M _ => sameShape_mapRow M ..) _ M) _ M
  | binarySearch => exact sameShape_foldl (fun M _ => sameShape_mapRow M ..) _ M

/-! ## Elimination -/

variable (M : DistributedMatrix α)

/-- Clear the couplings of the own rows in `essential`. -/
def eliminateOwnRows [One α] (essential : List Nat) : DistributedMatrix α :=
  have hd : SameShape (essential.foldl eliminateRow M.diagonal) M.diagonal :=
    sameShape_foldl sameShape_eliminateRow essential M.diagonal
  have ho : SameShape (essential.foldl clearRow M.offDiagonal) M.offDiagonal :=
    sameShape_foldl (fun N _ => sameShape_mapRow N ..) essential M.offDiagonal
  { M with
    diagonal := essential.foldl eliminateRow M.diagonal
    offDiagonal := essential.foldl clearRow M.offDiagonal
    square := by rw [hd.1, hd.2, M.square]
    same_rows := by rw [hd.1, ho.1, M.same_rows]
    mapped := by rw [ho.2, M.mapped]
    owned := by rw [hd.1, M.owned] }

/-- Clear the off-diagonal columns in `essential`, by `strategy`. -/
def clearColumns (strategy : ColumnElimination) (essential : List Nat) : DistributedMatrix α :=
  have ho : SameShape (clearEssential strategy M.offDiagonal essential) M.offDiagonal :=
    sameShape_clearEssential ..
  { M with
    offDiagonal := clearEssential strategy M.offDiagonal essential
    same_rows := by rw [ho.1, M.same_rows]
    mapped := by rw [ho.2, M.mapped] }

/-- The positions of the `flags` that are set, in increasing order. -/
def flagged (flags : List UInt8) : List Nat :=
  (flags.zipIdx.filter fun (flag, _) => flag != 0).map Prod.snd

/-- Send the flags of the own rows of `M` to the peers that need them, and eliminate the own rows in
`essential`. -/
def startElimination [One α] [Plain β UInt8] (essential : List Nat) :
    RankProgram β σ (DistributedMatrix α × Exchange) := do
  match essential.find? (M.numLocalRows ≤ ·) with
  | some row => .fail (.inconsistent (.ownRow row M.rank M.numLocalRows))
  | none =>
    let flags := Array.ofFn fun i : Fin M.numLocalRows =>
      if essential.contains i.val then (1 : UInt8) else 0
    let exchange ← M.plan.startExchange Tag.elimination flags
    pure (M.eliminateOwnRows essential, exchange)

/-- Wait for the flags of the off-diagonal columns of `M`, and clear the essential ones. -/
def finishElimination [Plain β UInt8] (exchange : Exchange) (essential : List Nat)
    (strategy : ColumnElimination) : RankProgram β σ (DistributedMatrix α) := do
  let columns := flagged (← exchange.wait)
  RankProgram.noteEvent (.ranksEliminated M.rank essential.length columns.length)
  pure (M.clearColumns strategy columns)

/-- Eliminate the own rows in `essential`, counted from the first row of `M`, and the essential
columns of other ranks. All ranks have to take part. -/
def eliminate [One α] [Plain β UInt8] (essential : List Nat) (strategy : ColumnElimination) :
    RankProgram β σ (DistributedMatrix α) := do
  let (M, exchange) ← M.startElimination essential
  M.finishElimination exchange essential strategy

end DistributedMatrix

end FemAssembly
