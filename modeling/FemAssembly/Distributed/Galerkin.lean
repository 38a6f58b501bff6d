import FemAssembly.Distributed.Matrix
import FemAssembly.Sparse.Product

/-!
# Galerkin products over ranks

A prolongation `P` relates the local numbers of a rank to the global ones. The Galerkin product of a
local block `A` is `Pᵗ A P`, and the products of all ranks add up to a distributed matrix. Every
rank sends each entry of its product to the owner of the row.

* `DistributedMatrix.galerkin`: the sum of the products of all ranks.
* `DistributedMatrix.fromLocalBlock`: the matrix of the blocks of all ranks. It is block diagonal if
  every prolongation numbers the owned rows in order, and a Galerkin product otherwise.
-/

namespace FemAssembly

namespace DistributedMatrix

variable {α β σ : Type}

/-! ## Contributions -/

/-- The indices of `entries`, as they are sent: row, column, row, column, … -/
def sentIndices (entries : List (Nat × Nat × α)) : List Nat :=
  entries.flatMap fun (i, j, _) => [i, j]

/-- The pairs of a list that alternates between rows and columns, as `sentIndices` makes it. -/
def indexPairs : List Nat → List (Nat × Nat)
  | i :: j :: rest => (i, j) :: indexPairs rest
  | _ => []

/-- The entries of `product`, one list for each rank that owns rows by `rowStarts`. -/
def contributionsByOwner (place : Place) (rowStarts : Array Nat) (product : SparseMatrix α) :
    Except Error (List (List (Nat × Nat × α))) := do
  let owned ← product.triplets.mapM fun entry => do pure (← ownerOf rowStarts entry.1, entry)
  pure <| (List.range place.size).map fun peer =>
    (owned.filter fun (owner, _) => owner == peer).map Prod.snd

/-- The received entry `value` at `(row, column)`, with the own number of its row. -/
def ownContribution (place : Place) (rowStarts : Array Nat) (row column : Nat) (value : α) :
    Except Error (Nat × Nat × α) := do
  let first := rowStarts.getD place.rank 0
  let stop := rowStarts.getD (place.rank + 1) 0
  if (← ownerOf rowStarts row) ≠ place.rank then
    .error (.inconsistent (.foreignContribution place.rank row))
  else if first ≤ row ∧ row < stop ∧ column < FemAssembly.globalSize rowStarts then
    .ok (row - first, column, value)
  else .error (.fault .outOfRange)

/-- The entries that one rank sent, as `indices` and `values`. -/
def receivedContributions (place : Place) (rowStarts : Array Nat) (indices : List Nat)
    (values : List α) : Except Error (List (Nat × Nat × α)) :=
  if indices.length ≠ 2 * values.length then .error (.communication .contributionCounts)
  else ((indexPairs indices).zip values).mapM fun ((row, column), value) =>
    ownContribution place rowStarts row column value

/-! ## The product -/

/-- The prolongation `P` has a row for each row of the square `block`, and `global` columns. -/
def checkProlongation (block P : SparseMatrix α) (global : Nat) : Except Error Unit :=
  if P.nrows = block.nrows ∧ P.ncols = global ∧ block.nrows = block.ncols then .ok ()
  else .error
    (.inconsistent (.prolongation P.nrows P.ncols block.nrows global block.ncols))

/-- The product `Pᵗ A P` of one rank, from its block `A` and its prolongation `P`. -/
def localProduct [Zero α] [Add α] [Mul α] (A P : SparseMatrix α) : SparseMatrix α :=
  P.transpose.mul (A.mul P)

/-- The sum of the products `Pᵗ A P` of all ranks, with `block` for `A`. The product of a rank has a
row for every global row, and these have to fit into an array. Contributions are added in the order
of the ranks that sent them. All ranks have to take part. -/
def galerkin [Zero α] [Add α] [Mul α] [Plain β Nat] [Plain β α] (place : Place)
    (rowStarts : Array Nat) (block P : SparseMatrix α) :
    RankProgram β σ (DistributedMatrix α) := do
  checkRowStarts rowStarts place.size
  checkProlongation block P (FemAssembly.globalSize rowStarts)
  Word.reserve (FemAssembly.globalSize rowStarts + 1) 8
  let outgoing ← contributionsByOwner place rowStarts (localProduct block P)
  let indices ← RankProgram.allToAll place Tag.galerkin (outgoing.map sentIndices)
  let values ← RankProgram.allToAll place Tag.galerkin
    (outgoing.map fun entries => entries.map fun (_, _, value) => value)
  let own ← Word.orFault outgoing[place.rank]?
  let (first, stop) ← (rowRange rowStarts place.rank : Except Error (Nat × Nat))
  let received ← (((indices.set place.rank (sentIndices own)).zip
      (values.set place.rank (own.map fun (_, _, value) => value))).mapM
    fun (indices, values) => receivedContributions place rowStarts indices values :
      Except Error (List (List (Nat × Nat × α))))
  let entries := received.flatten
  RankProgram.noteEvent (.contributionsSummed place.rank entries.length)
  fromLocalRows place rowStarts
    (SparseMatrix.ofTriplets (stop - first) (FemAssembly.globalSize rowStarts) entries)

/-! ## The choice -/

/-- The matrix of the local blocks of all ranks, with `layout` and `block` those of this rank. The
ranks first tell each other whether their prolongation is the identity, so that all of them choose
the same construction. A `block` that is `shared` is copied. -/
def fromLocalBlock [Zero α] [One α] [Add α] [Mul α] [BEq α] [Plain β UInt8] [Plain β Nat]
    [Plain β α] (place : Place) (layout : Layout α) (block : SparseMatrix α) (shared : Bool) :
    RankProgram β σ (DistributedMatrix α) := do
  let rank := place.rank
  checkRowStarts layout.rowStarts place.size
  let identity ← layout.isIdentity rank
  let flag : UInt8 := if identity then 1 else 0
  let flags ← RankProgram.allToAll place Tag.setup (List.replicate place.size [flag])
  let others := flags.zipIdx.all fun (flags, peer) => peer == rank || flags.head? == some 1
  if identity && others then blockDiagonal place layout.rowStarts block shared
  else
    RankProgram.noteEvent (.galerkinChosen rank)
    match layout.prolongation with
    | some P => galerkin place layout.rowStarts block P
    | none =>
      let _ ← (rowRange layout.rowStarts rank : Except Error (Nat × Nat))
      galerkin place layout.rowStarts block (ownedIdentity layout.rowStarts rank)

end DistributedMatrix

end FemAssembly
