import FemAssembly.Distributed.Rows
import FemAssembly.Structured.Space

/-!
# Partitions of the interval

The unit interval is cut into contiguous blocks of cells, one for each rank. A rank owns the degrees
of freedom (DOFs) from the left end of its first cell up to the left end of the next rank's first
cell, and the last rank also owns the right end.

* `IntervalPart`: the cells of one rank, numbered locally, with the layout of its numbering.
* `unitIntervalParts`: the parts of all ranks.
-/

namespace FemAssembly

/-- The part of the interval that one rank holds: its cells and its `layout`. -/
structure IntervalPart (α : Type) where
  /-- the cells of the rank, with DOFs numbered locally -/
  space : StructuredSpace α
  layout : Layout α
  /-- the global numbers of the local DOFs -/
  localToGlobal : List Nat

namespace IntervalPart

/-- The first cell of `rank`; for the rank past the last one, the number of `cells`. -/
def firstCell (cells ranks rank : Nat) : Except Error Nat := do
  let product ← Word.mul rank cells
  pure (product / ranks)

/-- The part of `whole` with the cells from `first` to `stop`. -/
def ofCells {α : Type} [Zero α] [One α] [Add α] (whole : StructuredSpace α) (rowStarts : Array Nat)
    (order numDofs first stop : Nat) : Noted (IntervalPart α) := do
  let elements := stop - first
  let localDofs := elements * order + 1
  let localToGlobal := (List.range localDofs).map (first * order + ·)
  let gather := (List.range elements).flatMap fun e =>
    (List.range (order + 1)).map fun i => SignedIndex.positive (e * order + i)
  let restriction ← Restriction.ofGatherMap localDofs (order + 1) gather.toArray
  let positions := whole.vertices.data.extract (first * (order + 1)) (stop * (order + 1))
  let vertices ← VertexCoordinates.ofData 1 (order + 1) elements positions
  let boundary := localToGlobal.zipIdx.filter fun (g, _) => g == 0 || g + 1 == numDofs
  pure {
    space := { dim := 1, order, restriction, vertices, boundaryDofs := boundary.map Prod.snd }
    layout := {
      rowStarts
      prolongation := some (SparseMatrix.ofTriplets localDofs numDofs
        (localToGlobal.zipIdx.map fun (g, i) => (i, g, 1))) }
    localToGlobal }

end IntervalPart

/-- Cut the interval of `cells` cells into one part for each of `ranks` ranks. -/
def unitIntervalParts {α : Type} [Zero α] [One α] [Add α] [Div α] [NatCast α]
    (nodes : Nat → Except Error (List α)) (cells order ranks : Nat) :
    Noted (List (IntervalPart α)) := do
  if ¬ (0 < ranks ∧ ranks ≤ cells) then Noted.fail (.fault (.broken .ranksUpToCells))
  else
    let whole ← StructuredSpace.unitHypercube nodes 1 cells order
    let firstCells ← (List.range (ranks + 1)).mapM fun r =>
      (IntervalPart.firstCell cells ranks r : Noted Nat)
    let numDofs := cells * order + 1
    let rowStarts := ((firstCells.take ranks).map (· * order)) ++ [numDofs]
    (List.range ranks).mapM fun rank =>
      IntervalPart.ofCells whole rowStarts.toArray order numDofs
        (firstCells.getD rank 0) (firstCells.getD (rank + 1) 0)

end FemAssembly
