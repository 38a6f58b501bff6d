import FemAssembly.Element.Vertices
import FemAssembly.Grid
import FemAssembly.Restriction

/-!
# Structured spaces

The unit cube of any dimension from one to three is cut into equal cells, each an H1 element whose
nodes form a grid. Neighbouring cells share the nodes on their common face.

* `StructuredSpace`: the restriction of such a space, the coordinates of its nodes, and the degrees
  of freedom (DOFs) on the boundary.
* `StructuredSpace.unitHypercube`: the space with a given family of node points on `[0, 1]`.
-/

namespace FemAssembly

/-- An H1 space on a grid of cells, with the coordinates of its nodes. -/
structure StructuredSpace (α : Type) where
  dim : Nat
  order : Nat
  restriction : Restriction
  vertices : VertexCoordinates α
  /-- the DOFs on the boundary, in increasing order -/
  boundaryDofs : List Nat

namespace StructuredSpace

/-- The grid coordinates of node `node` of cell `element`. -/
def nodeCoords (dim cells order element node : Nat) : List Nat :=
  List.zipWith (fun cell inner => cell * order + inner) (Grid.coords dim cells element)
    (Grid.coords dim (order + 1) node)

/-- The DOF of node `node` of cell `element`. -/
def nodeDof (dim cells order element node : Nat) : Nat :=
  Grid.strided (cells * order + 1) (nodeCoords dim cells order element node)

/-- The pairs of a cell and one of its nodes, cell by cell. -/
def cellNodes (elements nodes : Nat) : List (Nat × Nat) :=
  (List.range elements).flatMap fun element => (List.range nodes).map fun node => (element, node)

/-- The DOF `dof` lies on the boundary: one of its coordinates is `0` or `points - 1`. -/
def onBoundary (dim points dof : Nat) : Bool :=
  (Grid.coords dim points dof).any fun x => x == 0 || x + 1 == points

variable {α : Type} [Zero α] [Add α] [Div α] [NatCast α]

/-- The coordinates of node `node` of cell `element`, where `points` are the node points on
`[0, 1]`. -/
def nodePosition (points : Array α) (dim cells order element node : Nat) : List α :=
  List.zipWith (fun (cell inner : Nat) => ((cell : α) + points.getD inner 0) / (cells : α))
    (Grid.coords dim cells element) (Grid.coords dim (order + 1) node)

/-- The space of order `order` on the unit cube with `cells` cells in each of `dim` directions. -/
def unitHypercube (nodes : Nat → Except Error (List α)) (dim cells order : Nat) :
    Noted (StructuredSpace α) := do
  if ¬ (1 ≤ dim ∧ dim ≤ 3) then Noted.fail (.fault (.broken .oneToThreeDimensions))
  else if cells = 0 then Noted.fail (.fault (.broken .someCells))
  else
    let points ← nodes order
    let perDim ← Word.mul cells order >>= (Word.add · 1)
    let numDofs ← Word.pow perDim dim
    let elements ← Word.pow cells dim
    let perElement ← Word.pow (order + 1) dim
    let entries ← Word.mul elements perElement
    let coordinates ← Word.mul entries dim
    Word.reserve coordinates 8
    let pairs := cellNodes elements perElement
    let gather := pairs.map fun (element, node) =>
      SignedIndex.positive (nodeDof dim cells order element node)
    let restriction ← Restriction.ofGatherMap numDofs perElement gather.toArray
    let positions := pairs.flatMap fun (element, node) =>
      nodePosition points.toArray dim cells order element node
    let vertices ← VertexCoordinates.ofData dim perElement elements positions.toArray
    pure {
      dim, order, restriction, vertices
      boundaryDofs := (List.range numDofs).filter (onBoundary dim perDim) }

end StructuredSpace

end FemAssembly
