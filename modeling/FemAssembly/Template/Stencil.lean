import FemAssembly.Grid
import FemAssembly.Template

/-!
# The tensor stencil

The nodes of a tensor-product element of order `order` form a grid of `order + 1` points in each
direction. A node is coupled to the nodes that differ from it by at most one in every direction.

* `Template.stencilColumn`: the neighbour of a node at an offset. Candidate `k` of a row is the
  offset whose coordinates, less one, are the base-three digits of `k`.
* `Template.tensorStencil`: the template of all neighbours.
-/

namespace FemAssembly

namespace Template

/-- The neighbour of node `row` at offset `k`, with `none` outside the grid. Coordinates are shifted
by one, so that the grid is `1, …, order + 1` in each of `dim` directions. -/
def stencilColumn (dim order row k : Nat) : Option Nat :=
  let shifted := List.zipWith (· + ·) (Grid.coords dim (order + 1) row) (Grid.coords dim 3 k)
  if shifted.all fun y => 1 ≤ y && y ≤ order + 1 then
    some (Grid.index (order + 1) (shifted.map (· - 1)))
  else none

/-- The nearest-neighbour template of a grid with `order + 1` points in each of `dim` directions. -/
def tensorStencil (dim order : Nat) : Except Error Template := do
  let points ← Word.add order 1
  let slots ← Word.pow points dim
  let width ← Word.pow 3 dim
  let entries ← Word.mul slots width
  Word.reserve entries 16
  ofMapping slots width ((List.range slots).flatMap fun row =>
    (List.range width).map fun k => stencilColumn dim order row k).toArray

end Template

end FemAssembly
