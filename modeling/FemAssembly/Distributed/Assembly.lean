import FemAssembly.Assembly.Assembler
import FemAssembly.Distributed.Dirichlet
import FemAssembly.Distributed.Galerkin

/-!
# Distributed assembly

* `Assembler.assembleDistributed`: every rank assembles the block of its own elements, and the
  blocks are combined into a distributed matrix, from which essential degrees of freedom are
  eliminated.
-/

namespace FemAssembly

namespace Assembler

variable {α β σ : Type} [Zero α] [One α] [Neg α] [Add α] [Mul α] [BEq α]
  [Plain β UInt8] [Plain β Nat] [Plain β α]

/-- The distributed matrix of the assemblers `a` of all ranks. The rows in `essential` are counted
from the first row of the rank. Other than in serial assembly, their diagonal becomes one. -/
def assembleDistributed (a : Assembler α) (place : Place) (layout : Layout α)
    (essential : List Nat) : RankProgram β σ (DistributedMatrix α) := do
  let block ← a.assembleWithoutEssential
  let whole ← DistributedMatrix.fromLocalBlock place layout block false
  let matrix ← whole.eliminate essential a.options.columnElimination
  RankProgram.noteEvent (.distributed place.rank place.size matrix.numLocalRows matrix.globalSize
    matrix.diagonal.nnz matrix.offDiagonal.nnz)
  pure matrix

end Assembler

end FemAssembly
