import FemAssembly.Event
import FemAssembly.Sparse.Matrix

/-!
# Essential degrees of freedom

An essential degree of freedom (DOF) is eliminated from a matrix by clearing the stored entries that
couple it to others, in its row and, where the transposed position is stored, in its column. The
diagonal and the pattern stay.

* `SparseMatrix.decouple`: clear one coupling in both directions.
* `SparseMatrix.eliminateDof`: clear all couplings of one DOF.
* `SparseMatrix.eliminateKeepDiagonal`: eliminate a list of DOFs. A failure keeps the matrix as far
  as it was changed.
-/

namespace FemAssembly

namespace SparseMatrix

variable {α : Type} [Zero α]

/-- Clear the coupling of two different DOFs: the entry of `M` at `(dof, column)` and its transpose.
-/
def decouple (dof : Nat) (M : SparseMatrix α) (column : Nat) : SparseMatrix α :=
  if column = dof then M else (M.replace dof column 0).replace column dof 0

/-- Clear every coupling in the row of `dof`, by increasing column. -/
def decoupleRow (M : SparseMatrix α) (dof : Nat) : SparseMatrix α :=
  (M.row dof).columns.foldl (decouple dof) M

theorem sameShape_decouple (dof : Nat) (M : SparseMatrix α) (column : Nat) :
    SameShape (decouple dof M column) M := by
  unfold decouple
  split
  · exact .refl M
  · exact (sameShape_mapRow ..).trans (sameShape_mapRow ..)

theorem sameShape_foldl_decouple (dof : Nat) (columns : List Nat) (M : SparseMatrix α) :
    SameShape (columns.foldl (decouple dof) M) M :=
  sameShape_foldl (sameShape_decouple dof) columns M

/-- Clear every coupling of `dof`. The row of a column is looked up to clear the transpose; a column
past the last row of `M` ends the elimination there, after its own entry is cleared. -/
def eliminateDof (M : SparseMatrix α) (dof : Nat) : SparseMatrix α × Except Error Unit :=
  let (inside, outside) := (M.row dof).columns.span (· < M.nrows)
  ((inside ++ outside.take 1).foldl (decouple dof) M,
    if outside.isEmpty then .ok () else .error (.fault .outOfRange))

/-- Eliminate the DOFs of a list one after the other, up to the first failure. -/
def eliminateDofs (M : SparseMatrix α) : List Nat → SparseMatrix α × Except Error Unit
  | [] => (M, .ok ())
  | dof :: dofs =>
    match M.eliminateDof dof with
    | (M, .ok ()) => M.eliminateDofs dofs
    | failed => failed

/-- Eliminate the essential `dofs` and keep the diagonal. A DOF past the last row of `M` is reported
before anything is changed. -/
def eliminateKeepDiagonal (M : SparseMatrix α) (dofs : List Nat) :
    SparseMatrix α × Noted Unit :=
  match dofs.find? (M.nrows ≤ ·) with
  | some dof => (M, Noted.fail (.inconsistent (.essentialDof dof M.nrows)))
  | none =>
    match M.eliminateDofs dofs with
    | (M, .ok ()) => (M, Noted.note (.eliminated dofs.length))
    | (M, .error error) => (M, Noted.fail error)

end SparseMatrix

end FemAssembly
