import FemAssembly.Restriction

/-!
# Vectors on a restriction

A vector has either one value per DOF or one value per slot of an element.

* `Restriction.gatherValues`: the values of the DOFs, seen from the slots.
* `Restriction.scatterAdd`: the values of the slots added up at their DOFs, the transpose.
-/

namespace FemAssembly

namespace Restriction

variable {α : Type} (r : Restriction)

/-- The vector `dofValues` has one value for each DOF of `r`, and `slotValues` one for each slot. -/
def checkLengths (dofValues slotValues : Array α) : Except Error Unit :=
  if dofValues.size ≠ r.numDofs then .error (.fault (.broken .dofVectorLength))
  else if slotValues.size ≠ r.gather.size then .error (.fault (.broken .slotVectorLength))
  else .ok ()

variable [Zero α] [Neg α]

/-- Overwrite `slotValues` with `dofValues`, each seen with the orientation of its slot. -/
def gatherValues (dofValues slotValues : Array α) : Except Error (Array α) := do
  r.checkLengths dofValues slotValues
  pure (r.gather.map fun s => s.orient (dofValues.getD s.index 0))

/-- The sum of the `slotValues` at one DOF, in the order of its `list`, from zero. -/
def slotSum [Add α] (slotValues : Array α) (list : Array SignedIndex) : α :=
  list.foldl (fun sum s => sum + s.orient (slotValues.getD s.index 0)) 0

/-- Add to each of the `dofValues` the sum of the `slotValues` that reference it. -/
def scatterAdd [Add α] (slotValues dofValues : Array α) : Except Error (Array α) := do
  r.checkLengths dofValues slotValues
  pure (dofValues.mapIdx fun dof value => value + slotSum slotValues (r.incident.getD dof #[]))

end Restriction

end FemAssembly
