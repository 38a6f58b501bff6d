import FemAssembly.Event
import FemAssembly.SignedIndex
import FemAssembly.Word

/-!
# Restrictions

A restriction says which global degrees of freedom (DOFs) the slots of each element reference, and
with which orientation. It also holds the transpose: for every DOF, the slots that reference it, by
increasing element.

* `Restriction`: the gather map, with its transpose `incident`.
* `Restriction.ofGatherMap`, `Restriction.ofElementDofs`: the restriction of a gather map, or what
  is wrong with it.
* `referenceOffsets`, `sortPositions`: the transpose as one list with offsets, made by counting.
  `Restriction.offsets`, `Restriction.indices` are those of a restriction.
* `Restriction.incidence`: the elements and slots that reference a DOF.
-/

namespace FemAssembly

/-- The positions of `gather` sorted by the DOF that they reference, each with the orientation of
its entry. Positions are visited in order, so each list is increasing. -/
def incidenceTable (numDofs : Nat) (gather : Array SignedIndex) : Array (Array SignedIndex) :=
  gather.zipIdx.foldl
    (fun table (s, position) => table.modify s.index (·.push (s.withIndex position)))
    (Array.replicate numDofs #[])

/-! ## One list for all DOFs -/

/-- Count the references of every DOF in `gather`. The count of `dof` is entry `dof + 1`. -/
def countReferences (numDofs : Nat) (gather : Array SignedIndex) : Array Nat :=
  gather.foldl (fun counts s => counts.modify (s.index + 1) (· + 1))
    (Array.replicate (numDofs + 1) 0)

/-- Add up the entries of `counts` in place: in `steps` steps, entry `i + 1` takes entry `i`. -/
def accumulate (steps : Nat) (counts : Array Nat) : Array Nat :=
  (List.range steps).foldl (fun sums i => sums.modify (i + 1) (· + sums.getD i 0)) counts

/-- Where the list of each of the `numDofs` DOFs of `gather` starts, and where the last one ends. -/
def referenceOffsets (numDofs : Nat) (gather : Array SignedIndex) : Array Nat :=
  accumulate numDofs (countReferences numDofs gather)

/-- The positions that are being sorted by DOF, `indices`, with the next free place of each DOF in
`cursors`. -/
structure PositionSort where
  cursors : Array Nat
  indices : Array SignedIndex

/-- Put `position`, with the orientation of its entry `s`, at the cursor of the DOF `s.index`, and
move the cursor on. -/
def PositionSort.place (sort : PositionSort) (s : SignedIndex) (position : Nat) :
    PositionSort :=
  let next := sort.cursors.getD s.index 0
  { cursors := sort.cursors.setIfInBounds s.index (next + 1)
    indices := sort.indices.setIfInBounds next (s.withIndex position) }

/-- The positions of `gather` sorted by DOF, where the cursor of every DOF begins at its entry of
`offsets`. -/
def sortPositions (offsets : Array Nat) (gather : Array SignedIndex) : Array SignedIndex :=
  let start : PositionSort := ⟨offsets.pop, Array.replicate gather.size (.positive 0)⟩
  (gather.zipIdx.foldl (fun sort (s, position) => sort.place s position) start).indices

/-- The incidence of elements and DOFs, in both directions. -/
structure Restriction where
  numDofs : Nat
  /-- the number of slots of every element -/
  slots : Nat
  /-- the DOF of slot `s` of element `e` is entry `slots * e + s` -/
  gather : Array SignedIndex
  /-- for every DOF, the positions of the gather map that reference it -/
  incident : Array (Array SignedIndex)
  slots_dvd : slots ∣ gather.size
  index_lt : ∀ s ∈ gather, s.index < numDofs
  size_lt : gather.size < Word.signedBound
  incident_eq : incident = incidenceTable numDofs gather
  deriving DecidableEq

namespace Restriction

/-- The restriction of the map `gather`, with `slots` entries for each element and `numDofs` DOFs.
-/
def ofGatherMap (numDofs slots : Nat) (gather : Array SignedIndex) : Noted Restriction := do
  if hdvd : slots ∣ gather.size then
    match hlt : gather.find? (fun s => decide (numDofs ≤ s.index)) with
    | some s => Noted.fail (.inconsistent (.gatherDof s.index numDofs))
    | none =>
      if hsize : gather.size < Word.signedBound then
        let rows ← Word.add numDofs 1
        Word.reserve rows 8
        unless slots = 0 do
          Noted.note (.restrictionBuilt numDofs (gather.size / slots) slots)
        pure {
          numDofs, slots, gather
          incident := incidenceTable numDofs gather
          slots_dvd := hdvd
          index_lt := by
            intro s hs
            have := Array.find?_eq_none.mp hlt s hs
            simpa using this
          size_lt := hsize
          incident_eq := rfl }
      else Noted.fail (.fault .overflow)
  else if slots = 0 then Noted.fail (.inconsistent .gatherWithoutSlots)
  else Noted.fail (.inconsistent (.gatherLength gather.size slots))

/-- The restriction of the lists of DOFs in `elements`, which must have one length. -/
def ofElementDofs (numDofs : Nat) (elements : List (List SignedIndex)) : Noted Restriction :=
  let slots := (elements.head?.map List.length).getD 0
  if elements.any fun dofs => dofs.length ≠ slots then
    Noted.fail (.inconsistent .unevenElements)
  else ofGatherMap numDofs slots elements.flatten.toArray

variable (r : Restriction)

def numElements : Nat := r.gather.size / r.slots

/-- Where the list of each DOF starts in `r.indices`, and where the last one ends. -/
def offsets : List Nat := (referenceOffsets r.numDofs r.gather).toList

/-- The lists of all DOFs of `r`, one after the other. -/
def indices : List SignedIndex :=
  (sortPositions (referenceOffsets r.numDofs r.gather) r.gather).toList

/-- The signed DOF of `slot` of `element`. Only the position in the gather map is checked. -/
def elementDof (element slot : Nat) : Except Error SignedIndex :=
  Word.orFault r.gather[r.slots * element + slot]?

/-- The signed DOFs of `element`, slot by slot. -/
def elementDofs (element : Nat) : Except Error (List SignedIndex) :=
  let first := r.slots * element
  if first + r.slots ≤ r.gather.size then
    .ok (r.gather.extract first (first + r.slots)).toList
  else .error (.fault .outOfRange)

/-- The positions of the gather map that reference `dof`, with their orientations. -/
def incidentIndices (dof : Nat) : Except Error (List SignedIndex) :=
  (Word.orFault r.incident[dof]?).map Array.toList

/-- The number of slots that reference `dof`. -/
def degree (dof : Nat) : Except Error Nat :=
  (Word.orFault r.incident[dof]?).map Array.size

def maxDegree : Nat := r.incident.foldl (fun largest list => max largest list.size) 0

/-- No DOF is referenced by more than `limit` slots. The first one that is, is reported. -/
def checkDegree (limit : Nat) : Except Error Unit :=
  match r.incident.zipIdx.find? fun (list, _) => decide (limit < list.size) with
  | some (list, dof) => .error (.degreeExceeded dof list.size limit)
  | none => .ok ()

/-- The pairs of an element and a signed slot that reference `dof`, by increasing element. -/
def incidence (dof : Nat) : Except Error (List (Nat × SignedIndex)) :=
  (r.incidentIndices dof).map fun list =>
    list.map fun s => (s.index / r.slots, s.withIndex (s.index % r.slots))

/-- The restriction `r` provides itself. -/
def provide : Except Error Restriction := .ok r

theorem size_eq : r.gather.size = r.slots * r.numElements :=
  (Nat.mul_div_cancel' r.slots_dvd).symm

end Restriction

end FemAssembly
