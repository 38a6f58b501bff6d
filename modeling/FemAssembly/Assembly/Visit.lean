import FemAssembly.Element.Values
import FemAssembly.Restriction
import FemAssembly.Sequence.Shared
import FemAssembly.Template

/-!
# Visits

Both passes of assembly go over the row slots of all elements and the present candidates of their
template rows. A candidate of an element is a global pair of degrees of freedom (DOFs). Of all
elements that share a pair exactly one visits it, so that each entry of the matrix is written once.

* `Restriction.firstCommonElement`: the least element that references two DOFs.
* `visits`: the pairs that an element has to write for one of its row slots.
* `entryValue`: the value of a visited entry.
* `tasks`: the visits of every row slot of every element.
-/

namespace FemAssembly

/-- How a visited pair is written. -/
inductive Ownership where
  /-- one of the DOFs is referenced once, so no other element shares the pair -/
  | direct
  /-- the visiting element is the least that references both DOFs, and writes the sum over all -/
  | owner
  deriving DecidableEq, Repr

/-- A global pair of DOFs, `row` and `column`, that an element writes. -/
structure Visit where
  element : Nat
  rowSlot : Nat
  /-- the candidate of the template row -/
  candidate : Nat
  row : SignedIndex
  column : SignedIndex
  ownership : Ownership
  deriving DecidableEq, Repr

/-- The least element that references both `a` and `b`. The elements of a DOF increase, so it is the
first that a merge of the two lists finds. -/
def Restriction.firstCommonElement (r : Restriction) (a b : Nat) : Except Error (Option Nat) := do
  let first ← r.incidence a
  let second ← r.incidence b
  pure (firstShared (first.map Prod.fst) (second.map Prod.fst))

/-- How `element` writes the pair of `row` and `column`, if it does. -/
def ownershipOf (r : Restriction) (element row column : Nat) : Except Error (Option Ownership) := do
  let rowDegree ← r.degree row
  let columnDegree ← r.degree column
  if rowDegree = 1 ∨ columnDegree = 1 then pure (some .direct)
  else
    let first ← r.firstCommonElement row column
    pure (if first = some element then some .owner else none)

/-- The visits of row slot `rowSlot` of `element`, by increasing candidate. -/
def visits (r : Restriction) (t : Template) (element rowSlot : Nat) :
    Except Error (List Visit) := do
  let row ← r.elementDof element rowSlot
  let columns ← t.rowColumns rowSlot
  let found ← columns.mapM fun (candidate, slot) => do
    let column ← r.elementDof element slot
    let ownership ← ownershipOf r element row.index column.index
    pure (ownership.map (Visit.mk element rowSlot candidate row column))
  pure (found.filterMap id)

/-- The visits of every row slot of `r`, element by element. -/
def tasks (r : Restriction) (t : Template) : Except Error (List (List Visit)) :=
  (List.range (r.numElements * r.slots)).mapM fun i => visits r t (i / r.slots) (i % r.slots)

/-! ## Values -/

/-- The pairs of slots through which elements reference `row` and `column`, by row slot and then by
column slot. -/
def sharedSlots (r : Restriction) (row column : Nat) :
    Except Error (List (Nat × SignedIndex × SignedIndex)) := do
  let rowSlots ← r.incidence row
  let columnSlots ← r.incidence column
  pure (rowSlots.flatMap fun (element, i) =>
    columnSlots.filterMap fun (other, j) => if element = other then some (element, i, j) else none)

variable {α : Type} [One α] [Neg α] [Mul α]

/-- The value that the slots `i` and `j` of `element` contribute, signed by their relative
orientation. The template must name `j` in row `i`. -/
def slotValue (t : Template) (v : ElementValues α) (element : Nat) (i j : SignedIndex) :
    Except Error α := do
  match ← t.findSlot i.index j.index with
  | none => .error (.missingTemplateEntry i.index j.index)
  | some k =>
    let value ← v.get k i.index element
    pure (i.relativeSign j * value)

/-- The value of the entry of `visit`: the element's own value, or the sum over all elements that
share the pair, from zero. -/
def entryValue [Zero α] [Add α] (r : Restriction) (t : Template) (v : ElementValues α)
    (visit : Visit) : Except Error α :=
  match visit.ownership with
  | .direct => do
    let value ← v.get visit.candidate visit.rowSlot visit.element
    pure (visit.row.relativeSign visit.column * value)
  | .owner => do
    let shared ← sharedSlots r visit.row.index visit.column.index
    shared.foldlM (fun sum (element, i, j) => do
      let value ← slotValue t v element i j
      pure (sum + value)) 0

end FemAssembly
