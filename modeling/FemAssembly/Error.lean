import FemAssembly.Form.Kind

/-!
# What can go wrong

Every operation of the library that can fail does so with an `Error`, a cause with the numbers that
belong to it. Its wording is in one place, `Error.message?`.

* `Fault`: the caller broke a precondition, such as an index outside its array. Only a documented
  precondition (`Precondition`) has a text.
* `Inconsistency`: data that do not fit together.
* `KernelFailure`: an element kernel, or the data built for one, failed.
* `MessageFailure`: messages between ranks failed.
-/

namespace FemAssembly

/-- The `texts` between brackets, separated by commas. -/
def bracketed (texts : List String) : String :=
  "[" ++ ", ".intercalate texts ++ "]"

/-! ## Broken preconditions -/

/-- A precondition that an operation documents and checks. -/
inductive Precondition where
  | positiveOrder
  | oneToThreeDimensions
  | someCells
  | ranksUpToCells
  | dofVectorLength
  | slotVectorLength
  deriving DecidableEq, Repr

/-- The fixed part of the text that reports a broken `Precondition`. -/
def Precondition.message : Precondition → String
  | positiveOrder => "Gauss-Lobatto points require positive order"
  | oneToThreeDimensions => "Dimension must be 1, 2 or 3"
  | someCells => "Need at least one cell per dimension"
  | ranksUpToCells => "Need between 1 and"
  | dofVectorLength => "L-vector length must match number of DOFs"
  | slotVectorLength => "E-vector length must match gather map"

/-- A request for something that does not exist. -/
inductive Fault where
  /-- an index or a range outside its array -/
  | outOfRange
  /-- a size, an index or a difference that is no machine word -/
  | overflow
  | broken (condition : Precondition)
  deriving DecidableEq, Repr

/-! ## Causes -/

/-- Why batched assembly does not handle a form. -/
inductive UnsupportedForm where
  | tensorBasis
  | integrators (kind : Discretization) (given : List Integrator)
  deriving DecidableEq, Repr

/-- Data that do not fit together. -/
inductive Inconsistency where
  | templateSize (entries slots width : Nat)
  | templateColumn (column slots : Nat)
  | templateRepeats (row : Nat)
  | gatherWithoutSlots
  | gatherLength (length slots : Nat)
  | gatherDof (dof numDofs : Nat)
  | unevenElements
  | traversalSlots (restriction template : Nat)
  | assemblerSlots (restriction template values : Nat)
  | assemblerWidth (values template : Nat)
  | assemblerElements (values restriction : Nat)
  | essentialDof (dof rows : Nat)
  | fillCount (written row reserved : Nat)
  | rowStarts (entries : Nat) (given : List Nat)
  | rowStartsOrder
  | ownRow (row rank rows : Nat)
  | localBlock (rows columns rank owned : Nat)
  | rowBlock (rank owned global rows columns : Nat)
  | prolongation (rows columns blockRows global blockColumns : Nat)
  | ownColumn (column rank : Nat)
  | foreignRequest (peer row rank : Nat)
  | exchangeRow (row given : Nat)
  | foreignContribution (rank row : Nat)
  | vectorLength (given rank rows : Nat)
  /-- a collaborator's own words -/
  | reported (text : String)
  deriving DecidableEq, Repr

/-- Why an element kernel, or the data built for one, failed. -/
inductive KernelFailure where
  | valuesLength (length expected width slots elements : Nat)
  | vertexLength (length expected : Nat)
  | misaligned (valuesWidth valuesSlots width slots : Nat)
  | matrixShape (element rows columns slots : Nat)
  | parameters (dim order : Nat)
  | vertices (expected dim given givenDim : Nat)
  | singularJacobian
  /-- a collaborator's own words -/
  | reported (text : String)
  deriving DecidableEq, Repr

/-- Why messages between ranks failed. -/
inductive MessageFailure where
  | alone (peer : Nat)
  | unknownPeer (peer size : Nat)
  | lost (rank peer : Nat)
  | wrongTag (rank peer expected found : Nat)
  | partialValues (bytes width : Nat)
  | handleWithoutData
  | receiveWithoutData
  | exchangeLength (expected received : Nat)
  | contributionCounts
  | unscripted (peer : Nat)
  deriving DecidableEq, Repr

/-- The ways in which an operation of the library fails. -/
inductive Error where
  | unsupported (cause : UnsupportedForm)
  | degreeExceeded (dof degree limit : Nat)
  | inconsistent (cause : Inconsistency)
  | kindMismatch (expected found : Discretization)
  | missingTemplateEntry (rowSlot columnSlot : Nat)
  | writeBudgetExceeded (row : Nat)
  | duplicateEntries
  | communication (cause : MessageFailure)
  /-- a failure of the kernel that an assembler called -/
  | kernel (cause : KernelFailure)
  /-- a failure of a kernel, or of the data built for one, outside an assembler -/
  | kernelSetup (cause : KernelFailure)
  /-- a stored form that is not one of the wanted type -/
  | rejected
  /-- a distributed step that needs a matrix or a plan which no earlier step built -/
  | noMatrix
  | fault (fault : Fault)
  deriving DecidableEq, Repr

/-! ## Wording -/

def UnsupportedForm.message : UnsupportedForm → String
  | tensorBasis => "batched assembly requires tensor-product elements"
  | integrators kind given =>
    let pair := kind.integrators
    s!"{kind.name} spaces support one or both of {bracketed [pair.1.name, pair.2.name]}, got " ++
      bracketed (given.map Integrator.name)

def Inconsistency.message : Inconsistency → String
  | templateSize entries slots width =>
    s!"sparsity mapping has {entries} entries, expected {slots} x {width}"
  | templateColumn column slots =>
    s!"sparsity mapping references local column {column} of an element with {slots} DOFs"
  | templateRepeats row => s!"local row {row} of the sparsity mapping lists a column twice"
  | gatherWithoutSlots => "gather map is non-empty, but elements have no DOFs"
  | gatherLength length slots =>
    s!"gather map length {length} is not a multiple of {slots} DOFs per element"
  | gatherDof dof numDofs =>
    s!"gather map references DOF {dof} but the space only has {numDofs} DOFs"
  | unevenElements => "all elements must have the same number of DOFs"
  | traversalSlots restriction template =>
    s!"restriction has {restriction} DOFs per element, but the sparsity template has {template}"
  | assemblerSlots restriction template values =>
    s!"DOFs per element disagree: restriction {restriction}, sparsity template {template}, " ++
      s!"values {values}"
  | assemblerWidth values template =>
    s!"values have {values} candidates per row, but the sparsity template has {template}"
  | assemblerElements values restriction =>
    s!"values are given for {values} elements, but the restriction has {restriction}"
  | essentialDof dof rows =>
    s!"essential DOF {dof} is out of bounds for a matrix with {rows} rows"
  | fillCount written row reserved =>
    s!"fill pass wrote {written} entries to row {row}, but {reserved} were reserved"
  | rowStarts entries given =>
    s!"row starts must begin at zero and have {entries} entries, got " ++
      bracketed (given.map toString)
  | rowStartsOrder => "row starts must be non-decreasing"
  | ownRow row rank rows =>
    s!"essential row {row} is out of bounds for rank {rank} with {rows} rows"
  | localBlock rows columns rank owned =>
    s!"local block is {rows}x{columns}, but rank {rank} owns {owned} rows"
  | rowBlock rank owned global rows columns =>
    s!"rank {rank} owns {owned} of {global} rows, but was given a {rows}x{columns} row block"
  | prolongation rows columns blockRows global blockColumns =>
    s!"prolongation is {rows}x{columns}, expected {blockRows}x{global} for a " ++
      s!"{blockRows}x{blockColumns} local block"
  | ownColumn column rank => s!"off-diagonal column {column} is owned by rank {rank} itself"
  | foreignRequest peer row rank =>
    s!"rank {peer} requested row {row} from rank {rank}, which does not own it"
  | exchangeRow row given =>
    s!"exchange requires local row {row}, but only {given} values were given"
  | foreignContribution rank row =>
    s!"rank {rank} received a contribution to row {row}, which it does not own"
  | vectorLength given rank rows =>
    s!"vector has {given} entries, but rank {rank} owns {rows} rows"
  | reported text => text

def KernelFailure.message : KernelFailure → String
  | valuesLength length expected width slots elements =>
    s!"Element values have length {length}, expected {expected} ({width} x {slots} x {elements})"
  | vertexLength length expected =>
    s!"Vertex coordinate buffer has length {length}, expected {expected}"
  | misaligned valuesWidth valuesSlots width slots =>
    s!"Element values ({valuesWidth} x {valuesSlots}) are not aligned with the sparsity " ++
      s!"template ({width} x {slots})"
  | matrixShape element rows columns slots =>
    s!"Element matrix {element} has shape ({rows}, {columns}), expected ({slots}, {slots})"
  | parameters dim order =>
    "H1 LOR kernel requires dimension 1-3 and positive order, got " ++
      s!"dim = {dim}, order = {order}"
  | vertices expected dim given givenDim =>
    s!"Expected {expected} vertices of dimension {dim} per element, " ++
      s!"got {given} of dimension {givenDim}"
  | singularJacobian => "Singular LOR sub-element Jacobian encountered"
  | reported text => text

/-- The text of the number `tag`. -/
def tagText (tag : Nat) : String := s!"CommTag({tag})"

def MessageFailure.message : MessageFailure → String
  | alone peer => s!"serial communicator has no peer {peer}"
  | unknownPeer peer size => s!"peer {peer} does not exist in a communicator of size {size}"
  | lost rank peer => s!"rank {rank} lost its connection to rank {peer}"
  | wrongTag rank peer expected found =>
    s!"rank {rank} expected a message with tag {tagText expected} from rank {peer}, " ++
      s!"got {tagText found}"
  | partialValues bytes width =>
    s!"message of {bytes} bytes is not a whole number of {width}-byte values"
  | handleWithoutData => "receive handle completed without data"
  | receiveWithoutData => "receive completed without data"
  | exchangeLength expected received => s!"expected {expected} values, received {received}"
  | contributionCounts => "Galerkin contributions have mismatched index and value counts"
  | unscripted peer => s!"no scripted message from {peer}"

/-- The text of an `Error`. A rejected stored form, a missing matrix and a fault other than a broken
documented precondition have none. -/
def Error.message? : Error → Option String
  | unsupported cause => some ("batched assembly is not supported for this form: " ++ cause.message)
  | degreeExceeded dof degree limit =>
    some (s!"DOF {dof} is shared by {degree} elements, but at most {limit} are supported")
  | inconsistent cause => some ("verification failed: " ++ cause.message)
  | kindMismatch expected found =>
    some (s!"kernel computes {found.name} coefficients, but the form requires {expected.name}")
  | missingTemplateEntry rowSlot columnSlot =>
    some ("local sparsity template has no entry for local row " ++
      s!"{rowSlot}, column {columnSlot}")
  | writeBudgetExceeded row => some (s!"fill pass exceeded the reserved storage of row {row}")
  | duplicateEntries =>
    some "assembled data is not a valid CSR matrix: Input data contains duplicate entries."
  | communication cause => some ("communication failure: " ++ cause.message)
  | kernel cause => some ("local kernel failed: " ++ cause.message)
  | kernelSetup cause => some cause.message
  | rejected => none
  | noMatrix => none
  | fault (.broken condition) => some condition.message
  | fault _ => none

end FemAssembly
