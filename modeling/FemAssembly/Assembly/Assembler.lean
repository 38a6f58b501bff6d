import FemAssembly.Assembly.Dirichlet
import FemAssembly.Assembly.Passes
import FemAssembly.Element.Kernel
import FemAssembly.Form
import FemAssembly.Options

/-!
# Assemblers

An assembler holds a restriction, a template and values that fit together, and makes the global
matrix from them.

* `Assembler.ofParts`: the assembler of given parts, if they fit.
* `Assembler.create`: the assembler of a form, from an incidence, a kernel and a geometry.
* `Assembler.assembleUnder`: the matrix, with a schedule for each of the two passes.
* `Assembler.assembleWithoutEssential`, `Assembler.assemble`: the matrix, before and after the
  elimination of essential degrees of freedom.
-/

namespace FemAssembly

/-- A restriction, a template and values that fit together. -/
structure Assembler (α : Type) where
  kind : Discretization
  restriction : Restriction
  template : Template
  values : ElementValues α
  options : Options
  degree_le : restriction.checkDegree options.maxDegree = .ok ()
  template_slots : template.slots = restriction.slots
  values_slots : values.slots = restriction.slots
  values_width : values.width = template.width
  values_elements : values.numElements = restriction.numElements

namespace Assembler

variable {α : Type}

/-- The assembler of the parts `r`, `t` and `v`. The degrees of `r` are checked first, then slots,
candidates and elements. -/
def ofParts (kind : Discretization) (r : Restriction) (t : Template) (v : ElementValues α)
    (options : Options) : Noted (Assembler α) :=
  match hdegree : r.checkDegree options.maxDegree with
  | .error error => Noted.fail error
  | .ok () =>
    if hslots : t.slots = r.slots ∧ v.slots = r.slots then
      if hwidth : v.width = t.width then
        if helements : v.numElements = r.numElements then do
          Noted.note (.assemblerPrepared kind r.numDofs r.numElements t.width)
          pure {
            kind, restriction := r, template := t, values := v, options
            degree_le := hdegree
            template_slots := hslots.1
            values_slots := hslots.2
            values_width := hwidth
            values_elements := helements }
        else Noted.fail (.inconsistent (.assemblerElements v.numElements r.numElements))
      else Noted.fail (.inconsistent (.assemblerWidth v.width t.width))
    else Noted.fail (.inconsistent (.assemblerSlots r.slots t.slots v.slots))

/-- A failure of a kernel or a geometry, as the assembler that called it reports it. -/
def reportKernel {β : Type} : Except Error β → Except Error β
  | .error (.kernelSetup cause) => .error (.kernel cause)
  | result => result

/-- The assembler of `form`. The form is checked first, then the kind of `kernel`, the `incidence`
and its degrees, the `geometry`, and the matrices of the kernel. -/
def create (form : Form) (incidence : Except Error Restriction) (kernel : LocalKernel α)
    (geometry : Except Error (VertexCoordinates α)) (options : Options) : Noted (Assembler α) := do
  let kind ← form.check
  if kernel.kind ≠ kind then Noted.fail (.kindMismatch kind kernel.kind)
  else
    let restriction ← incidence
    restriction.checkDegree options.maxDegree
    let vertices ← reportKernel geometry
    let matrices ← reportKernel (kernel.assemble vertices)
    ofParts kind restriction matrices.template matrices.values options

variable (a : Assembler α)

def numDofs : Nat := a.restriction.numDofs

/-- The template of `a` has as many slots as its restriction. -/
def checkSlots : Except Error Unit :=
  if a.restriction.slots = a.template.slots then .ok ()
  else .error (.inconsistent (.traversalSlots a.restriction.slots a.template.slots))

variable [Zero α] [One α] [Neg α] [Add α] [Mul α]

/-- The matrix of `a`, where the count pass takes the visits in the order of `countSchedule` and the
fill pass in that of `fillSchedule`. -/
def assembleUnder (countSchedule fillSchedule : List Visit) : Noted (SparseMatrix α) := do
  let counts ← countPass a.numDofs countSchedule
  let offsets := (offsets counts.toList).toArray
  let nnz := offsets.getD a.numDofs 0
  Noted.note (.countFinished a.numDofs nnz)
  let storage ← fillPass a.restriction a.template a.values offsets fillSchedule
  Noted.note (.fillFinished nnz)
  let matrix ← matrixOfStorage a.numDofs offsets storage
  Noted.note (.assembled a.kind a.numDofs a.restriction.numElements matrix.nnz)
  pure matrix

/-- The matrix of `a` before any elimination. Every schedule gives the same matrix, whatever the
execution; the visits are taken in the order of the row slots. -/
def assembleWithoutEssential : Noted (SparseMatrix α) := do
  a.checkSlots
  let tasks ← tasks a.restriction a.template
  a.assembleUnder tasks.flatten tasks.flatten

/-- The matrix of `a` after the elimination of the DOFs in `essential`. The diagonal is kept. -/
def assemble (essential : List Nat) : Noted (SparseMatrix α) := do
  let matrix ← a.assembleWithoutEssential
  if essential.isEmpty then pure matrix
  else
    let (matrix, outcome) := matrix.eliminateKeepDiagonal essential
    outcome
    pure matrix

end Assembler

end FemAssembly
