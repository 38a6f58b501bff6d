import FemAssembly.Error

/-!
# Bilinear forms

A form is described by its space, whether the elements use a tensor-product basis, and its domain
integrators. `Form.check` decides whether batched assembly handles it, and says why not.
-/

namespace FemAssembly

/-- A description of a bilinear form on a finite element space. -/
structure Form where
  kind : Discretization
  /-- every element of the space uses a tensor-product basis -/
  tensorBasis : Bool := true
  /-- the domain integrators, in the order in which they were added -/
  integrators : List Integrator := []
  deriving DecidableEq, Repr

namespace Form

/-- The form `form` with `integrator` after its others. -/
def addIntegrator (form : Form) (integrator : Integrator) : Form :=
  { form with integrators := form.integrators ++ [integrator] }

def setTensorBasis (form : Form) (tensorBasis : Bool) : Form := { form with tensorBasis }

/-- The space of `form`, if batched assembly handles it. A missing tensor-product basis is reported
before the integrators. -/
def check (form : Form) : Except Error Discretization :=
  if !form.tensorBasis then .error (.unsupported .tensorBasis)
  else if !form.kind.covers form.integrators then
    .error (.unsupported (.integrators form.kind form.integrators))
  else .ok form.kind

def isSupported (form : Form) : Bool := form.check.isOk

theorem check_eq_ok_iff {form : Form} {kind : Discretization} :
    form.check = .ok kind ↔
      form.tensorBasis ∧ form.kind.covers form.integrators ∧ kind = form.kind := by
  unfold check
  cases form.tensorBasis <;> cases form.kind.covers form.integrators <;> simp [eq_comm]

end Form

end FemAssembly
