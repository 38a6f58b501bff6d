/-!
# Kinds of spaces and integrators

* `Discretization`: the conformity of a finite element space.
* `Integrator`: the domain integrators that a bilinear form is made of.
* `Discretization.integrators`: the pair of integrators that batched assembly handles on a space.
-/

namespace FemAssembly

/-- The conformity of a finite element space. -/
inductive Discretization where
  /-- continuous scalar elements -/
  | h1
  /-- tangentially continuous (edge) elements -/
  | nedelec
  /-- normally continuous (face) elements -/
  | raviartThomas
  deriving DecidableEq, Repr

/-- A domain integrator of a bilinear form. -/
inductive Integrator where
  | diffusion
  | mass
  | curlCurl
  | divDiv
  | vectorMass
  /-- an integrator that batched assembly knows nothing about -/
  | other
  deriving DecidableEq, Repr

namespace Discretization

/-- The name of a space in messages and stored forms. -/
def name : Discretization → String
  | h1 => "H1"
  | nedelec => "Nedelec"
  | raviartThomas => "RaviartThomas"

/-- Every space, in the order of declaration. -/
def all : List Discretization := [h1, nedelec, raviartThomas]

/-- The two integrators that batched assembly handles on a space: a differential one first, then a
mass. -/
def integrators : Discretization → Integrator × Integrator
  | h1 => (.diffusion, .mass)
  | nedelec => (.curlCurl, .vectorMass)
  | raviartThomas => (.divDiv, .vectorMass)

/-- The pair of `kind` covers `list`: this is one integrator of the pair, or both in either order.
-/
def covers (kind : Discretization) (list : List Integrator) : Bool :=
  let (a, b) := kind.integrators
  match list with
  | [i] => i = a ∨ i = b
  | [i, j] => (i = a ∧ j = b) ∨ (i = b ∧ j = a)
  | _ => false

end Discretization

namespace Integrator

/-- The name of the integrator in messages and stored forms. -/
def name : Integrator → String
  | diffusion => "Diffusion"
  | mass => "Mass"
  | curlCurl => "CurlCurl"
  | divDiv => "DivDiv"
  | vectorMass => "VectorMass"
  | other => "Other"

/-- Every integrator, in the order of declaration. -/
def all : List Integrator := [diffusion, mass, curlCurl, divDiv, vectorMass, other]

end Integrator

end FemAssembly
