import FemAssembly.Binary64
import FemAssembly.Element.Dense
import FemAssembly.Element.Kernel
import FemAssembly.Template.Stencil

/-!
# The H1 kernel on the low-order refinement

An element of order `p` is cut into `p ^ dim` multilinear cells, whose corners are the nodes of the
element. The kernel integrates `κ ∇u · ∇v + ρ u v` over the cells with a two-point rule in every
direction and adds up the cell matrices in the nearest-neighbour stencil of the nodes.

* `TwoPoint`: the two points of the rule on `[0, 1]`, each with weight one half.
* `H1Kernel.cellMatrix`: the matrix of one cell.
* `H1Kernel.addElement`: the stencil values of one element.
* `H1Kernel.assemble`: the local matrices of all elements.
-/

namespace FemAssembly

/-- A rule for integrals over `[0, 1]` with the points `lower` and `upper` of equal weight. -/
structure TwoPoint (α : Type) where
  lower : α
  upper : α

/-- The Gauss rule on two points, exact for cubic polynomials. -/
def TwoPoint.gauss : TwoPoint Binary64 :=
  let offset := 0.5 / Float.sqrt 3.0
  ⟨.ofFloat (0.5 - offset), .ofFloat (0.5 + offset)⟩

/-- Diffusion and mass on H1 elements of dimension `dim` and order `order`. -/
structure H1Kernel (α : Type) where
  dim : Nat
  order : Nat
  /-- the coefficient `κ` -/
  diffusion : α
  /-- the coefficient `ρ` -/
  mass : α
  rule : TwoPoint α

namespace H1Kernel

open Grid (numCorners volume)

variable {α : Type} [Zero α] [One α] [Add α] [Sub α] [Neg α] [Mul α] [Div α]

/-- The absolute value of `x`. -/
def magnitude [LT α] [DecidableLT α] (x : α) : α := if x < 0 then -x else x

section Shape

variable {dim : Nat}

/-- The coordinates of the integration point of corner `q`: `rule.upper` in the directions `d` in
which `q` has its bit set, and `rule.lower` in the others. -/
def point (rule : TwoPoint α) (q : Nat) (d : Fin dim) : α :=
  if q.testBit d then rule.upper else rule.lower

/-- The factor of the shape function of corner `a` in direction `d`, at `x`. -/
def factor (x : Fin dim → α) (a : Nat) (d : Fin dim) : α :=
  if a.testBit d then x d else 1 - x d

/-- The shape function of corner `a` of the reference cell, at `x`. -/
def shape (x : Fin dim → α) (a : Nat) : α := prodFin dim (factor x a)

/-- The derivative of `shape x a` in direction `d`. -/
def shapeDerivative (x : Fin dim → α) (a : Nat) (d : Fin dim) : α :=
  prodFin dim fun e => if e = d then (if a.testBit e then 1 else -1) else factor x a e

/-- The part of the cell matrix that the integration point `x` contributes: the diffusion and the
mass of each pair of corners. The corners of the cell are the columns of `corners`. -/
def pointMatrix [BEq α] [LT α] [DecidableLT α] (k : H1Kernel α)
    (corners : Dense dim (numCorners dim) α) (x : Fin dim → α) :
    Except Error (Fin (numCorners dim) → Fin (numCorners dim) → α × α) := do
  let shapes : Vector α (numCorners dim) := Vector.ofFn fun a => shape x a
  let reference : Dense dim (numCorners dim) α := Dense.ofFn fun d a => shapeDerivative x a d
  let jacobian : Dense dim dim α :=
    Dense.ofFn fun i j => sumFin (numCorners dim) fun a => corners[i][a] * reference[j][a]
  match jacobian.inverse? with
  | none => .error (.kernelSetup .singularJacobian)
  | some inverse =>
    let gradients : Dense dim (numCorners dim) α :=
      Dense.ofFn fun d a => sumFin dim fun e => inverse[e][d] * reference[e][a]
    let half : α := 1 / (1 + 1)
    let scale := prodFin dim (fun _ => half) * magnitude jacobian.det
    let diffusion := k.diffusion * scale
    let mass := k.mass * scale
    pure fun a b =>
      ((sumFin dim fun d => gradients[d][a] * gradients[d][b]) * diffusion,
        shapes[a] * shapes[b] * mass)

/-- The matrix of the cell with the corners `corners`: the sum over the points of `k.rule`. -/
def cellMatrix [BEq α] [LT α] [DecidableLT α] (k : H1Kernel α)
    (corners : Dense dim (numCorners dim) α) :
    Except Error (Dense (numCorners dim) (numCorners dim) α) :=
  let addPoint (matrix : Dense (numCorners dim) (numCorners dim) α) (q : Nat) := do
    let part ← k.pointMatrix corners (point k.rule q)
    pure (Dense.ofFn fun a b => matrix[a][b] + (part a b).1 + (part a b).2)
  (List.range (numCorners dim)).foldlM addPoint (Dense.ofFn fun _ _ => 0)

end Shape

/-- The node of an element of order `order` that is corner `corner` of its cell `cell`. -/
def cornerNode (dim order cell corner : Nat) : Nat :=
  Grid.index (order + 1)
    (List.zipWith (· + ·) (Grid.coords dim order cell) (Grid.coords dim 2 corner))

/-- The candidate that stands for corner `b` in the stencil of corner `a`. -/
def cornerCandidate (dim a b : Nat) : Nat :=
  Grid.index 3 (List.zipWith (fun y x => 1 + y - x) (Grid.coords dim 2 b) (Grid.coords dim 2 a))

/-- Add `value` at `position` of `output`, which has to have this position. -/
def addAt (output : Array α) (position : Nat) (value : α) : Except Error (Array α) :=
  if position < output.size then .ok (output.modify position (· + value))
  else .error (.fault .outOfRange)

/-- Add `matrix`, that of cell `cell`, to the stencil values `output` of its element. -/
def addCell (dim order width cell : Nat) (matrix : Dense (numCorners dim) (numCorners dim) α)
    (output : Array α) : Except Error (Array α) :=
  (List.finRange (numCorners dim)).foldlM (fun output (a : Fin (numCorners dim)) =>
    (List.finRange (numCorners dim)).foldlM (fun output (b : Fin (numCorners dim)) =>
      addAt output (cornerCandidate dim a b + width * cornerNode dim order cell a) matrix[a][b])
      output) output

variable [BEq α] [LT α] [DecidableLT α] (k : H1Kernel α)

/-- Add the stencil values of `element` to `output`, cell by cell. -/
def addElement (width : Nat) (vertices : VertexCoordinates α) (element : Nat) (output : Array α) :
    Except Error (Array α) :=
  (List.range (volume k.order k.dim)).foldlM (fun output cell => do
    let coordinates ← (List.range (numCorners k.dim)).mapM fun corner =>
      vertices.vertex element (cornerNode k.dim k.order cell corner)
    let corners : Dense k.dim (numCorners k.dim) α :=
      Dense.ofFn fun d a => (coordinates.getD a []).getD d 0
    let matrix ← k.cellMatrix corners
    addCell k.dim k.order width cell matrix output) output

/-- The local matrices of all elements of `vertices`. The parameters of `k` are checked first, then
the layout of the vertices. -/
def assemble (vertices : VertexCoordinates α) : Except Error (LocalMatrices α) := do
  if ¬ (1 ≤ k.dim ∧ k.dim ≤ 3 ∧ k.order ≠ 0) then
    .error (.kernelSetup (.parameters k.dim k.order))
  else
    let template ← Template.tensorStencil k.dim k.order
    if vertices.dim ≠ k.dim ∨ vertices.perElement ≠ template.slots then
      .error (.kernelSetup
        (.vertices template.slots k.dim vertices.perElement vertices.dim))
    else
      let zeros ← ElementValues.zeros (α := α) template.width template.slots vertices.numElements
      let data ← zeros.elements.zipIdx.mapM fun (values, element) =>
        k.addElement template.width vertices element values.toArray
      let values ← ElementValues.ofData template.width template.slots vertices.numElements
        (data.foldl (· ++ ·) #[])
      pure ⟨template, values⟩

/-- The kernel `k` as a kernel for H1 forms. -/
def kernel : LocalKernel α := ⟨.h1, k.assemble⟩

end H1Kernel

end FemAssembly
