import FemAssembly.Word

/-!
# Vertex coordinates

The coordinates of the vertices of every element's low-order refinement, stored element by element,
vertex by vertex, coordinate by coordinate.

* `VertexCoordinates.ofData`: the coordinates of a list of the right length.
* `VertexCoordinates.vertex`: the coordinates of one vertex.
-/

namespace FemAssembly

structure VertexCoordinates (α : Type) where
  dim : Nat
  /-- the number of vertices of every element -/
  perElement : Nat
  numElements : Nat
  data : Array α
  size_eq : data.size = dim * perElement * numElements

namespace VertexCoordinates

variable {α : Type}

def ofData (dim perElement numElements : Nat) (data : Array α) :
    Except Error (VertexCoordinates α) := do
  let entries ← Word.mul dim perElement
  let expected ← Word.mul entries numElements
  if h : data.size = dim * perElement * numElements then
    pure { dim, perElement, numElements, data, size_eq := h }
  else .error (.kernelSetup (.vertexLength data.size expected))

/-- No vertices, for kernels that use none. -/
def empty : VertexCoordinates α := ⟨0, 0, 0, #[], rfl⟩

variable (c : VertexCoordinates α)

/-- The coordinates of vertex `vertex` of `element`. Only the position in the list is checked. -/
def vertex (element vertex : Nat) : Except Error (List α) := do
  let skipped ← Word.mul c.perElement element
  let number ← Word.add vertex skipped
  let first ← Word.mul c.dim number
  if first + c.dim ≤ c.data.size then pure (c.data.extract first (first + c.dim)).toList
  else .error (.fault .outOfRange)

end VertexCoordinates

end FemAssembly
