import FemAssembly.Word
import FemAssembly.Sequence.Chunks

/-!
# Element values

One coefficient for every candidate of every row of every element, stored element by element, row
by row, candidate by candidate.

* `ElementValues.ofData`: the values of a list of the right length.
* `ElementValues.get`, `ElementValues.set`: one value. Only its position in the list is checked.
-/

namespace FemAssembly

/-- The coefficients of all elements, aligned with a template of `slots` rows and `width`
candidates. -/
structure ElementValues (α : Type) where
  width : Nat
  slots : Nat
  numElements : Nat
  data : Array α
  size_eq : data.size = width * slots * numElements

namespace ElementValues

variable {α : Type}

def ofData (width slots numElements : Nat) (data : Array α) : Except Error (ElementValues α) := do
  let perElement ← Word.mul width slots
  let expected ← Word.mul perElement numElements
  if h : data.size = width * slots * numElements then
    pure { width, slots, numElements, data, size_eq := h }
  else .error (.kernelSetup (.valuesLength data.size expected width slots numElements))

/-- The values of `numElements` elements that are all zero. -/
def zeros [Zero α] (width slots numElements : Nat) : Except Error (ElementValues α) := do
  let perElement ← Word.mul width slots
  let size ← Word.mul perElement numElements
  Word.reserve size 8
  pure {
    width, slots, numElements
    data := Array.replicate (width * slots * numElements) 0
    size_eq := Array.size_replicate }

variable (v : ElementValues α)

/-- The position of candidate `k` of `row` of `element`. -/
def position (k row element : Nat) : Nat := k + v.width * (row + v.slots * element)

def get (k row element : Nat) : Except Error α :=
  Word.orFault v.data[v.position k row element]?

/-- The values `v` with `value` for candidate `k` of `row` of `element`. -/
def set (k row element : Nat) (value : α) : Except Error (ElementValues α) :=
  if v.position k row element < v.data.size then
    .ok { v with
      data := v.data.setIfInBounds (v.position k row element) value
      size_eq := by simpa using v.size_eq }
  else .error (.fault .outOfRange)

/-- The values of each element of `v`, one list for each. -/
def elements : List (List α) := chunks (max (v.width * v.slots) 1) v.data.toList

end ElementValues

end FemAssembly
