import FemAssembly.Proofs.Element.Corners
import FemAssembly.Proofs.Sequence.Results

/-!
# Deposits

The kernel adds the entries of the cell matrices up where they belong. Each addition is a deposit at
a position of the element's values, and a position takes its deposits in their order, whatever the
laws of addition.

* `deposit`, `valuesAt`: a value added at a position, and the values that a position takes.
  `getElem?_foldl_deposit`: what a position holds after many deposits.
* `H1Kernel.cellDeposits`, `H1Kernel.cellMatrixAt`: the deposits of one cell, and its matrix.
* `H1Kernel.addElement_eq`: the values of an element are those deposits, or the kernel fails as the
  matrix of one of the cells does.
-/

namespace FemAssembly

open Grid (volume numCorners)

variable {α : Type}

section

variable [Add α]

/-- Add the value `d.2` at the position `d.1`. -/
def deposit (output : Array α) (d : Nat × α) : Array α := output.modify d.1 (· + d.2)

/-- The values that `position` takes, in their order. -/
def valuesAt (deposits : List (Nat × α)) (position : Nat) : List α :=
  deposits.filterMap fun d => if d.1 = position then some d.2 else none

@[simp] theorem size_deposit (output : Array α) (d : Nat × α) :
    (deposit output d).size = output.size := Array.size_modify

@[simp] theorem size_foldl_deposit (deposits : List (Nat × α)) (output : Array α) :
    (deposits.foldl deposit output).size = output.size := by
  induction deposits generalizing output with
  | nil => rfl
  | cons d deposits ih => rw [List.foldl_cons, ih, size_deposit]

/-- After all `deposits`, `position` holds what it held, with its values added one after the other.
-/
theorem getElem?_foldl_deposit (deposits : List (Nat × α)) (output : Array α) (position : Nat) :
    (deposits.foldl deposit output)[position]? =
      output[position]?.map ((valuesAt deposits position).foldl (· + ·)) := by
  induction deposits generalizing output with
  | nil => exact Option.map_id'.symm
  | cons d deposits ih =>
    have hvalues : valuesAt (d :: deposits) position =
        if d.1 = position then d.2 :: valuesAt deposits position
        else valuesAt deposits position := by
      by_cases h : d.1 = position <;> simp [valuesAt, h]
    rw [List.foldl_cons, ih, deposit, Array.getElem?_modify, hvalues]
    by_cases h : d.1 = position
    · rw [if_pos h, if_pos h, Option.map_map]
      rfl
    · rw [if_neg h, if_neg h]

end

namespace H1Kernel

variable {dim order width cell : Nat}

/-- The deposits of a cell with the matrix `M`: the entry of every pair of corners at its place. -/
def cellDeposits (dim order width cell : Nat) (M : Dense (numCorners dim) (numCorners dim) α) :
    List (Nat × α) :=
  (List.finRange (numCorners dim)).flatMap fun a => (List.finRange (numCorners dim)).map fun b =>
    (cornerPlace dim order width cell a b, (M.get a).get b)

section

variable [Add α]

theorem foldlM_addAt {deposits : List (Nat × α)} {output : Array α}
    (h : ∀ d ∈ deposits, d.1 < output.size) :
    deposits.foldlM (fun output d => addAt output d.1 d.2) output =
      .ok (deposits.foldl deposit output) := by
  refine foldlM_eq_ok_foldl_of_invariant (I := fun current => current.size = output.size)
    (g := deposit) (fun current hsize d hd => if_pos (hsize ▸ h d hd))
    (fun current d hsize => ?_) rfl
  rw [size_deposit, hsize]

theorem addCell_eq_ok {M : Dense (numCorners dim) (numCorners dim) α} {output : Array α}
    (h : ∀ a b, cornerPlace dim order width cell a b < output.size) :
    addCell dim order width cell M output =
      .ok ((cellDeposits dim order width cell M).foldl deposit output) := by
  have hrow : ∀ a : Fin (numCorners dim), ∀ current : Array α, current.size = output.size →
      (List.finRange (numCorners dim)).foldlM (fun output (b : Fin (numCorners dim)) =>
        addAt output (cornerPlace dim order width cell a b) M[a][b]) current =
      .ok (((List.finRange (numCorners dim)).map fun b =>
        (cornerPlace dim order width cell a b, (M.get a).get b)).foldl deposit current) := by
    intro a current hsize
    rw [← foldlM_addAt, List.foldlM_map]
    · rfl
    · rintro _ hd
      obtain ⟨b, -, rfl⟩ := List.mem_map.mp hd
      exact hsize ▸ h a b
  rw [cellDeposits, List.flatMap, List.foldl_flatten, List.foldl_map]
  refine foldlM_eq_ok_foldl_of_invariant (I := fun current => current.size = output.size)
    (fun current hsize a _ => hrow a current hsize) (fun current a hsize => ?_) rfl
  rw [size_foldl_deposit, hsize]

end

variable [Zero α] [One α] [Add α] [Sub α] [Neg α] [Mul α] [Div α] [BEq α] [LT α] [DecidableLT α]
variable (k : H1Kernel α) (vertices : VertexCoordinates α)

/-- The matrix of cell `cell` of `element`. -/
def cellMatrixAt (element cell : Nat) :
    Except Error (Dense (numCorners k.dim) (numCorners k.dim) α) := do
  let coordinates ← (List.range (numCorners k.dim)).mapM fun corner =>
    vertices.vertex element (cornerNode k.dim k.order cell corner)
  k.cellMatrix (Dense.ofFn fun (d : Fin k.dim) (a : Fin (numCorners k.dim)) =>
    (coordinates.getD a []).getD d 0)

/-- Either the matrix of a cell of `element` cannot be made, or all cells make their deposits, by
increasing cell. -/
theorem addElement_eq {element : Nat} {output : Array α}
    (hsize : output.size = volume 3 k.dim * volume (k.order + 1) k.dim) :
    k.addElement (volume 3 k.dim) vertices element output =
      ((List.range (volume k.order k.dim)).mapM fun cell =>
        (k.cellMatrixAt vertices element cell).map
          (cellDeposits k.dim k.order (volume 3 k.dim) cell)).map
        fun deposits => deposits.flatten.foldl deposit output := by
  refine (foldlM_eq_map_mapM_of_invariant (I := fun current => current.size = output.size)
    (f := fun cell => (k.cellMatrixAt vertices element cell).map
      (cellDeposits k.dim k.order (volume 3 k.dim) cell))
    (g := fun current deposits => deposits.foldl deposit current)
    (fun current hcurrent cell hcell => ?_) (fun current deposits hcurrent => ?_) rfl).trans ?_
  · have hplaces : ∀ a b, cornerPlace k.dim k.order (volume 3 k.dim) cell a b < current.size := by
      rw [hcurrent, hsize]
      exact cornerPlace_lt (List.mem_range.mp hcell)
    simp only [addCell_eq_ok hplaces, cellMatrixAt]
    cases (List.range (numCorners k.dim)).mapM fun corner =>
      vertices.vertex element (cornerNode k.dim k.order cell corner) with
    | error error => rfl
    | ok coordinates =>
      cases hM : k.cellMatrix (Dense.ofFn fun (d : Fin k.dim) (a : Fin (numCorners k.dim)) =>
        (coordinates.getD a []).getD d 0) <;>
          simp only [hM, bind, Except.bind, Except.map]
  · rw [size_foldl_deposit, hcurrent]
  · simp only [List.foldl_flatten]

end H1Kernel

end FemAssembly
