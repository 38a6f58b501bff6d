import FemAssembly.Proofs.Element.Scatter

/-!
# The values of the kernel

The kernel makes the values of all elements when the cells of all elements are ready, and then the
values of an element are the sums over its cells.

* `H1Kernel.nodeEntry`: the values by pairs of nodes. `H1Kernel.stencilValue_eq_nodeEntry`: they
  stand at the places of the stencil.
* `H1Kernel.Makes`, `H1Kernel.makes_of_assemble_eq_ok`: what the kernel makes.
  `H1Kernel.exists_assemble_iff`: when it makes something.
-/

namespace FemAssembly

open Finset
open Grid (coord volume numCorners)

variable {α : Type}

namespace H1Kernel

variable [Field α] [LinearOrder α] (k : H1Kernel α) (vertices : VertexCoordinates α)

/-- The stencil values of element `e`. -/
noncomputable def elementData (e : Nat) : List α :=
  (List.range (volume 3 k.dim * volume (k.order + 1) k.dim)).map
    (k.stencilValue vertices (volume 3 k.dim) e)

variable {k vertices} in
theorem length_elementData (e : Nat) :
    (k.elementData vertices e).length = volume 3 k.dim * volume (k.order + 1) k.dim := by
  simp [elementData]

/-- The cells of all elements of `vertices` are ready. -/
def Ready : Prop :=
  ∀ e < vertices.numElements, ∀ cell < volume k.order k.dim, k.CellReady vertices e cell

/-- What the cells of element `e` contribute to the pair of its nodes `i` and `j`. -/
noncomputable def nodeEntry (e i j : Nat) : α :=
  scatterTable (range (volume k.order k.dim)) univ
    (fun cell (a : Fin (numCorners k.dim)) => cornerNode k.dim k.order cell a)
    (k.cellEntries vertices e) i j

/-- The values of element `e` act on `x` and `y` as the matrices of its cells do. -/
theorem sum_mul_nodeEntry_mul (e : Nat) (x y : Nat → α) :
    ∑ i ∈ range (volume (k.order + 1) k.dim), ∑ j ∈ range (volume (k.order + 1) k.dim),
        x i * k.nodeEntry vertices e i j * y j =
      ∑ cell ∈ range (volume k.order k.dim), ∑ a : Fin (numCorners k.dim),
        ∑ b : Fin (numCorners k.dim), x (cornerNode k.dim k.order cell a) *
          k.cellEntries vertices e cell a b * y (cornerNode k.dim k.order cell b) := by
  have hplace : ∀ cell ∈ range (volume k.order k.dim),
      ∀ a ∈ (univ : Finset (Fin (numCorners k.dim))),
        cornerNode k.dim k.order cell a < volume (k.order + 1) k.dim :=
    fun cell hcell a _ => cornerNode_lt (mem_range.mp hcell) a
  exact sum_mul_scatterTable_mul hplace (k.cellEntries vertices e) x y

/-- The place of the pair of nodes `i` and `j` in the stencil holds what the cells of `e` contribute
to the pair. -/
theorem stencilValue_eq_nodeEntry {i j c : Nat} (hc : c < volume 3 k.dim)
    (h : Template.stencilColumn k.dim k.order i c = some j) (e : Nat) :
    k.stencilValue vertices (volume 3 k.dim) e (c + volume 3 k.dim * i) =
      k.nodeEntry vertices e i j := by
  have hplace : ∀ cell < volume k.order k.dim, ∀ a b : Fin (numCorners k.dim),
      cornerPlace k.dim k.order (volume 3 k.dim) cell a b = c + volume 3 k.dim * i ↔
        cornerNode k.dim k.order cell a = i ∧ cornerNode k.dim k.order cell b = j := by
    intro cell hcell a b
    rw [cornerPlace_eq_iff hcell hc, h, Option.some.injEq, eq_comm (a := j)]
  unfold stencilValue nodeEntry scatterTable
  refine sum_congr rfl fun cell hcell => sum_congr rfl fun a _ => sum_congr rfl fun b _ => ?_
  exact if_congr (hplace cell (mem_range.mp hcell) a b) rfl rfl

/-- Nodes `i` and `j` that are no neighbours have no cell in common. -/
theorem nodeEntry_eq_zero {i j : Nat}
    (h : ∀ c < volume 3 k.dim, Template.stencilColumn k.dim k.order i c ≠ some j) (e : Nat) :
    k.nodeEntry vertices e i j = 0 := by
  unfold nodeEntry scatterTable
  refine sum_eq_zero fun cell hcell => sum_eq_zero fun a _ => sum_eq_zero fun b _ => ?_
  refine if_neg ?_
  rintro ⟨rfl, rfl⟩
  exact h _ (cornerCandidate_lt k.dim a b) (stencilColumn_cornerNode (mem_range.mp hcell) a b)

/-- What is known about the `matrices` that the kernel `k` makes from `vertices`. -/
structure Makes (k : H1Kernel α) (vertices : VertexCoordinates α) (matrices : LocalMatrices α) :
    Prop where
  dim_pos : 1 ≤ k.dim
  dim_le : k.dim ≤ 3
  order_pos : 0 < k.order
  template_eq : Template.tensorStencil k.dim k.order = .ok matrices.template
  vertices_dim : vertices.dim = k.dim
  perElement_eq : vertices.perElement = volume (k.order + 1) k.dim
  fits : KernelFits k.dim k.order vertices.numElements
  ready : k.Ready vertices
  width_eq : matrices.values.width = volume 3 k.dim
  slots_eq : matrices.values.slots = volume (k.order + 1) k.dim
  numElements_eq : matrices.values.numElements = vertices.numElements
  data_eq : matrices.values.data =
    ((List.range vertices.numElements).flatMap (k.elementData vertices)).toArray

variable {k vertices}

/-- The values that the kernel makes for element `e`, read at candidate `c` of row `i`. -/
theorem Makes.getD_values {matrices : LocalMatrices α} (h : k.Makes vertices matrices)
    {e i c : Nat} (he : e < vertices.numElements) (hi : i < volume (k.order + 1) k.dim)
    (hc : c < volume 3 k.dim) :
    matrices.values.data.getD (matrices.values.position c i e) 0 =
      k.stencilValue vertices (volume 3 k.dim) e (c + volume 3 k.dim * i) := by
  have hposition : matrices.values.position c i e =
      volume 3 k.dim * volume (k.order + 1) k.dim * e + (c + volume 3 k.dim * i) := by
    rw [ElementValues.position, h.width_eq, h.slots_eq]
    ring
  have hlt : c + volume 3 k.dim * i < volume 3 k.dim * volume (k.order + 1) k.dim := by
    have hrow := Nat.mul_le_mul_left (volume 3 k.dim) (Nat.succ_le_of_lt hi)
    rw [Nat.mul_succ] at hrow
    omega
  rw [hposition, h.data_eq, Array.getD_eq_getD_getElem?, List.getElem?_toArray,
    getElem?_flatMap length_elementData he hlt]
  simp [elementData, hlt]

/-- The values of element `e`, whose cells have the matrices `M`. -/
theorem elementValues_eq {e : Nat} {M : Nat → Dense (numCorners k.dim) (numCorners k.dim) α}
    (hM : ∀ cell < volume k.order k.dim, (M cell).toMatrix = k.cellEntries vertices e cell) :
    k.elementValues M = k.elementData vertices e := by
  refine List.ext_getElem? fun p => ?_
  rw [elementValues, Array.getElem?_toList, getElem?_foldl_deposit, List.getElem?_toArray,
    elementData, List.getElem?_map]
  by_cases hp : p < volume 3 k.dim * volume (k.order + 1) k.dim
  · rw [List.getElem?_replicate, if_pos hp, List.getElem?_range hp, Option.map_some,
      Option.map_some, ← List.sum_eq_foldl, sum_valuesAt_elementDeposits hM]
  · simp [hp]

variable [IsStrictOrderedRing α] [BEq α] [LawfulBEq α]

theorem makes_of_assemble_eq_ok {matrices : LocalMatrices α}
    (h : k.assemble vertices = .ok matrices) : k.Makes vertices matrices := by
  obtain ⟨M, h⟩ := exists_makesFrom h
  have hcells := fun e he cell hcell => cellMatrixAt_eq_ok_iff.mp (h.cells e he cell hcell)
  have hdata : ((List.range vertices.numElements).flatMap fun e => k.elementValues (M e)) =
      (List.range vertices.numElements).flatMap (k.elementData vertices) :=
    List.flatMap_congr fun e he => elementValues_eq fun cell hcell =>
      (hcells e (List.mem_range.mp he) cell hcell).2
  exact { h with
    ready := fun e he cell hcell => (hcells e he cell hcell).1
    data_eq := h.data_eq.trans (congrArg List.toArray hdata) }

/-- When the kernel makes something of `vertices`: its parameters are in range, the vertices have
its layout, its arrays can exist, and all cells are ready. -/
theorem exists_assemble_iff : (∃ matrices, k.assemble vertices = .ok matrices) ↔
    (1 ≤ k.dim ∧ k.dim ≤ 3 ∧ 0 < k.order) ∧
      (vertices.dim = k.dim ∧ vertices.perElement = volume (k.order + 1) k.dim) ∧
        KernelFits k.dim k.order vertices.numElements ∧ k.Ready vertices := by
  constructor
  · rintro ⟨matrices, hmatrices⟩
    have h := makes_of_assemble_eq_ok hmatrices
    exact ⟨⟨h.dim_pos, h.dim_le, h.order_pos⟩, ⟨h.vertices_dim, h.perElement_eq⟩, h.fits, h.ready⟩
  · rintro ⟨⟨hdim, hle, horder⟩, ⟨hvertices, hperElement⟩, hfits, hready⟩
    exact exists_assemble hdim hle horder hvertices hperElement hfits fun e he cell hcell =>
      (hready e he cell hcell).cellMatrixAt_eq_ok

end H1Kernel

end FemAssembly
