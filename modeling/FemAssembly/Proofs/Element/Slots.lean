import FemAssembly.Proofs.Element.Deposits
import FemAssembly.Proofs.Element.Values
import Mathlib

/-!
# The slots of the kernel

What the kernel makes, in any arithmetic: the slot of two nodes of an element holds the entries of
the cell matrices for these nodes, added up by increasing cell, and a slot of no second node holds
zero.

* `H1Kernel.elementValues`: the values of an element, from the matrices of its cells.
* `H1Kernel.Accepts`: what is checked first. `H1Kernel.exists_accepts_or_refused`,
  `H1Kernel.Accepts.assemble_eq`: what the kernel does then.
* `H1Kernel.MakesFrom`: what is known about the matrices that are made. `H1Kernel.exists_makesFrom`,
  `H1Kernel.exists_assemble`: they are made from the matrices of all cells.
* `H1Kernel.assemble_ne_outOfRange`: nothing outside of an array is asked for.
* `H1Kernel.sharedEntries`, `H1Kernel.valuesAt_elementDeposits`: what a slot takes.
* `H1Kernel.assemble_slots`: all of this together.
-/

namespace FemAssembly

open Grid (coord volume numCorners)

namespace H1Kernel

variable {α : Type}

/-! ## Slots -/

section

/-- The deposits of the cells of an element with the matrices `M`, by increasing cell. -/
def elementDeposits (k : H1Kernel α)
    (M : Nat → Dense (numCorners k.dim) (numCorners k.dim) α) : List (Nat × α) :=
  (List.range (volume k.order k.dim)).flatMap fun cell =>
    cellDeposits k.dim k.order (volume 3 k.dim) cell (M cell)

/-- The entries of the cell matrices `M` for the corners at the nodes `row` and `column`, by
increasing cell. -/
def sharedEntries (dim order row column : Nat)
    (M : Nat → Dense (numCorners dim) (numCorners dim) α) : List α :=
  (List.range (volume order dim)).flatMap fun cell =>
    (List.finRange (numCorners dim)).flatMap fun (a : Fin (numCorners dim)) =>
      (List.finRange (numCorners dim)).filterMap fun (b : Fin (numCorners dim)) =>
        if cornerNode dim order cell a = row ∧ cornerNode dim order cell b = column then
          some (((M cell).get a).get b)
        else none

variable {k : H1Kernel α} {M : Nat → Dense (numCorners k.dim) (numCorners k.dim) α} {row slot : Nat}

/-- Position `p` takes the entries of the corners that have their place there. -/
theorem valuesAt_elementDeposits (p : Nat) : valuesAt (k.elementDeposits M) p =
    (List.range (volume k.order k.dim)).flatMap fun cell =>
      (List.finRange (numCorners k.dim)).flatMap fun a =>
        (List.finRange (numCorners k.dim)).filterMap fun (b : Fin (numCorners k.dim)) =>
          if cornerPlace k.dim k.order (volume 3 k.dim) cell a b = p then
            some (((M cell).get a).get b)
          else none := by
  simp only [valuesAt, elementDeposits, cellDeposits, List.filterMap_flatMap, List.filterMap_map]
  rfl

/-- The slot of the nodes `row` and `column` takes the entries of the cells that have both nodes as
corners. -/
theorem valuesAt_of_stencilColumn (hslot : slot < volume 3 k.dim) {column : Nat}
    (hcolumn : Template.stencilColumn k.dim k.order row slot = some column) :
    valuesAt (k.elementDeposits M) (slot + volume 3 k.dim * row) =
      sharedEntries k.dim k.order row column M := by
  rw [valuesAt_elementDeposits, sharedEntries]
  refine List.flatMap_congr fun cell hcell => List.flatMap_congr fun a _ =>
    List.filterMap_congr fun b _ => if_congr ?_ rfl rfl
  rw [cornerPlace_eq_iff (List.mem_range.mp hcell) hslot, hcolumn, Option.some.injEq,
    eq_comm (a := column)]

/-- A slot that leads from `row` to no second node takes nothing. -/
theorem valuesAt_of_stencilColumn_eq_none (hslot : slot < volume 3 k.dim)
    (hcolumn : Template.stencilColumn k.dim k.order row slot = none) :
    valuesAt (k.elementDeposits M) (slot + volume 3 k.dim * row) = [] := by
  rw [valuesAt_elementDeposits]
  refine List.flatMap_eq_nil_iff.mpr fun cell hcell => List.flatMap_eq_nil_iff.mpr fun a _ =>
    List.filterMap_eq_nil_iff.mpr fun b _ => if_neg ?_
  rw [cornerPlace_eq_iff (List.mem_range.mp hcell) hslot, hcolumn]
  exact fun h => nomatch h.2

end

/-! ## Making the values -/

section

variable [Zero α] [Add α] (k : H1Kernel α)

/-- The values of an element whose cells have the matrices `M`. -/
def elementValues (M : Nat → Dense (numCorners k.dim) (numCorners k.dim) α) : List α :=
  ((k.elementDeposits M).foldl deposit
    (List.replicate (volume 3 k.dim * volume (k.order + 1) k.dim) 0).toArray).toList

theorem length_elementValues (M : Nat → Dense (numCorners k.dim) (numCorners k.dim) α) :
    (k.elementValues M).length = volume 3 k.dim * volume (k.order + 1) k.dim := by
  simp [elementValues]

end

theorem entries_pos (dim order : Nat) : 0 < volume 3 dim * volume (order + 1) dim :=
  Nat.mul_pos (Grid.volume_pos (by decide) dim) (Grid.volume_pos (Nat.succ_pos order) dim)

/-- The arrays of the kernel for `numElements` elements are small enough to exist. -/
structure KernelFits (dim order numElements : Nat) : Prop where
  table : volume (order + 1) dim * volume 3 dim * 16 < Word.signedBound
  values : volume 3 dim * volume (order + 1) dim * numElements * 8 < Word.signedBound

theorem KernelFits.entries_lt {dim order numElements : Nat} (h : KernelFits dim order numElements) :
    volume 3 dim * volume (order + 1) dim < Word.bound := by
  have htable := h.table
  rw [Nat.mul_comm]
  exact Word.lt_bound (by omega)

variable [Zero α] [One α] [Add α] [Sub α] [Neg α] [Mul α] [Div α] [BEq α] [LT α] [DecidableLT α]

/-- The kernel `k` has checked its parameters and the layout of `vertices`, and has got its
`template` and the room for its values. -/
structure Accepts (k : H1Kernel α) (vertices : VertexCoordinates α) (template : Template) :
    Prop where
  dim_pos : 1 ≤ k.dim
  dim_le : k.dim ≤ 3
  order_pos : 0 < k.order
  template_eq : Template.tensorStencil k.dim k.order = .ok template
  vertices_dim : vertices.dim = k.dim
  perElement_eq : vertices.perElement = volume (k.order + 1) k.dim
  fits : KernelFits k.dim k.order vertices.numElements

/-- What is known about the `matrices` that the kernel `k` makes. The cells of element `e` have the
matrices `M e`. -/
structure MakesFrom (k : H1Kernel α) (vertices : VertexCoordinates α) (matrices : LocalMatrices α)
    (M : Nat → Nat → Dense (numCorners k.dim) (numCorners k.dim) α) : Prop
    extends k.Accepts vertices matrices.template where
  cells : ∀ e < vertices.numElements, ∀ cell < volume k.order k.dim,
    k.cellMatrixAt vertices e cell = .ok (M e cell)
  width_eq : matrices.values.width = volume 3 k.dim
  slots_eq : matrices.values.slots = volume (k.order + 1) k.dim
  numElements_eq : matrices.values.numElements = vertices.numElements
  data_eq : matrices.values.data =
    ((List.range vertices.numElements).flatMap fun e => k.elementValues (M e)).toArray

variable {k : H1Kernel α} {vertices : VertexCoordinates α}

theorem addElement_zeros_eq_ok {e : Nat}
    {M : Nat → Dense (numCorners k.dim) (numCorners k.dim) α}
    (hM : ∀ cell < volume k.order k.dim, k.cellMatrixAt vertices e cell = .ok (M cell)) :
    k.addElement (volume 3 k.dim) vertices e
        (List.replicate (volume 3 k.dim * volume (k.order + 1) k.dim) 0).toArray =
      .ok (k.elementValues M).toArray := by
  have hdeposits : ((List.range (volume k.order k.dim)).mapM fun cell =>
      (k.cellMatrixAt vertices e cell).map
        (cellDeposits k.dim k.order (volume 3 k.dim) cell)) =
      .ok ((List.range (volume k.order k.dim)).map fun cell =>
        cellDeposits k.dim k.order (volume 3 k.dim) cell (M cell)) :=
    mapM_eq_ok_map fun cell hcell => by rw [hM cell (List.mem_range.mp hcell)]; rfl
  rw [addElement_eq k vertices (by simp), hdeposits, elementValues, Array.toArray_toList]
  rfl

theorem exists_cellMatrixAt {e : Nat} {output output' : Array α}
    (hsize : output.size = volume 3 k.dim * volume (k.order + 1) k.dim)
    (h : k.addElement (volume 3 k.dim) vertices e output = .ok output') {cell : Nat}
    (hcell : cell < volume k.order k.dim) : ∃ M, k.cellMatrixAt vertices e cell = .ok M := by
  rw [addElement_eq k vertices hsize] at h
  cases hdeposits : (List.range (volume k.order k.dim)).mapM fun cell =>
      (k.cellMatrixAt vertices e cell).map
        (cellDeposits k.dim k.order (volume 3 k.dim) cell) with
  | error error =>
    rw [hdeposits] at h
    cases h
  | ok deposits =>
    obtain ⟨_, hmade⟩ := exists_of_mapM_eq_ok hdeposits (List.mem_range.mpr hcell)
    cases hM : k.cellMatrixAt vertices e cell with
    | error error =>
      rw [hM] at hmade
      cases hmade
    | ok M => exact ⟨M, rfl⟩

/-- All elements start from `zeros`. -/
theorem mapM_addElement_eq {zeros : ElementValues α}
    (hzeros : zeros.elements = List.replicate vertices.numElements
      (List.replicate (volume 3 k.dim * volume (k.order + 1) k.dim) 0)) :
    (zeros.elements.zipIdx.mapM fun (values, element) =>
        k.addElement (volume 3 k.dim) vertices element values.toArray) =
      (List.range vertices.numElements).mapM fun e => k.addElement (volume 3 k.dim) vertices e
        (List.replicate (volume 3 k.dim * volume (k.order + 1) k.dim) 0).toArray := by
  have hindexed : zeros.elements.zipIdx = (List.range vertices.numElements).map fun e =>
      (List.replicate (volume 3 k.dim * volume (k.order + 1) k.dim) 0, e) := by
    rw [hzeros]
    exact List.ext_getElem (by simp) fun e _ _ => by simp
  rw [hindexed, List.mapM_map]
  rfl

/-- What is left to do with a `template` that is accepted. -/
theorem Accepts.assemble_eq {template : Template} (h : k.Accepts vertices template) :
    k.assemble vertices =
      ((List.range vertices.numElements).mapM fun e => k.addElement (volume 3 k.dim) vertices e
        (List.replicate (volume 3 k.dim * volume (k.order + 1) k.dim) 0).toArray) >>= fun data =>
      ElementValues.ofData (volume 3 k.dim) (volume (k.order + 1) k.dim) vertices.numElements
        (data.foldl (· ++ ·) #[]) >>= fun values => .ok ⟨template, values⟩ := by
  have hstencil := Template.isStencil_of_tensorStencil h.template_eq
  obtain ⟨zeros, hzeros⟩ := ElementValues.exists_zeros (α := α) h.fits.entries_lt h.fits.values
  refine (if_neg (not_not.mpr ⟨h.dim_pos, h.dim_le, Nat.ne_of_gt h.order_pos⟩)).trans ?_
  refine (bind_of_eq_ok h.template_eq _).trans ((if_neg (not_or.mpr
    ⟨not_not.mpr h.vertices_dim, not_not.mpr (h.perElement_eq.trans hstencil.slots_eq.symm)⟩)).trans
      ?_)
  rw [hstencil.width_eq, hstencil.slots_eq, bind_of_eq_ok hzeros,
    mapM_addElement_eq (ElementValues.elements_of_zeros (entries_pos k.dim k.order) hzeros).2]
  rfl

/-- What is not accepted is refused with some `error`, and never because an index is outside of its
array. -/
theorem exists_accepts_or_refused (k : H1Kernel α) (vertices : VertexCoordinates α) :
    (∃ template, k.Accepts vertices template) ∨
      ∃ error, k.assemble vertices = .error error ∧ error ≠ .fault .outOfRange := by
  unfold assemble
  split
  · exact .inr ⟨_, rfl, nofun⟩
  rename_i hparameters
  obtain ⟨hdim, hle, horder⟩ := not_not.mp hparameters
  cases htemplate : Template.tensorStencil k.dim k.order with
  | error error =>
    exact .inr ⟨error, rfl, fun h => Template.tensorStencil_ne_outOfRange (h ▸ htemplate)⟩
  | ok template =>
    have hstencil := Template.isStencil_of_tensorStencil htemplate
    rw [bind_of_eq_ok rfl]
    split
    · exact .inr ⟨_, rfl, nofun⟩
    rename_i hvertices
    obtain ⟨hvdim, hperElement⟩ := not_or.mp hvertices
    cases hzeros :
      ElementValues.zeros (α := α) template.width template.slots vertices.numElements with
    | error error =>
      exact .inr ⟨error, rfl, fun h => ElementValues.zeros_ne_outOfRange (h ▸ hzeros)⟩
    | ok zeros =>
      rw [hstencil.width_eq, hstencil.slots_eq] at hzeros
      exact .inl ⟨template, {
        dim_pos := hdim
        dim_le := hle
        order_pos := Nat.pos_of_ne_zero horder
        template_eq := htemplate
        vertices_dim := not_not.mp hvdim
        perElement_eq := (not_not.mp hperElement).trans hstencil.slots_eq
        fits := ⟨(Template.exists_tensorStencil_iff hdim).mp ⟨_, htemplate⟩,
          (ElementValues.elements_of_zeros (entries_pos k.dim k.order) hzeros).1⟩ }⟩

/-- Where the values `data` of all elements are made, so are the matrices `M` of all cells. -/
theorem exists_cellMatrices {data : List (Array α)}
    (h : ((List.range vertices.numElements).mapM fun e => k.addElement (volume 3 k.dim) vertices e
      (List.replicate (volume 3 k.dim * volume (k.order + 1) k.dim) 0).toArray) = .ok data) :
    ∃ M : Nat → Nat → Dense (numCorners k.dim) (numCorners k.dim) α,
      (∀ e < vertices.numElements, ∀ cell < volume k.order k.dim,
        k.cellMatrixAt vertices e cell = .ok (M e cell)) ∧
      data = (List.range vertices.numElements).map fun e => (k.elementValues (M e)).toArray := by
  have hmade : ∀ e cell, ∃ M, e < vertices.numElements → cell < volume k.order k.dim →
      k.cellMatrixAt vertices e cell = .ok M := by
    intro e cell
    by_cases hinside : e < vertices.numElements ∧ cell < volume k.order k.dim
    · obtain ⟨output, houtput⟩ := exists_of_mapM_eq_ok h (List.mem_range.mpr hinside.1)
      obtain ⟨M, hM⟩ := exists_cellMatrixAt (by simp) houtput hinside.2
      exact ⟨M, fun _ _ => hM⟩
    · exact ⟨Dense.ofFn fun _ _ => 0, fun he hcell => absurd ⟨he, hcell⟩ hinside⟩
  choose M hM using hmade
  exact ⟨M, fun e he cell hcell => hM e cell he hcell,
    Except.ok.inj (h.symm.trans (mapM_eq_ok_map fun e he =>
      addElement_zeros_eq_ok fun cell hcell => hM e cell (List.mem_range.mp he) hcell))⟩

theorem exists_makesFrom {matrices : LocalMatrices α} (h : k.assemble vertices = .ok matrices) :
    ∃ M, k.MakesFrom vertices matrices M := by
  obtain ⟨template, haccepts⟩ | ⟨error, hrefused, -⟩ := exists_accepts_or_refused k vertices
  · rw [haccepts.assemble_eq] at h
    obtain ⟨data, hdata, h⟩ := bind_eq_ok_iff.mp h
    obtain ⟨values, hvalues, h⟩ := bind_eq_ok_iff.mp h
    obtain rfl := Except.ok.inj h
    obtain ⟨M, hM, rfl⟩ := exists_cellMatrices hdata
    rw [foldl_append_toArray] at hvalues
    obtain ⟨hwidth, hslots, hnumElements, hdata⟩ := ElementValues.of_ofData_eq_ok hvalues
    exact ⟨M, haccepts, hM, hwidth, hslots, hnumElements, hdata⟩
  · rw [hrefused] at h
    cases h

/-- The kernel makes something when its parameters are in range, the vertices have its layout, its
arrays can exist, and the matrices `M` of all cells are made. -/
theorem exists_assemble (hdim : 1 ≤ k.dim) (hle : k.dim ≤ 3) (horder : 0 < k.order)
    (hvertices : vertices.dim = k.dim)
    (hperElement : vertices.perElement = volume (k.order + 1) k.dim)
    (hfits : KernelFits k.dim k.order vertices.numElements)
    {M : Nat → Nat → Dense (numCorners k.dim) (numCorners k.dim) α}
    (hM : ∀ e < vertices.numElements, ∀ cell < volume k.order k.dim,
      k.cellMatrixAt vertices e cell = .ok (M e cell)) :
    ∃ matrices, k.assemble vertices = .ok matrices := by
  obtain ⟨template, htemplate⟩ := (Template.exists_tensorStencil_iff hdim).mpr hfits.table
  have haccepts : k.Accepts vertices template :=
    ⟨hdim, hle, horder, htemplate, hvertices, hperElement, hfits⟩
  have hlength : ((List.range vertices.numElements).flatMap fun e =>
      k.elementValues (M e)).toArray.size =
      volume 3 k.dim * volume (k.order + 1) k.dim * vertices.numElements := by
    simp [List.length_flatMap, length_elementValues, Nat.mul_comm]
  have hsize : volume 3 k.dim * volume (k.order + 1) k.dim * vertices.numElements < Word.bound := by
    have hbytes := hfits.values
    exact Word.lt_bound (by omega)
  obtain ⟨values, hvalues⟩ := ElementValues.exists_ofData hfits.entries_lt hsize hlength
  rw [haccepts.assemble_eq]
  refine ⟨⟨template, values⟩, bind_eq_ok_iff.mpr ⟨_, mapM_eq_ok_map fun e he =>
    addElement_zeros_eq_ok fun cell hcell => hM e (List.mem_range.mp he) cell hcell, ?_⟩⟩
  rw [foldl_append_toArray, hvalues]
  rfl

/-! ## Errors -/

theorem cellMatrix_ne_outOfRange (corners : Dense k.dim (numCorners k.dim) α) :
    k.cellMatrix corners ≠ .error (.fault .outOfRange) := by
  have hpoint : ∀ x, k.pointMatrix corners x ≠ .error (.fault .outOfRange) := by
    intro x
    unfold pointMatrix
    dsimp only
    split <;> nofun
  unfold cellMatrix
  rw [foldlM_eq_map_mapM]
  exact map_ne_error (mapM_ne_error fun q _ => hpoint _) _

theorem cellMatrixAt_ne_outOfRange {e cell : Nat} (he : e < vertices.numElements)
    (hperElement : vertices.perElement = volume (k.order + 1) k.dim)
    (hcell : cell < volume k.order k.dim) :
    k.cellMatrixAt vertices e cell ≠ .error (.fault .outOfRange) :=
  bind_ne_error (mapM_ne_error fun a _ =>
      vertices.vertex_ne_outOfRange he (hperElement ▸ cornerNode_lt hcell a))
    fun _ _ => cellMatrix_ne_outOfRange _

/-- Nothing outside of an array is asked for by `assemble`, also not on the way to a failure. -/
theorem assemble_ne_outOfRange (k : H1Kernel α) (vertices : VertexCoordinates α) :
    k.assemble vertices ≠ .error (.fault .outOfRange) := by
  obtain ⟨template, h⟩ | ⟨error, hrefused, hne⟩ := exists_accepts_or_refused k vertices
  · rw [h.assemble_eq]
    refine bind_ne_error (mapM_ne_error fun e he => ?_) fun data _ =>
      bind_ne_error ElementValues.ofData_ne_outOfRange fun _ _ => nofun
    rw [addElement_eq k vertices (by simp)]
    exact map_ne_error (mapM_ne_error fun cell hcell => map_ne_error (cellMatrixAt_ne_outOfRange
      (List.mem_range.mp he) h.perElement_eq (List.mem_range.mp hcell)) _) _
  · rw [hrefused]
    exact fun h => hne (Except.error.inj h)

/-! ## What is made -/

/-- The slot `slot` of `row` of element `e` holds zero with the values that it takes added to it. -/
theorem MakesFrom.get_eq_ok {matrices : LocalMatrices α}
    {M : Nat → Nat → Dense (numCorners k.dim) (numCorners k.dim) α}
    (h : k.MakesFrom vertices matrices M) {e row slot : Nat} (he : e < vertices.numElements)
    (hrow : row < volume (k.order + 1) k.dim) (hslot : slot < volume 3 k.dim) :
    matrices.values.get slot row e =
      .ok ((valuesAt (k.elementDeposits (M e)) (slot + volume 3 k.dim * row)).foldl (· + ·) 0) := by
  have hlength : ∀ e, (k.elementValues (M e)).length =
      matrices.values.width * matrices.values.slots := fun e => by
    rw [length_elementValues, h.width_eq, h.slots_eq]
  have hplace : slot + volume 3 k.dim * row < volume 3 k.dim * volume (k.order + 1) k.dim := by
    have := Nat.mul_le_mul_left (volume 3 k.dim) (Nat.succ_le_of_lt hrow)
    rw [Nat.mul_succ] at this
    omega
  rw [ElementValues.get_eq_of_flatMap hlength h.data_eq (h.width_eq ▸ hslot) (h.slots_eq ▸ hrow) he,
    h.width_eq, elementValues, Array.getElem?_toList, getElem?_foldl_deposit, List.getElem?_toArray,
    List.getElem?_replicate, if_pos hplace]
  rfl

/-- The kernel never asks for anything outside of an array. The coordinates of
`cornerCandidate k.dim a b` are not cut off below zero, and the corners `a` and `b` of a cell are
different nodes. When `matrices` are made, their template is the tensor stencil, the matrices of all
cells are made, and for every element the slot that the template finds for two nodes holds the
entries of its cells that have these nodes as corners, added to zero by increasing cell. The slot of
an absent candidate holds zero. No law of addition is used, so the sums of rounded numbers are meant
as well, in this order. -/
theorem assemble_slots (k : H1Kernel α) (vertices : VertexCoordinates α) :
    k.assemble vertices ≠ .error (.fault .outOfRange) ∧
    (∀ a b, ∀ d < k.dim, (coord 3 (cornerCandidate k.dim a b) d : Int) =
      1 + coord 2 b d - coord 2 a d) ∧
    (∀ cell < volume k.order k.dim, ∀ a b : Fin (numCorners k.dim),
      cornerNode k.dim k.order cell a = cornerNode k.dim k.order cell b → a = b) ∧
    ∀ matrices, k.assemble vertices = .ok matrices →
      Template.tensorStencil k.dim k.order = .ok matrices.template ∧
      matrices.values.width = matrices.template.width ∧
      matrices.values.slots = matrices.template.slots ∧
      matrices.values.numElements = vertices.numElements ∧
      ∃ M : Nat → Nat → Dense (numCorners k.dim) (numCorners k.dim) α,
        (∀ e < vertices.numElements, ∀ cell < volume k.order k.dim,
          k.cellMatrixAt vertices e cell = .ok (M e cell)) ∧
        ∀ e < vertices.numElements, ∀ row < matrices.template.slots,
          (∀ column slot, matrices.template.findSlot row column = .ok (some slot) →
            matrices.values.get slot row e =
              .ok ((sharedEntries k.dim k.order row column (M e)).foldl (· + ·) 0)) ∧
          ∀ slot < matrices.template.width, matrices.template.candidate row slot = .ok none →
            matrices.values.get slot row e = .ok 0 := by
  refine ⟨assemble_ne_outOfRange k vertices, fun a b d hd => ?_,
    fun cell hcell a b => eq_of_cornerNode_eq hcell, fun matrices hmatrices => ?_⟩
  · have := Grid.coord_lt Nat.two_pos a d
    rw [coord_cornerCandidate a b hd]
    omega
  obtain ⟨M, h⟩ := exists_makesFrom hmatrices
  have hstencil := Template.isStencil_of_tensorStencil h.template_eq
  refine ⟨h.template_eq, h.width_eq.trans hstencil.width_eq.symm,
    h.slots_eq.trans hstencil.slots_eq.symm, h.numElements_eq, M, h.cells, fun e he row hrow => ?_⟩
  have hrow' : row < volume (k.order + 1) k.dim := hstencil.slots_eq ▸ hrow
  refine ⟨fun column slot hfound => ?_, fun slot hslot habsent => ?_⟩
  · rw [Template.findSlot_eq_ok hrow, Except.ok.injEq] at hfound
    obtain ⟨hslot, hcolumn⟩ := (hstencil.listed_eq_some_iff hrow').mp hfound
    rw [h.get_eq_ok he hrow' hslot, valuesAt_of_stencilColumn hslot hcolumn]
  · rw [hstencil.candidate_eq_ok hrow hslot, Except.ok.injEq] at habsent
    rw [hstencil.width_eq] at hslot
    rw [h.get_eq_ok he hrow' hslot, valuesAt_of_stencilColumn_eq_none hslot habsent]
    rfl

/-- Two cells of the lengths one and two, on one element. -/
def unevenVertices : VertexCoordinates ℚ := ⟨1, 3, 1, #[0, 1, 3], rfl⟩

/-- Diffusion on elements of two cells, with the points `1 / 4` and `3 / 4`. -/
def twoCells : H1Kernel ℚ := ⟨1, 2, 1, 0, ⟨1 / 4, 3 / 4⟩⟩

/-- The middle node of `unevenVertices` takes an entry of each cell; its neighbours take one entry
each, and the first node has no neighbour before it. -/
theorem assemble_slots_twoCells :
    ∃ matrices, twoCells.assemble unevenVertices = .ok matrices ∧
      matrices.values.get 1 1 0 = .ok (3 / 2) ∧ matrices.values.get 2 1 0 = .ok (-1 / 2) ∧
      matrices.values.get 0 0 0 = .ok 0 := by
  obtain ⟨-, -, -, hslots⟩ := assemble_slots twoCells unevenVertices
  have hok : (twoCells.assemble unevenVertices).isOk := by decide +kernel
  obtain ⟨matrices, hmatrices⟩ := exists_of_isOk hok
  obtain ⟨htemplate, -, -, -, M, hcells, hvalues⟩ := hslots matrices hmatrices
  have hstencil := Template.isStencil_of_tensorStencil htemplate
  have hfirst : M 0 0 = #v[#v[1, -1], #v[-1, 1]] :=
    Except.ok.inj ((hcells 0 (by decide) 0 (by decide)).symm.trans (by decide +kernel))
  have hsecond : M 0 1 = #v[#v[1 / 2, -1 / 2], #v[-1 / 2, 1 / 2]] :=
    Except.ok.inj ((hcells 0 (by decide) 1 (by decide)).symm.trans (by decide +kernel))
  have hmiddle : 1 < matrices.template.slots := by
    rw [hstencil.slots_eq]
    decide
  have hfound : ∀ column slot, slot < 3 → Template.stencilColumn 1 2 1 slot = some column →
      matrices.template.findSlot 1 column = .ok (some slot) := fun column slot hslot hcolumn => by
    rw [Template.findSlot_eq_ok hmiddle,
      (hstencil.listed_eq_some_iff (by decide)).mpr ⟨hslot, hcolumn⟩]
  have hshared : sharedEntries twoCells.dim twoCells.order 1 1 (M 0) =
      [(M 0 0)[1][1], (M 0 1)[0][0]] := rfl
  have hnext : sharedEntries twoCells.dim twoCells.order 1 2 (M 0) = [(M 0 1)[0][1]] := rfl
  obtain ⟨hentries, -⟩ := hvalues 0 (by decide) 1 hmiddle
  obtain ⟨-, hzeros⟩ := hvalues 0 (by decide) 0 (Nat.zero_lt_of_lt hmiddle)
  refine ⟨matrices, hmatrices, ?_, ?_, hzeros 0 ?_ ?_⟩
  · rw [hentries 1 1 (hfound 1 1 (by decide) (by decide)), hshared, hfirst, hsecond]
    decide +kernel
  · rw [hentries 2 2 (hfound 2 2 (by decide) (by decide)), hnext, hsecond]
    decide +kernel
  · rw [hstencil.width_eq]
    decide
  · rw [hstencil.candidate_eq_ok (Nat.zero_lt_of_lt hmiddle) (by rw [hstencil.width_eq]; decide)]
    decide

end H1Kernel

end FemAssembly
