import FemAssembly.Proofs.Distributed.Assembly
import FemAssembly.Proofs.Distributed.Partition

/-!
# The interval on several ranks

The cells of the unit interval are shared out to the ranks in contiguous blocks, each of which is an
interval of its own. Assembly on these parts gives the matrix of the whole interval.

* `ElementValues.slice`: the values of a block of cells.
* `IntervalPart.Fits`: the sizes for which the parts and their stencil can be made.
* `Assembler.decomposition_interval`: the parts make up the interval.
* `Assembler.interval_eliminated_eq_serial`: assembly on the parts, with elimination, is assembly on
  the interval.
-/

namespace FemAssembly

/-! ## Values of a block of cells -/

namespace ElementValues

variable {α : Type}

/-- The values of `count` elements from element `first` on. -/
def slice (v : ElementValues α) (first count : Nat) : ElementValues α where
  width := v.width
  slots := v.slots
  numElements := min count (v.numElements - first)
  data := v.data.extract (v.width * v.slots * first) (v.width * v.slots * (first + count))
  size_eq := by
    rw [Array.size_extract, v.size_eq, Nat.mul_min_mul_left, ← Nat.mul_sub]
    congr 1
    omega

theorem get_slice {v : ElementValues α} {first count l i k : Nat}
    (hcount : first + count ≤ v.numElements) (hl : l < v.width) (hi : i < v.slots)
    (hk : k < count) :
    (v.slice first count).get l i k = v.get l i (first + k) := by
  have hposition : v.position l i (first + k) =
      v.width * v.slots * first + (v.slice first count).position l i k := by
    simp only [position, slice]
    ring
  have hlt : (v.slice first count).position l i k < v.width * v.slots * count :=
    position_lt (v := v.slice first count) hl hi hk
  have hsize : v.width * v.slots * (first + count) ≤ v.data.size := by
    rw [v.size_eq]
    exact Nat.mul_le_mul_left _ hcount
  have hdata : (v.slice first count).data = v.data.extract (v.width * v.slots * first)
      (v.width * v.slots * (first + count)) := rfl
  rw [get, get, hposition, hdata, Array.getElem?_extract, if_pos]
  rw [Nat.min_eq_left hsize, Nat.mul_add, Nat.add_sub_cancel_left]
  exact hlt

end ElementValues

/-! ## Sizes -/

namespace IntervalPart

variable {cells order ranks : Nat}

/-- The sizes of the interval with `cells` of `order`, of its stencil and of its parts for `ranks`
fit into words. -/
structure Fits (cells order ranks : Nat) : Prop extends IntervalFits cells order where
  candidates : (order + 1) * 3 * 16 < Word.signedBound
  products : ranks * cells < Word.bound

end IntervalPart

/-! ## Assembly on the parts -/

namespace Assembler

open IntervalPart

variable {α : Type} {a : Assembler α} {cells order ranks : Nat}

/-- The cells of `rank` are consecutive. -/
theorem elementsOf_rankOfCell (hcells : a.restriction.IsInterval cells order) (hranks : 0 < ranks)
    (hle : ranks ≤ cells) {rank : Nat} (hrank : rank < ranks) :
    a.elementsOf (rankOfCell cells ranks) rank =
      (List.range (cellCount cells ranks rank)).map (cellStart cells ranks rank + ·) := by
  have hsum : cellStart cells ranks rank + cellCount cells ranks rank = _ :=
    cellStart_add_cellCount hranks hle
  have hstop := cellStart_add_cellCount_le hranks hle hrank
  have hrange : ((List.range (cellCount cells ranks rank)).map
      (cellStart cells ranks rank + ·)).Pairwise (· < ·) :=
    List.pairwise_map.mpr (List.pairwise_lt_range.imp fun h => Nat.add_lt_add_left h _)
  rw [elementsOf, hcells.numElements_eq]
  refine (List.pairwise_lt_range.filter _).eq_of_mem_iff hrange fun e => ?_
  rw [List.mem_filter, beq_iff_eq, rankOfCell_eq_iff hranks (Nat.lt_of_lt_of_le hranks hle), ← hsum,
    List.mem_range, List.mem_map]
  constructor
  · rintro ⟨-, hstart, hlt⟩
    exact ⟨e - cellStart cells ranks rank, List.mem_range.mpr (by omega), by omega⟩
  · rintro ⟨k, hk, rfl⟩
    have := List.mem_range.mp hk
    omega

/-- The assembler `b` of `rank` has the part `p` of its cells. -/
structure HoldsPart (a : Assembler α) (cells ranks rank : Nat) (p : IntervalPart α)
    (b : Assembler α) : Prop where
  restriction_eq : b.restriction = p.space.restriction
  template_eq : b.template = a.template
  values_eq : b.values = a.values.slice (cellStart cells ranks rank) (cellCount cells ranks rank)

section

variable (hranks : 0 < ranks) (hle : ranks ≤ cells)
include hranks hle

/-- The assembler `b` of `rank` has the cells of its part `p`, in their order. -/
theorem share_interval [One α] [Add α] {rank : Nat} (hrank : rank < ranks)
    (hcells : a.restriction.IsInterval cells order) {p : IntervalPart α} {b : Assembler α}
    (hcovers : p.Covers cells order ranks rank) (hpart : a.HoldsPart cells ranks rank p b) :
    a.Share b (a.elementsOf (rankOfCell cells ranks) rank)
      fun i => cellStart cells ranks rank * order + i := by
  have hstop := cellStart_add_cellCount_le hranks hle hrank
  have hinterval := hcovers.isInterval
  have hslots := hcells.slots_eq
  rw [← hpart.restriction_eq] at hinterval
  rw [elementsOf_rankOfCell hcells hranks hle hrank]
  have hcell : ∀ {k e}, ((List.range (cellCount cells ranks rank)).map
      (cellStart cells ranks rank + ·))[k]? = some e →
      k < cellCount cells ranks rank ∧ e = cellStart cells ranks rank + k := by
    intro k e hk
    rw [List.getElem?_map, Option.map_eq_some_iff] at hk
    obtain ⟨k', hk', rfl⟩ := hk
    obtain ⟨hlt, rfl⟩ := List.getElem?_eq_some_iff.mp hk'
    simpa using hlt
  refine ⟨hpart.template_eq, ?_, fun e he => ?_, fun k e hk i hi => ?_, fun k e hk i hi l hl => ?_⟩
  · rw [hinterval.numElements_eq, List.length_map, List.length_range]
  · obtain ⟨k, hk, rfl⟩ := List.mem_map.mp he
    have := List.mem_range.mp hk
    rw [hcells.numElements_eq]
    omega
  · obtain ⟨hcount, rfl⟩ := hcell hk
    have he : cellStart cells ranks rank + k < cells := by omega
    rw [hslots] at hi
    rw [hinterval.index_eq k hcount i hi, hcells.index_eq _ he i hi,
      hinterval.isReversed_eq k hcount i hi, hcells.isReversed_eq _ he i hi, Nat.add_mul,
      Nat.add_assoc]
    exact ⟨rfl, rfl⟩
  · obtain ⟨hcount, rfl⟩ := hcell hk
    rw [hpart.values_eq]
    refine ElementValues.get_slice ?_ (a.values_width ▸ hl) (a.values_slots ▸ hi) hcount
    rw [a.values_elements, hcells.numElements_eq]
    exact hstop

/-- The parts `p rank` of the interval, in their own numberings, are a decomposition of it. -/
theorem decomposition_interval [Ring α] {part : Nat → Assembler α} {p : Nat → IntervalPart α}
    (hcovers : ∀ rank < ranks, (p rank).Covers cells order ranks rank)
    (hcells : a.restriction.IsInterval cells order)
    (hstarts : RowStarts (rowStarts cells order ranks) ranks)
    (hpart : ∀ rank < ranks, a.HoldsPart cells ranks rank (p rank) (part rank)) :
    a.Decomposition (rowStarts cells order ranks) ranks (rankOfCell cells ranks) part
      (fun rank i => cellStart cells ranks rank * order + i) fun rank => (p rank).layout where
  rankOf_lt e he := rankOfCell_lt hranks (hcells.numElements_eq ▸ he)
  share rank hrank :=
    share_interval hranks hle hrank hcells (hcovers rank hrank) (hpart rank hrank)
  starts_eq_ok := checkRowStarts_eq_ok_iff.mpr hstarts
  globalSize_eq := by
    rw [hstarts.globalSize_eq, getD_rowStarts_ranks, numDofs, hcells.numDofs_eq]
  rowStarts_eq rank hrank := (hcovers rank hrank).rowStarts_eq
  numbers rank hrank := by
    rw [Layout.effective, (hcovers rank hrank).prolongation_eq, Option.getD_some, numDofs, numDofs,
      (hpart rank hrank).restriction_eq, (hcovers rank hrank).isInterval.numDofs_eq,
      hcells.numDofs_eq]
    exact numbers_numbering (number_lt hranks hle hrank)

end

/-- The assembler of the part `p` of an interval. -/
theorem exists_holdsPart [One α] [Add α] (horder : 0 < order) (hranks : 0 < ranks)
    (hle : ranks ≤ cells) {rank : Nat} (hrank : rank < ranks)
    (hcells : a.restriction.IsInterval cells order)
    (hstencil : a.template.ListsNeighbours order) {p : IntervalPart α}
    (hcovers : p.Covers cells order ranks rank) (kind : Discretization) {options : Options}
    (hdegree : min (cellCount cells ranks rank) 2 ≤ options.maxDegree) :
    ∃ b, (ofParts kind p.space.restriction a.template
        (a.values.slice (cellStart cells ranks rank) (cellCount cells ranks rank))
        options).result = .ok b ∧ a.HoldsPart cells ranks rank p b := by
  have hinterval := hcovers.isInterval
  have hstop := cellStart_add_cellCount_le hranks hle hrank
  have helements : (a.values.slice (cellStart cells ranks rank)
      (cellCount cells ranks rank)).numElements = p.space.restriction.numElements := by
    have := a.values_elements.trans hcells.numElements_eq
    rw [hinterval.numElements_eq]
    simp only [ElementValues.slice]
    omega
  obtain ⟨b, hb⟩ := exists_ofParts kind
    (v := a.values.slice (cellStart cells ranks rank) (cellCount cells ranks rank))
    (hinterval.checkDegree_eq_ok horder hdegree)
    (hstencil.slots_eq.trans hinterval.slots_eq.symm)
    (a.values_slots.trans (hcells.slots_eq.trans hinterval.slots_eq.symm)) a.values_width helements
  obtain ⟨-, hr, ht, hv, -⟩ := result_ofParts_eq_ok_iff.mp hb
  exact ⟨b, hb, hr, ht, hv⟩

section

variable [Ring α] [Div α] [BEq α] [LawfulBEq α] {β σ : Type} [Plain β UInt8] [LawfulPlain β UInt8]
  [Plain β Nat] [LawfulIndices β] [Plain β α] [LawfulPlain β α]

/-- The unit interval on any number of `ranks` up to the number of `cells`. Where the sizes fit into
words, `Fits cells order ranks`, the spaces of all parts and the assemblers on them can be made,
with the stencil as the `template` and the `values` of the cells of each rank. All interleavings of
the ranks' programs end, and in exact arithmetic the ranks then hold the rows of serial assembly on
the whole interval, with ones on the diagonal of the essential `dofs`. -/
theorem interval_eliminated_eq_serial {nodes : Nat → Except Error (List α)} {points : List α}
    (hnodes : nodes order = .ok points) (horder : 0 < order) (hranks : 0 < ranks)
    (hle : ranks ≤ cells) (hfits : Fits cells order ranks) (kind : Discretization)
    {values : ElementValues α} (hwidth : values.width = 3) (hslots : values.slots = order + 1)
    (helements : values.numElements = cells) {options : Options} {rankOptions : Nat → Options}
    (hdegree : min cells 2 ≤ options.maxDegree)
    (hrankDegree : ∀ rank < ranks,
      min (cellCount cells ranks rank) 2 ≤ (rankOptions rank).maxDegree)
    {dofs : List Nat} (hdofs : ∀ dof ∈ dofs, dof < cells * order + 1) {essential : Nat → List Nat}
    (hessential : EssentialRows (rowStarts cells order ranks) ranks dofs essential) :
    ∃ space parts template a, ∃ (part : Nat → Assembler α) (layout : Nat → Layout α), ∃ A M,
      (StructuredSpace.unitHypercube nodes 1 cells order).result = .ok space ∧
      (unitIntervalParts nodes cells order ranks).result = .ok parts ∧ parts.length = ranks ∧
      Template.tensorStencil 1 order = .ok template ∧
      (ofParts kind space.restriction template values options).result = .ok a ∧
      (∀ rank < ranks, ∃ p, parts[rank]? = some p ∧ layout rank = p.layout ∧
        (ofParts kind p.space.restriction template (values.slice (cellStart cells ranks rank)
          (cellCount cells ranks rank)) (rankOptions rank)).result = .ok (part rank)) ∧
      (a.assemble dofs).result = .ok A ∧
      Completes ranks (fun rank => ((part rank).assembleDistributed ⟨rank, ranks⟩ (layout rank)
        (essential rank) : RankProgram β σ (DistributedMatrix α))) M ∧
      (∀ dof ∈ dofs, (A.unitDiagonal dofs).get? dof dof = some 1) ∧
      stackedRows ranks M = (A.unitDiagonal dofs).rows.toList := by
  have hpos := Nat.lt_of_lt_of_le hranks hle
  obtain ⟨space, hspace, hcells, -⟩ :=
    StructuredSpace.exists_unitHypercube hnodes hpos hfits.toIntervalFits
  obtain ⟨parts, hparts, hlength, hcovers⟩ :=
    exists_unitIntervalParts hnodes hranks hle hfits.toIntervalFits hfits.products
  obtain ⟨template, htemplate, hstencil⟩ := Template.exists_tensorStencil hfits.candidates
  obtain ⟨a, ha⟩ := exists_ofParts kind (hcells.checkDegree_eq_ok horder hdegree)
    (hstencil.slots_eq.trans hcells.slots_eq.symm) (hslots.trans hcells.slots_eq.symm)
    (hwidth.trans hstencil.width_eq.symm) (helements.trans hcells.numElements_eq.symm)
  obtain ⟨-, hrestriction, ht, hv, -⟩ := result_ofParts_eq_ok_iff.mp ha
  rw [← hrestriction] at hcells
  rw [← ht] at hstencil
  have hpart : ∀ rank < ranks, ∃ p b, parts[rank]? = some p ∧ p.Covers cells order ranks rank ∧
      (ofParts kind p.space.restriction template (values.slice (cellStart cells ranks rank)
        (cellCount cells ranks rank)) (rankOptions rank)).result = .ok b ∧
      a.HoldsPart cells ranks rank p b := by
    intro rank hrank
    obtain ⟨p, hp, hcovers⟩ := hcovers rank hrank
    obtain ⟨b, hb, hholds⟩ := exists_holdsPart horder hranks hle hrank hcells hstencil hcovers kind
      (hrankDegree rank hrank)
    exact ⟨p, b, hp, hcovers, ht ▸ hv ▸ hb, hholds⟩
  obtain ⟨first, -, -⟩ := hcovers 0 hranks
  have : Nonempty (IntervalPart α) := ⟨first⟩
  have : Nonempty (Assembler α) := ⟨a⟩
  choose! p part hp hcovered hbuilt hholds using hpart
  have hnumDofs : a.numDofs = cells * order + 1 := hcells.numDofs_eq
  have hreserve : (a.numDofs + 1) * 8 < Word.signedBound := hnumDofs ▸ hfits.rows
  have hstarts := rowStarts_of_fits hfits.toIntervalFits hranks hle
  obtain ⟨A, M, hA, hstored, hM, hrows⟩ := (decomposition_interval hranks hle hcovered hcells
    hstarts hholds).eliminated_eq_serial (β := β) (σ := σ) hreserve
    hcells.distinctDofs (coherent_of_isInterval hcells hstencil horder)
    (fun _ _ _ => (asserts_comm_of_isInterval hcells hstencil).mp) (fun rank hrank => by
      rw [Layout.effective, (hcovered rank hrank).prolongation_eq, Option.getD_some]
      exact storesOnes_numbering (number_lt hranks hle hrank))
    (hnumDofs ▸ hdofs) hessential
  refine ⟨space, parts, template, a, part, fun rank => (p rank).layout, A, M, hspace, hparts,
    hlength, htemplate, ha, fun rank hrank => ⟨p rank, hp rank hrank, rfl, hbuilt rank hrank⟩, hA,
    hM, fun dof hdof => ?_, hrows⟩
  obtain ⟨e, href⟩ := hcells.exists_references hpos horder
    (show dof < a.restriction.numDofs from hcells.numDofs_eq ▸ hdofs dof hdof)
  have hsome := (hstored dof dof).mpr ⟨e, asserts_self_of_isInterval hcells hstencil href⟩
  obtain ⟨value, hvalue⟩ := Option.isSome_iff_exists.mp hsome
  rw [SparseMatrix.get?_unitDiagonal, hvalue, Option.map_some, if_pos ⟨rfl, hdof⟩]

end

/-- The values of two cells of order one. The second cell is twice as stiff. -/
def twoCells : ElementValues Int where
  width := 3
  slots := 2
  numElements := 2
  data := #[0, 1, -1, -1, 1, 0, 0, 2, -2, -2, 2, 0]
  size_eq := rfl

/-- The node points of order one. -/
def endPoints (_ : Nat) : Except Error (List Int) := .ok [0, 1]

/-- Two cells on two ranks, where the DOF between them is essential. The second rank owns it. -/
theorem interval_eliminated_eq_serial_twoCells :
    ∃ a : Assembler Int, ∃ (part : Nat → Assembler Int) (layout : Nat → Layout Int),
      ∃ (A : SparseMatrix Int) (M : Nat → DistributedMatrix Int),
      a.values = twoCells ∧ (a.assemble [1]).result = .ok A ∧
      Completes 2 (fun rank => ((part rank).assembleDistributed ⟨rank, 2⟩ (layout rank)
        (if rank = 1 then [0] else []) : RankProgram (Cell Int) Unit (DistributedMatrix Int))) M ∧
      (A.unitDiagonal [1]).get? 1 1 = some 1 ∧
      stackedRows 2 M = (A.unitDiagonal [1]).rows.toList := by
  have hessential : EssentialRows (rowStarts 2 1 2) 2 [1] fun rank =>
      if rank = 1 then [0] else [] := by
    have hstarts : rowStarts 2 1 2 = #[0, 1, 3] := by decide
    intro rank hrank row
    rw [hstarts]
    interval_cases rank <;> simp [Owns] <;> omega
  have hdegree : ∀ rank < 2, min (cellCount 2 2 rank) 2 ≤ ({} : Options).maxDegree := by decide
  obtain ⟨_, _, _, a, part, layout, A, M, -, -, -, -, ha, -, hA, hM, hunit, hrows⟩ :=
    interval_eliminated_eq_serial (β := Cell Int) (σ := Unit)
      (show endPoints 1 = .ok [0, 1] from rfl) (by decide) (by decide) (by decide)
      (⟨⟨by decide, by decide⟩, by decide, by decide⟩ : Fits 2 1 2) .h1
      (show twoCells.width = 3 from rfl) rfl rfl
      (show min 2 2 ≤ ({} : Options).maxDegree by decide) hdegree
      (show ∀ dof ∈ [1], dof < 2 * 1 + 1 by decide) hessential
  obtain ⟨-, -, -, hvalues, -⟩ := result_ofParts_eq_ok_iff.mp ha
  exact ⟨a, part, layout, A, M, hvalues, hA, hM, hunit 1 (by simp), hrows⟩

end Assembler

end FemAssembly
