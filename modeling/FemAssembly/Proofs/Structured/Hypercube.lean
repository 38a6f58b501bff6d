import FemAssembly.Proofs.Assembly.Correctness
import FemAssembly.Proofs.Grid.Sums
import FemAssembly.Proofs.Template.Stencil
import FemAssembly.Structured.Nodes
import FemAssembly.Structured.Space

/-!
# Grids of cells

The nodes of the cells of a structured space are the points of one global grid: a node of a cell has
the coordinate `cell * order + inner` in each direction. So whether a cell references a degree of
freedom (DOF) is decided direction by direction.

* `Grid.Meets`: one direction of a cell and a DOF that it references. `Grid.multiplicity`: the
  number of cells with a given DOF in one direction.
* `Restriction.IsGrid`: the restriction of a grid of cells. No cell references a DOF twice, and the
  number of cells that reference a DOF is the product of those in all directions.
* `HypercubeFits`: the sizes for which the arrays of a grid of cells can exist.
* `StructuredSpace.IsHypercube`: what is known about the space of a unit cube.
  `StructuredSpace.isHypercube_of_result`, `StructuredSpace.exists_isHypercube`: what is made is
  such a space, and where the sizes fit one is made.
* `exists_gaussLobattoPoints_iff`, `exists_unitHypercube_gaussLobatto_iff`: the spaces with
  Gauss-Lobatto points as nodes.
-/

namespace FemAssembly

open Grid (coord point volume numCorners)

/-! ## Nodes and cells -/

namespace Grid

/-- In one direction, the cell `q` has the node with coordinate `x`. -/
def Meets (order q x : Nat) : Prop := q * order ≤ x ∧ x ≤ q * order + order

instance (order q x : Nat) : Decidable (Meets order q x) := inferInstanceAs (Decidable (_ ∧ _))

/-- How many cells of a line have the node with coordinate `x`: two if it is an end between two
cells, and otherwise one. -/
def multiplicity (cells order x : Nat) : Nat :=
  if order ∣ x ∧ 0 < x ∧ x < cells * order then 2 else 1

theorem multiplicity_pos (cells order x : Nat) : 0 < multiplicity cells order x := by
  unfold multiplicity
  split <;> decide

theorem multiplicity_le_two (cells order x : Nat) : multiplicity cells order x ≤ 2 := by
  unfold multiplicity
  split <;> decide

/-- A node inside of the cell `k`, with `0 < i`, is met by this cell, and an end of cells by those
on its two sides. -/
theorem meets_iff {order k i : Nat} (hi : i < order) {q : Nat} :
    Meets order q (k * order + i) ↔ q = k ∨ (i = 0 ∧ q + 1 = k) := by
  unfold Meets
  rcases Nat.lt_trichotomy q k with hlt | rfl | hlt
  · obtain ⟨d, rfl⟩ := Nat.exists_eq_add_of_lt hlt
    rw [Nat.add_mul, Nat.add_mul, Nat.one_mul]
    constructor
    · rintro ⟨-, hupper⟩
      have hd : d * order = 0 := by omega
      have : d = 0 := (Nat.mul_eq_zero.mp hd).resolve_right (Nat.ne_of_gt (Nat.zero_lt_of_lt hi))
      omega
    · rintro (heq | ⟨rfl, hnext⟩)
      · omega
      · obtain rfl : d = 0 := by omega
        omega
  · omega
  · have := Nat.mul_le_mul_right order (Nat.succ_le_of_lt hlt)
    rw [Nat.succ_mul] at this
    omega

theorem card_meets {cells order x : Nat} (horder : 0 < order) (hcells : 0 < cells)
    (hx : x ≤ cells * order) : ((Finset.range cells).filter fun q => Meets order q x).card =
      multiplicity cells order x := by
  have hi := Nat.mod_lt x horder
  rw [← Nat.div_add_mod' x order] at hx ⊢
  generalize x / order = k at hx ⊢
  generalize x % order = i at hi hx ⊢
  simp only [meets_iff hi]
  have hle : k ≤ cells := Nat.le_of_mul_le_mul_right (by omega) horder
  have hzero : 0 < k * order ↔ 0 < k := Nat.mul_pos_iff_of_pos_right horder
  have hlast : k * order < cells * order ↔ k < cells := Nat.mul_lt_mul_right horder
  rcases Nat.eq_zero_or_pos i with rfl | hpos
  · simp only [multiplicity, Nat.add_zero, Nat.dvd_mul_left, true_and, hzero, hlast]
    split
    · have hset : (Finset.range cells).filter (fun q => q = k ∨ q + 1 = k) = {k - 1, k} := by
        ext q
        simp only [Finset.mem_filter, Finset.mem_range, Finset.mem_insert, Finset.mem_singleton]
        omega
      rw [hset, Finset.card_pair (by omega)]
    · have hset : (Finset.range cells).filter (fun q => q = k ∨ q + 1 = k) = {k - 1} := by
        ext q
        simp only [Finset.mem_filter, Finset.mem_range, Finset.mem_singleton]
        omega
      rw [hset, Finset.card_singleton]
  · have hset : (Finset.range cells).filter (fun q => q = k ∨ i = 0 ∧ q + 1 = k) = {k} := by
      ext q
      simp only [Finset.mem_filter, Finset.mem_range, Finset.mem_singleton]
      omega
    have hdvd : ¬ order ∣ k * order + i := fun hdvd =>
      Nat.not_dvd_of_pos_of_lt hpos hi ((Nat.dvd_add_right (Nat.dvd_mul_left order k)).mp hdvd)
    rw [hset, Finset.card_singleton, multiplicity, if_neg fun h => hdvd h.1]

theorem card_meets_le {cells order x : Nat} (horder : 0 < order) (hx : x ≤ cells * order) :
    ((Finset.range cells).filter fun q => Meets order q x).card ≤ 2 := by
  rcases Nat.eq_zero_or_pos cells with rfl | hcells
  · simp
  · rw [card_meets horder hcells hx]
    exact multiplicity_le_two cells order x

end Grid

namespace StructuredSpace

variable {dim cells order e i d : Nat}

theorem nodeDof_eq (dim cells order e i : Nat) : nodeDof dim cells order e i =
    point dim (cells * order + 1) fun d => coord cells e d * order + coord (order + 1) i d := by
  rw [nodeDof, Grid.strided_eq_index, nodeCoords, Grid.zipWith_coords]
  rfl

/-- The coordinates of node `i` of cell `e` lie in the grid. -/
theorem nodeCoord_lt (he : e < volume cells dim) (hd : d < dim) (i : Nat) :
    coord cells e d * order + coord (order + 1) i d < cells * order + 1 := by
  have hcells := Grid.base_pos (Nat.zero_lt_of_lt hd) he
  have hcell := Nat.mul_le_mul_right order (Nat.succ_le_of_lt (Grid.coord_lt hcells e d))
  have hinner : coord (order + 1) i d < order + 1 := Grid.coord_lt (Nat.succ_pos order) i d
  rw [Nat.succ_mul] at hcell
  omega

theorem nodeDof_lt (he : e < volume cells dim) (i : Nat) :
    nodeDof dim cells order e i < volume (cells * order + 1) dim := by
  rw [nodeDof_eq]
  exact Grid.point_lt fun d hd => nodeCoord_lt he hd i

theorem coord_nodeDof (he : e < volume cells dim) (hd : d < dim) (i : Nat) :
    coord (cells * order + 1) (nodeDof dim cells order e i) d =
      coord cells e d * order + coord (order + 1) i d := by
  rw [nodeDof_eq]
  exact Grid.coord_point (fun d hd => nodeCoord_lt he hd i) hd

/-- The DOF of node `i` of cell `e` has its coordinates. -/
theorem nodeDof_eq_iff (he : e < volume cells dim) {dof : Nat} :
    nodeDof dim cells order e i = dof ↔ dof < volume (cells * order + 1) dim ∧ ∀ d < dim,
      coord cells e d * order + coord (order + 1) i d = coord (cells * order + 1) dof d := by
  constructor
  · rintro rfl
    exact ⟨nodeDof_lt he i, fun d hd => (coord_nodeDof he hd i).symm⟩
  · rintro ⟨hdof, hcoord⟩
    refine Grid.eq_of_coord_eq (nodeDof_lt he i) hdof fun d hd => ?_
    rw [coord_nodeDof he hd, hcoord d hd]

end StructuredSpace

/-! ## Restrictions -/

namespace Restriction

open StructuredSpace (nodeDof)

/-- The gather map that lists the DOFs `dofs e i` of the elements, one element after the other. -/
def gatherOf (elements slots : Nat) (dofs : Nat → Nat → Nat) : Array SignedIndex :=
  ((List.range elements).flatMap fun e =>
    (List.range slots).map fun i => SignedIndex.positive (dofs e i)).toArray

theorem size_gatherOf (elements slots : Nat) (dofs : Nat → Nat → Nat) :
    (gatherOf elements slots dofs).size = slots * elements := by
  simp [gatherOf, List.length_flatMap, Nat.mul_comm]

theorem of_gatherOf {numDofs slots elements : Nat} {dofs : Nat → Nat → Nat} {r : Restriction}
    (hlt : ∀ e < elements, ∀ i < slots, dofs e i < numDofs) (hslots : 0 < slots)
    (h : (ofGatherMap numDofs slots (gatherOf elements slots dofs)).result = .ok r) :
    r.numDofs = numDofs ∧ r.slots = slots ∧ r.numElements = elements ∧
      (∀ e < elements, ∀ i < slots, (r.dof e i).index = dofs e i) ∧
      ∀ e < elements, ∀ i < slots, (r.dof e i).isReversed = false := by
  obtain ⟨hnumDofs, hr_slots, hgather, hrows⟩ := of_ofGatherMap_eq_ok h
  have hlength : ∀ e, ((List.range slots).map fun i => SignedIndex.positive (dofs e i)).length =
      slots := fun e => by simp
  have hdof : ∀ e < elements, ∀ i < slots, r.dof e i = SignedIndex.encode (dofs e i) false := by
    intro e he i hi
    rw [dof, hgather, hr_slots, gatherOf, Array.getD_eq_getD_getElem?, List.getElem?_toArray,
      getElem?_flatMap hlength he hi]
    simp [hi, SignedIndex.positive]
  have hword : ∀ e < elements, ∀ i < slots, dofs e i < Word.signedBound := fun e he i hi => by
    have := hlt e he i hi
    omega
  refine ⟨hnumDofs, hr_slots, ?_, fun e he i hi => ?_, fun e he i hi => ?_⟩
  · rw [numElements, hgather, hr_slots, size_gatherOf, Nat.mul_div_cancel_left _ hslots]
  · rw [hdof e he i hi, SignedIndex.index_encode (hword e he i hi)]
  · rw [hdof e he i hi, SignedIndex.isReversed_encode (hword e he i hi)]

theorem index_lt_of_mem_gatherOf {numDofs slots elements : Nat} {dofs : Nat → Nat → Nat}
    (hlt : ∀ e < elements, ∀ i < slots, dofs e i < numDofs) (hnumDofs : numDofs < Word.signedBound)
    {s : SignedIndex} (hs : s ∈ gatherOf elements slots dofs) : s.index < numDofs := by
  obtain ⟨e, he, hs⟩ := List.mem_flatMap.mp (List.mem_toArray.mp hs)
  obtain ⟨i, hi, rfl⟩ := List.mem_map.mp hs
  have := hlt e (List.mem_range.mp he) i (List.mem_range.mp hi)
  rw [SignedIndex.positive, SignedIndex.index_encode (by omega)]
  exact this

/-- DOFs `dofs e i` that are in range, in lists that fit into arrays, make a restriction. -/
theorem exists_gatherOf {numDofs slots elements : Nat} {dofs : Nat → Nat → Nat}
    (hlt : ∀ e < elements, ∀ i < slots, dofs e i < numDofs)
    (hentries : slots * elements < Word.signedBound)
    (hrows : (numDofs + 1) * 8 < Word.signedBound) :
    ∃ r, (ofGatherMap numDofs slots (gatherOf elements slots dofs)).result = .ok r := by
  have hindex : ∀ s ∈ gatherOf elements slots dofs, s.index < numDofs :=
    fun s hs => index_lt_of_mem_gatherOf hlt (by omega) hs
  have hsize := size_gatherOf elements slots dofs
  obtain ⟨r, hr, -⟩ := exists_ofGatherMap (hsize ▸ Nat.dvd_mul_right slots elements) hindex
    (hsize ▸ hentries) hrows
  exact ⟨r, hr⟩

/-- The restriction `r` is that of a grid of cells, and its slots are the nodes of the cells. -/
structure IsGrid (r : Restriction) (dim cells order : Nat) : Prop where
  numDofs_eq : r.numDofs = volume (cells * order + 1) dim
  slots_eq : r.slots = volume (order + 1) dim
  numElements_eq : r.numElements = volume cells dim
  index_eq : ∀ e < volume cells dim, ∀ i < volume (order + 1) dim,
    (r.dof e i).index = nodeDof dim cells order e i
  isReversed_eq : ∀ e < volume cells dim, ∀ i < volume (order + 1) dim,
    (r.dof e i).isReversed = false

theorem isGrid_of_gatherOf {dim cells order : Nat} {r : Restriction}
    (h : (ofGatherMap (volume (cells * order + 1) dim) (volume (order + 1) dim)
      (gatherOf (volume cells dim) (volume (order + 1) dim) (nodeDof dim cells order))).result =
        .ok r) : r.IsGrid dim cells order := by
  have hlt : ∀ e < volume cells dim, ∀ i < volume (order + 1) dim,
      nodeDof dim cells order e i < volume (cells * order + 1) dim :=
    fun e he i _ => StructuredSpace.nodeDof_lt he i
  obtain ⟨hnumDofs, hslots, helements, hindex, hreversed⟩ :=
    of_gatherOf hlt (Grid.volume_pos (Nat.succ_pos order) dim) h
  exact ⟨hnumDofs, hslots, helements, hindex, hreversed⟩

namespace IsGrid

variable {r : Restriction} {dim cells order e i dof : Nat} (h : r.IsGrid dim cells order)
include h

theorem referencesAt_iff : r.ReferencesAt e i dof ↔ e < volume cells dim ∧
    i < volume (order + 1) dim ∧ nodeDof dim cells order e i = dof := by
  unfold ReferencesAt
  rw [h.numElements_eq, h.slots_eq]
  constructor
  · rintro ⟨he, hi, rfl⟩
    exact ⟨he, hi, (h.index_eq e he i hi).symm⟩
  · rintro ⟨he, hi, rfl⟩
    exact ⟨he, hi, h.index_eq e he i hi⟩

theorem coord_eq (href : r.ReferencesAt e i dof) : dof < volume (cells * order + 1) dim ∧
    ∀ d < dim, coord cells e d * order + coord (order + 1) i d =
      coord (cells * order + 1) dof d := by
  obtain ⟨he, -, hdof⟩ := h.referencesAt_iff.mp href
  exact (StructuredSpace.nodeDof_eq_iff he).mp hdof

theorem distinctDofs : r.DistinctDofs := by
  intro e i j dof hi hj
  obtain ⟨-, hltI, -⟩ := h.referencesAt_iff.mp hi
  obtain ⟨-, hltJ, -⟩ := h.referencesAt_iff.mp hj
  refine Grid.eq_of_coord_eq hltI hltJ fun d hd => ?_
  have := (h.coord_eq hi).2 d hd
  have := (h.coord_eq hj).2 d hd
  omega

/-- The cell `e` references the DOFs that it meets in every direction `d`. -/
theorem references_iff : r.References e dof ↔ e < volume cells dim ∧
    dof < volume (cells * order + 1) dim ∧
      ∀ d < dim, Grid.Meets order (coord cells e d) (coord (cells * order + 1) dof d) := by
  constructor
  · rintro ⟨i, href⟩
    obtain ⟨hdof, hcoord⟩ := h.coord_eq href
    refine ⟨(h.referencesAt_iff.mp href).1, hdof, fun d hd => ?_⟩
    have := hcoord d hd
    have : coord (order + 1) i d < order + 1 := Grid.coord_lt (Nat.succ_pos order) i d
    exact ⟨by omega, by omega⟩
  · rintro ⟨he, hdof, hmeets⟩
    have hinner : ∀ d < dim,
        coord (cells * order + 1) dof d - coord cells e d * order < order + 1 := fun d hd => by
      obtain ⟨-, hupper⟩ := hmeets d hd
      omega
    refine ⟨_, h.referencesAt_iff.mpr ⟨he, Grid.point_lt hinner,
      (StructuredSpace.nodeDof_eq_iff he).mpr ⟨hdof, fun d hd => ?_⟩⟩⟩
    obtain ⟨hlower, -⟩ := hmeets d hd
    rw [Grid.coord_point hinner hd]
    omega

/-- The DOF `dof` stands once in a cell, so its cells are counted, direction by direction. -/
theorem length_references_eq_prod (hdof : dof < r.numDofs) : (r.references dof).length =
    ∏ d : Fin dim, ((Finset.range cells).filter fun q =>
      Grid.Meets order q (coord (cells * order + 1) dof d)).card := by
  rw [h.numDofs_eq] at hdof
  have hnodup := h.distinctDofs.nodup_elements dof
  have hcells : ((r.references dof).map Prod.fst).toFinset =
      (Finset.range (volume cells dim)).filter fun e => ∀ d : Fin dim,
        Grid.Meets order (coord cells e d) (coord (cells * order + 1) dof d) := by
    ext e
    rw [List.mem_toFinset, mem_map_fst_references, h.references_iff, Finset.mem_filter,
      Finset.mem_range, and_iff_right hdof, Fin.forall_iff]
  calc (r.references dof).length
      = ((r.references dof).map Prod.fst).toFinset.card := by
        rw [List.toFinset_card_of_nodup hnodup, List.length_map]
    _ = ∑ e ∈ Finset.range (volume cells dim), ∏ d : Fin dim,
          if Grid.Meets order (coord cells e d) (coord (cells * order + 1) dof d) then 1
          else 0 := by
        rw [hcells, Finset.card_filter]
        refine Finset.sum_congr rfl fun e _ => ?_
        rw [Finset.prod_ite_zero]
        simp
    _ = ∏ d : Fin dim, ((Finset.range cells).filter fun q =>
          Grid.Meets order q (coord (cells * order + 1) dof d)).card := by
        simp only [Finset.card_filter]
        exact Grid.sum_prod_coord cells fun d q =>
          if Grid.Meets order q (coord (cells * order + 1) dof d) then 1 else 0

/-- In every direction, `dof` has two cells if it lies between cells, and otherwise one. -/
theorem length_references_eq (horder : 0 < order) (hcells : 0 < cells) (hdof : dof < r.numDofs) :
    (r.references dof).length = ∏ d : Fin dim,
      Grid.multiplicity cells order (coord (cells * order + 1) dof d) := by
  rw [h.length_references_eq_prod hdof]
  exact Finset.prod_congr rfl fun d _ => Grid.card_meets horder hcells
    (Nat.le_of_lt_succ (Grid.coord_lt (Nat.succ_pos _) dof d))

/-- The DOF `dof` has at most two cells in every direction. -/
theorem length_references_le (horder : 0 < order) (hdof : dof < r.numDofs) :
    (r.references dof).length ≤ numCorners dim :=
  calc (r.references dof).length
      = ∏ d : Fin dim, ((Finset.range cells).filter fun q =>
          Grid.Meets order q (coord (cells * order + 1) dof d)).card :=
        h.length_references_eq_prod hdof
    _ ≤ ∏ _d : Fin dim, 2 := Finset.prod_le_prod' fun d _ => Grid.card_meets_le horder
        (Nat.le_of_lt_succ (Grid.coord_lt (Nat.succ_pos _) dof d))
    _ = numCorners dim := by simp [numCorners, volume]

theorem checkDegree_eq_ok (horder : 0 < order) {limit : Nat} (hlimit : numCorners dim ≤ limit) :
    r.checkDegree limit = .ok () :=
  checkDegree_eq_ok_iff.mpr fun _ hdof => (h.length_references_le horder hdof).trans hlimit

end IsGrid

end Restriction

/-! ## Vertices -/

namespace VertexCoordinates

variable {α : Type}

theorem of_ofData_eq_ok {dim perElement numElements : Nat} {data : Array α}
    {c : VertexCoordinates α} (h : ofData dim perElement numElements data = .ok c) :
    c.dim = dim ∧ c.perElement = perElement ∧ c.numElements = numElements ∧ c.data = data := by
  obtain ⟨_, -, h⟩ := bind_eq_ok_iff.mp h
  obtain ⟨_, -, h⟩ := bind_eq_ok_iff.mp h
  split at h
  · cases h
    exact ⟨rfl, rfl, rfl, rfl⟩
  · cases h

theorem exists_ofData {dim perElement numElements : Nat} {data : Array α}
    (hentries : dim * perElement < Word.bound)
    (hsize : dim * perElement * numElements < Word.bound)
    (hdata : data.size = dim * perElement * numElements) :
    ∃ c, ofData dim perElement numElements data = .ok c := by
  unfold ofData
  simp only [Word.mul_eq_ok hentries, Word.mul_eq_ok hsize, bind, Except.bind]
  rw [dif_pos hdata]
  exact ⟨_, rfl⟩

/-- The coordinates of vertex `i` of element `e` stand at their place in the list. -/
theorem vertex_eq_ok {c : VertexCoordinates α} (hsize : c.data.size < Word.bound)
    (hdim : 0 < c.dim) {e i : Nat} (he : e < c.numElements) (hi : i < c.perElement) :
    c.vertex e i = .ok ((c.data.toList.drop (c.dim * (c.perElement * e + i))).take c.dim) := by
  have hplace : c.perElement * e + i < c.perElement * c.numElements := by
    have := Nat.mul_le_mul_left c.perElement (Nat.succ_le_of_lt he)
    rw [Nat.mul_succ] at this
    omega
  have hstop : c.dim * (c.perElement * e + i) + c.dim ≤ c.data.size := by
    rw [c.size_eq, Nat.mul_assoc, ← Nat.mul_succ]
    exact Nat.mul_le_mul_left c.dim hplace
  have hnumber : c.perElement * e + i ≤ c.dim * (c.perElement * e + i) :=
    Nat.le_mul_of_pos_left _ hdim
  have hmul : Word.mul c.perElement e = .ok (c.perElement * e) := Word.mul_eq_ok (by omega)
  have hadd : Word.add i (c.perElement * e) = .ok (c.perElement * e + i) := by
    rw [Word.add_eq_ok (by omega), Nat.add_comm]
  have hfirst : Word.mul c.dim (c.perElement * e + i) = .ok (c.dim * (c.perElement * e + i)) :=
    Word.mul_eq_ok (by omega)
  simp only [vertex, hmul, hadd, hfirst, bind, Except.bind, if_pos hstop]
  simp [pure, Except.pure]

end VertexCoordinates

/-! ## Spaces -/

/-- The arrays of a grid with `cells` cells in each of `dim` directions are small enough to exist.
-/
structure HypercubeFits (dim cells order : Nat) : Prop where
  entries : volume cells dim * volume (order + 1) dim * dim * 8 < Word.signedBound
  rows : (volume (cells * order + 1) dim + 1) * 8 < Word.signedBound

instance (dim cells order : Nat) : Decidable (HypercubeFits dim cells order) :=
  decidable_of_iff (_ ∧ _) ⟨fun h => ⟨h.1, h.2⟩, fun h => ⟨h.1, h.2⟩⟩

/-- The sizes on the way to the arrays of a grid that fits are words. -/
theorem HypercubeFits.words {dim cells order : Nat} (h : HypercubeFits dim cells order)
    (hdim : 1 ≤ dim) (hcells : 0 < cells) :
    (cells * order + 1 < Word.bound ∧ volume (cells * order + 1) dim < Word.bound) ∧
      (volume cells dim < Word.bound ∧ volume (order + 1) dim < Word.bound) ∧
        volume cells dim * volume (order + 1) dim < Word.bound ∧
          volume cells dim * volume (order + 1) dim * dim < Word.bound := by
  have hrows := h.rows
  have hbytes := h.entries
  have hnumDofs : volume (cells * order + 1) dim < Word.bound := Word.lt_bound (by omega)
  have hcoordinates : volume cells dim * volume (order + 1) dim * dim < Word.bound :=
    Word.lt_bound (by omega)
  have hentries : volume cells dim * volume (order + 1) dim < Word.bound :=
    Nat.lt_of_le_of_lt (Nat.le_mul_of_pos_right _ hdim) hcoordinates
  have helements : volume cells dim ≤ volume cells dim * volume (order + 1) dim :=
    Nat.le_mul_of_pos_right _ (Grid.volume_pos (Nat.succ_pos order) dim)
  have hperElement : volume (order + 1) dim ≤ volume cells dim * volume (order + 1) dim :=
    Nat.le_mul_of_pos_left _ (Grid.volume_pos hcells dim)
  exact ⟨⟨Nat.lt_of_le_of_lt (Grid.le_volume hdim _) hnumDofs, hnumDofs⟩,
    ⟨Nat.lt_of_le_of_lt helements hentries, Nat.lt_of_le_of_lt hperElement hentries⟩,
    hentries, hcoordinates⟩

namespace StructuredSpace

variable {α : Type} {dim cells order : Nat}

theorem getElem?_cellNodes {elements nodes e i : Nat} (he : e < elements) (hi : i < nodes) :
    (cellNodes elements nodes)[nodes * e + i]? = some (e, i) := by
  rw [cellNodes, getElem?_flatMap (fun e => by simp) he hi]
  simp [hi]

theorem gather_eq (dim cells order : Nat) (elements nodes : Nat) :
    ((cellNodes elements nodes).map fun p =>
      SignedIndex.positive (nodeDof dim cells order p.1 p.2)).toArray =
      Restriction.gatherOf elements nodes (nodeDof dim cells order) := by
  rw [cellNodes, List.map_flatMap, Restriction.gatherOf]
  simp [Function.comp_def]

variable [Zero α] [Add α] [Div α] [NatCast α]

theorem nodePosition_eq (points : Array α) (dim cells order e i : Nat) :
    nodePosition points dim cells order e i = (List.range dim).map fun d =>
      ((coord cells e d : α) + points.getD (coord (order + 1) i d) 0) / (cells : α) :=
  Grid.zipWith_coords ..

theorem size_nodePositions (points : Array α) (dim cells order elements nodes : Nat) :
    ((cellNodes elements nodes).flatMap fun p =>
      nodePosition points dim cells order p.1 p.2).toArray.size = elements * nodes * dim := by
  simp [cellNodes, nodePosition_eq, List.length_flatMap, Nat.mul_assoc]

theorem take_drop_nodePositions (points : Array α) {elements nodes e i : Nat} (he : e < elements)
    (hi : i < nodes) :
    (((cellNodes elements nodes).flatMap fun p =>
      nodePosition points dim cells order p.1 p.2).drop (dim * (nodes * e + i))).take dim =
      nodePosition points dim cells order e i := by
  obtain ⟨hlt, hnode⟩ := List.getElem?_eq_some_iff.mp (getElem?_cellNodes he hi)
  rw [take_drop_flatMap (fun p => by simp [nodePosition_eq]) hlt, hnode]

/-- The space `space` is that of a unit cube, with the given node `points` in each direction. -/
structure IsHypercube (space : StructuredSpace α) (points : List α) (dim cells order : Nat) :
    Prop where
  dim_eq : space.dim = dim
  order_eq : space.order = order
  isGrid : space.restriction.IsGrid dim cells order
  vertices_dim : space.vertices.dim = dim
  perElement_eq : space.vertices.perElement = volume (order + 1) dim
  numElements_eq : space.vertices.numElements = volume cells dim
  vertex_eq : ∀ e < volume cells dim, ∀ i < volume (order + 1) dim,
    space.vertices.vertex e i = .ok (nodePosition points.toArray dim cells order e i)

/-- What is made as `space` comes from the gather map of the nodes and the list of their
coordinates. -/
theorem of_result_unitHypercube {nodes : Nat → Except Error (List α)} {space : StructuredSpace α}
    (h : (unitHypercube nodes dim cells order).result = .ok space) :
    1 ≤ dim ∧ dim ≤ 3 ∧ 0 < cells ∧ HypercubeFits dim cells order ∧
      ∃ points, nodes order = .ok points ∧ space.dim = dim ∧ space.order = order ∧
        (Restriction.ofGatherMap (volume (cells * order + 1) dim) (volume (order + 1) dim)
          (Restriction.gatherOf (volume cells dim) (volume (order + 1) dim)
            (nodeDof dim cells order))).result = .ok space.restriction ∧
        VertexCoordinates.ofData dim (volume (order + 1) dim) (volume cells dim)
          ((cellNodes (volume cells dim) (volume (order + 1) dim)).flatMap fun p =>
            nodePosition points.toArray dim cells order p.1 p.2).toArray = .ok space.vertices ∧
        space.boundaryDofs = (List.range (volume (cells * order + 1) dim)).filter
          (onBoundary dim (cells * order + 1)) := by
  unfold unitHypercube at h
  split at h
  · cases h
  rename_i hdim
  obtain ⟨hdim, hle⟩ := not_not.mp hdim
  split at h
  · cases h
  rename_i hcells
  simp only [Noted.result_bind, Noted.result_liftM] at h
  obtain ⟨points, hpoints, h⟩ := bind_eq_ok_iff.mp h
  obtain ⟨perDim, hperDim, h⟩ := bind_eq_ok_iff.mp h
  obtain ⟨_, hmul, hadd⟩ := bind_eq_ok_iff.mp hperDim
  obtain ⟨-, rfl⟩ := Word.fit_eq_ok_iff.mp hmul
  obtain ⟨-, rfl⟩ := Word.fit_eq_ok_iff.mp hadd
  obtain ⟨_, hnumDofs, h⟩ := bind_eq_ok_iff.mp h
  obtain ⟨-, rfl⟩ := Word.pow_eq_ok_iff.mp hnumDofs
  obtain ⟨_, helements, h⟩ := bind_eq_ok_iff.mp h
  obtain ⟨-, rfl⟩ := Word.pow_eq_ok_iff.mp helements
  obtain ⟨_, hperElement, h⟩ := bind_eq_ok_iff.mp h
  obtain ⟨-, rfl⟩ := Word.pow_eq_ok_iff.mp hperElement
  obtain ⟨_, hentries, h⟩ := bind_eq_ok_iff.mp h
  obtain ⟨-, rfl⟩ := Word.fit_eq_ok_iff.mp hentries
  obtain ⟨_, hcoordinates, h⟩ := bind_eq_ok_iff.mp h
  obtain ⟨-, rfl⟩ := Word.fit_eq_ok_iff.mp hcoordinates
  obtain ⟨_, hreserve, h⟩ := bind_eq_ok_iff.mp h
  obtain ⟨restriction, hrestriction, h⟩ := bind_eq_ok_iff.mp h
  obtain ⟨vertices, hvertices, h⟩ := bind_eq_ok_iff.mp h
  obtain rfl := Except.ok.inj h
  rw [gather_eq] at hrestriction
  exact ⟨hdim, hle, Nat.pos_of_ne_zero hcells, ⟨Word.reserve_eq_ok_iff.mp hreserve,
    (Restriction.of_ofGatherMap_eq_ok hrestriction).2.2.2⟩, points, hpoints, rfl, rfl,
    hrestriction, hvertices, rfl⟩

/-- What is made as `space` is the space of a unit cube. -/
theorem isHypercube_of_result {nodes : Nat → Except Error (List α)} {space : StructuredSpace α}
    (h : (unitHypercube nodes dim cells order).result = .ok space) :
    1 ≤ dim ∧ dim ≤ 3 ∧ 0 < cells ∧ HypercubeFits dim cells order ∧
      ∃ points, nodes order = .ok points ∧ space.IsHypercube points dim cells order := by
  obtain ⟨hdim, hle, hcells, hfits, points, hpoints, hspaceDim, horder, hrestriction, hvertices,
    -⟩ := of_result_unitHypercube h
  obtain ⟨hvdim, hper, hnum, hdata⟩ := VertexCoordinates.of_ofData_eq_ok hvertices
  refine ⟨hdim, hle, hcells, hfits, points, hpoints, hspaceDim, horder,
    Restriction.isGrid_of_gatherOf hrestriction, hvdim, hper, hnum, fun e he i hi => ?_⟩
  have hsize : space.vertices.data.size < Word.bound := by
    rw [space.vertices.size_eq, hvdim, hper, hnum, Nat.mul_assoc, Nat.mul_comm dim,
      Nat.mul_comm (volume (order + 1) dim)]
    exact (hfits.words hdim hcells).2.2.2
  rw [VertexCoordinates.vertex_eq_ok hsize (by omega) (hnum ▸ he) (hper ▸ hi), hdata, hvdim, hper]
  exact congrArg Except.ok (take_drop_nodePositions points.toArray he hi)

/-- The space of a unit cube is made where its arrays can exist, with the `points` that `nodes`
gives. -/
theorem exists_isHypercube {nodes : Nat → Except Error (List α)} {points : List α}
    (hnodes : nodes order = .ok points) (hdim : 1 ≤ dim) (hle : dim ≤ 3) (hcells : 0 < cells)
    (hfits : HypercubeFits dim cells order) :
    ∃ space, (unitHypercube nodes dim cells order).result = .ok space ∧
      space.IsHypercube points dim cells order := by
  obtain ⟨⟨hpoints, hnumDofs⟩, ⟨helements, hperElement⟩, hentries, hcoordinates⟩ :=
    hfits.words hdim hcells
  have hgather : volume (order + 1) dim * volume cells dim < Word.signedBound := by
    have hbytes := hfits.entries
    have := Nat.le_mul_of_pos_right (volume cells dim * volume (order + 1) dim) hdim
    rw [Nat.mul_comm]
    omega
  have hlt : ∀ e < volume cells dim, ∀ i < volume (order + 1) dim,
      nodeDof dim cells order e i < volume (cells * order + 1) dim :=
    fun e he i _ => nodeDof_lt he i
  obtain ⟨r, hr⟩ := Restriction.exists_gatherOf hlt hgather hfits.rows
  have hsize : dim * volume (order + 1) dim * volume cells dim =
      volume cells dim * volume (order + 1) dim * dim := by
    rw [Nat.mul_assoc, Nat.mul_comm dim, Nat.mul_comm (volume (order + 1) dim)]
  obtain ⟨vertices, hvertices⟩ := VertexCoordinates.exists_ofData
    (Nat.lt_of_le_of_lt (Nat.le_mul_of_pos_right _ (Grid.volume_pos hcells dim))
      (hsize ▸ hcoordinates)) (hsize ▸ hcoordinates)
    ((size_nodePositions points.toArray dim cells order _ _).trans hsize.symm)
  have hspace : ∃ space, (unitHypercube nodes dim cells order).result = .ok space := by
    unfold unitHypercube
    rw [if_neg (not_not.mpr ⟨hdim, hle⟩), if_neg (Nat.ne_of_gt hcells)]
    simp only [Noted.result_bind, Noted.result_liftM]
    rw [← gather_eq] at hr
    have hperDim : (Word.mul cells order >>= (Word.add · 1)) = .ok (cells * order + 1) :=
      bind_eq_ok_iff.mpr ⟨_, Word.mul_eq_ok (Nat.lt_of_succ_lt hpoints), Word.add_eq_ok hpoints⟩
    exact ⟨_, bind_eq_ok_iff.mpr ⟨_, hnodes, bind_eq_ok_iff.mpr ⟨_, hperDim,
      bind_eq_ok_iff.mpr ⟨_, Word.pow_eq_ok_iff.mpr ⟨hnumDofs, rfl⟩,
      bind_eq_ok_iff.mpr ⟨_, Word.pow_eq_ok_iff.mpr ⟨helements, rfl⟩,
      bind_eq_ok_iff.mpr ⟨_, Word.pow_eq_ok_iff.mpr ⟨hperElement, rfl⟩,
      bind_eq_ok_iff.mpr ⟨_, Word.mul_eq_ok hentries,
      bind_eq_ok_iff.mpr ⟨_, Word.mul_eq_ok hcoordinates,
      bind_eq_ok_iff.mpr ⟨_, Word.reserve_eq_ok hfits.entries, bind_eq_ok_iff.mpr ⟨_, hr,
      bind_eq_ok_iff.mpr ⟨_, hvertices, rfl⟩⟩⟩⟩⟩⟩⟩⟩⟩⟩⟩
  obtain ⟨space, hspace⟩ := hspace
  obtain ⟨-, -, -, -, points', hpoints', hcube⟩ := isHypercube_of_result hspace
  obtain rfl := Except.ok.inj (hnodes.symm.trans hpoints')
  exact ⟨space, hspace, hcube⟩

/-- A `space` is made in one to three dimensions, of some cells, where its arrays can exist. -/
theorem exists_result_unitHypercube_iff {nodes : Nat → Except Error (List α)} :
    (∃ space, (unitHypercube nodes dim cells order).result = .ok space) ↔ 1 ≤ dim ∧ dim ≤ 3 ∧
      0 < cells ∧ HypercubeFits dim cells order ∧ ∃ points, nodes order = .ok points := by
  constructor
  · rintro ⟨space, hspace⟩
    obtain ⟨hdim, hle, hcells, hfits, points, hpoints, -⟩ := isHypercube_of_result hspace
    exact ⟨hdim, hle, hcells, hfits, points, hpoints⟩
  · rintro ⟨hdim, hle, hcells, hfits, points, hpoints⟩
    obtain ⟨space, hspace, -⟩ := exists_isHypercube hpoints hdim hle hcells hfits
    exact ⟨space, hspace⟩

end StructuredSpace

/-! ## Gauss-Lobatto points -/

/-- The `points` exist for every positive `order` for which they fit into an array. -/
theorem exists_gaussLobattoPoints_iff {order : Nat} :
    (∃ points, gaussLobattoPoints order = .ok points) ↔
      0 < order ∧ (order + 1) * 8 < Word.signedBound := by
  unfold gaussLobattoPoints
  by_cases horder : order = 0
  · simp [horder]
  · rw [if_neg horder]
    constructor
    · rintro ⟨points, h⟩
      obtain ⟨_, hreserve, -⟩ := bind_eq_ok_iff.mp h
      exact ⟨Nat.pos_of_ne_zero horder, Word.reserve_eq_ok_iff.mp hreserve⟩
    · rintro ⟨-, hfits⟩
      exact ⟨_, bind_eq_ok_iff.mpr ⟨_, Word.reserve_eq_ok hfits, rfl⟩⟩

/-- The unit cube with Gauss-Lobatto points exists where its arrays fit. -/
theorem exists_unitHypercube_gaussLobatto_iff {dim cells order : Nat} :
    (∃ space, (StructuredSpace.unitHypercube gaussLobattoPoints dim cells order).result =
      .ok space) ↔ 1 ≤ dim ∧ dim ≤ 3 ∧ 0 < cells ∧ 0 < order ∧ HypercubeFits dim cells order := by
  rw [StructuredSpace.exists_result_unitHypercube_iff, exists_gaussLobattoPoints_iff]
  constructor
  · rintro ⟨hdim, hle, hcells, hfits, horder, -⟩
    exact ⟨hdim, hle, hcells, horder, hfits⟩
  · rintro ⟨hdim, hle, hcells, horder, hfits⟩
    have hnode : order + 1 ≤ volume cells dim * volume (order + 1) dim * dim := calc
      order + 1 ≤ volume (order + 1) dim := Grid.le_volume hdim _
      _ ≤ volume cells dim * volume (order + 1) dim :=
        Nat.le_mul_of_pos_left _ (Grid.volume_pos hcells dim)
      _ ≤ volume cells dim * volume (order + 1) dim * dim := Nat.le_mul_of_pos_right _ hdim
    have hentries := hfits.entries
    exact ⟨hdim, hle, hcells, hfits, horder, by omega⟩

end FemAssembly
