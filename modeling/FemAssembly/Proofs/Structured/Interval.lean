import FemAssembly.Proofs.Structured.Hypercube

/-!
# The interval

The grid of cells in one direction is an interval. Its cells lie in a line, and a cell shares its
right end with its right neighbour. The stencil of one direction couples a node to itself and to its
neighbours.

* `IntervalFits`: the sizes for which the arrays of a line of cells can exist.
* `Restriction.IsInterval`: the restriction of such a line of cells. Two cells share at most one
  degree of freedom (DOF), and no DOF has more than two cells.
* `Template.ListsNeighbours`: the template of the stencil.
* `Template.exists_tensorStencil`, `StructuredSpace.exists_unitHypercube`: where their sizes fit
  into words, the template and the space of the unit interval exist.
* `Assembler.coherent_of_isInterval`, `Assembler.asserts_comm_of_isInterval`: on an interval the
  stencil is coherent and symmetric.
-/

namespace FemAssembly

/-! ## Lines of cells -/

/-- The arrays of a line of `cells` cells are small enough to exist. -/
structure IntervalFits (cells order : Nat) : Prop where
  entries : cells * (order + 1) * 8 < Word.signedBound
  rows : (cells * order + 2) * 8 < Word.signedBound

/-- A line of `cells` cells is a grid in one direction. -/
theorem hypercubeFits_one_iff {cells order : Nat} :
    HypercubeFits 1 cells order ↔ IntervalFits cells order := by
  constructor
  · rintro ⟨hentries, hrows⟩
    rw [Grid.volume_one, Grid.volume_one, Nat.mul_one] at hentries
    rw [Grid.volume_one] at hrows
    exact ⟨hentries, hrows⟩
  · rintro ⟨hentries, hrows⟩
    refine ⟨?_, ?_⟩
    · rwa [Grid.volume_one, Grid.volume_one, Nat.mul_one]
    · rwa [Grid.volume_one]

/-- Fewer cells, `cells'` of them, fit, too. -/
theorem IntervalFits.mono {cells cells' order : Nat} (h : IntervalFits cells order)
    (hle : cells' ≤ cells) : IntervalFits cells' order := by
  have hentries := h.entries
  have hrows := h.rows
  have := Nat.mul_le_mul_right (order + 1) hle
  have := Nat.mul_le_mul_right order hle
  exact ⟨by omega, by omega⟩

namespace Restriction

/-- The restriction `r` is that of a line of `cells` cells, each with `order + 1` DOFs from its left
end to its right end. -/
structure IsInterval (r : Restriction) (cells order : Nat) : Prop where
  numDofs_eq : r.numDofs = cells * order + 1
  slots_eq : r.slots = order + 1
  numElements_eq : r.numElements = cells
  index_eq : ∀ e < cells, ∀ i < order + 1, (r.dof e i).index = e * order + i
  isReversed_eq : ∀ e < cells, ∀ i < order + 1, (r.dof e i).isReversed = false

/-- The DOF of node `i` of cell `e` is in the line. -/
theorem line_lt {cells order e i : Nat} (he : e < cells) (hi : i < order + 1) :
    e * order + i < cells * order + 1 := by
  have := Nat.mul_le_mul_right order (Nat.succ_le_of_lt he)
  rw [Nat.succ_mul] at this
  omega

theorem isInterval_of_gatherOf {r : Restriction} {cells order : Nat}
    (h : (ofGatherMap (cells * order + 1) (order + 1)
      (gatherOf cells (order + 1) fun e i => e * order + i)).result = .ok r) :
    r.IsInterval cells order := by
  have hlt : ∀ e < cells, ∀ i < order + 1, e * order + i < cells * order + 1 :=
    fun e he i hi => line_lt he hi
  obtain ⟨hnumDofs, hslots, helements, hindex, hreversed⟩ := of_gatherOf hlt (Nat.succ_pos order) h
  exact ⟨hnumDofs, hslots, helements, hindex, hreversed⟩

/-- A line of `cells` cells whose sizes fit makes a restriction `r`. -/
theorem exists_isInterval {cells order : Nat} (hfits : IntervalFits cells order) :
    ∃ r, (ofGatherMap (cells * order + 1) (order + 1)
        (gatherOf cells (order + 1) fun e i => e * order + i)).result = .ok r ∧
      r.IsInterval cells order := by
  have hlt : ∀ e < cells, ∀ i < order + 1, e * order + i < cells * order + 1 :=
    fun e he i hi => line_lt he hi
  have hentries : (order + 1) * cells < Word.signedBound := by
    have := hfits.entries
    rw [Nat.mul_comm]
    omega
  obtain ⟨r, hr⟩ := exists_gatherOf hlt hentries hfits.rows
  exact ⟨r, hr, isInterval_of_gatherOf hr⟩

/-- A grid in one direction is a line of `cells` cells. -/
theorem IsGrid.isInterval {r : Restriction} {cells order : Nat} (h : r.IsGrid 1 cells order) :
    r.IsInterval cells order := by
  obtain ⟨hnumDofs, hslots, helements, hindex, hreversed⟩ := h
  simp only [Grid.volume_one] at hnumDofs hslots helements hindex hreversed
  refine ⟨hnumDofs, hslots, helements, fun e he i hi => ?_, hreversed⟩
  rw [hindex e he i hi]
  simp [StructuredSpace.nodeDof, StructuredSpace.nodeCoords, Grid.coords, Grid.strided,
    Nat.mod_eq_of_lt he, Nat.mod_eq_of_lt hi]

namespace IsInterval

variable {r : Restriction} {cells order : Nat} (h : r.IsInterval cells order)
include h

theorem referencesAt_iff {e i dof : Nat} :
    r.ReferencesAt e i dof ↔ e < cells ∧ i < order + 1 ∧ e * order + i = dof := by
  unfold ReferencesAt
  rw [h.numElements_eq, h.slots_eq]
  constructor
  · rintro ⟨he, hi, rfl⟩
    exact ⟨he, hi, (h.index_eq e he i hi).symm⟩
  · rintro ⟨he, hi, rfl⟩
    exact ⟨he, hi, h.index_eq e he i hi⟩

theorem distinctDofs : r.DistinctDofs := by
  intro e i j dof hi hj
  have := (h.referencesAt_iff.mp hi).2.2
  have := (h.referencesAt_iff.mp hj).2.2
  omega

/-- A cell `e` shares its right end with the next cell, and nothing with the cells `e'` after it. -/
theorem eq_of_lt (horder : 0 < order) {e e' i i' dof : Nat} (hlt : e < e')
    (href : r.ReferencesAt e i dof) (href' : r.ReferencesAt e' i' dof) :
    e' = e + 1 ∧ i = order ∧ i' = 0 := by
  obtain ⟨-, hi, hdof⟩ := h.referencesAt_iff.mp href
  obtain ⟨-, -, hdof'⟩ := h.referencesAt_iff.mp href'
  obtain ⟨d, rfl⟩ := Nat.exists_eq_add_of_lt hlt
  rw [Nat.add_mul, Nat.add_mul, Nat.one_mul] at hdof'
  have hd : d * order = 0 := by omega
  have : d = 0 := (Nat.mul_eq_zero.mp hd).resolve_right (Nat.ne_of_gt horder)
  omega

/-- Cells `e` and `e'` that share the two DOFs `row` and `column` are the same. -/
theorem element_eq (horder : 0 < order) {e e' row column : Nat} (hne : row ≠ column)
    (hrow : r.References e row) (hcolumn : r.References e column) (hrow' : r.References e' row)
    (hcolumn' : r.References e' column) : e = e' := by
  obtain ⟨i, hi⟩ := hrow
  obtain ⟨j, hj⟩ := hcolumn
  obtain ⟨i', hi'⟩ := hrow'
  obtain ⟨j', hj'⟩ := hcolumn'
  have hrow := (h.referencesAt_iff.mp hi).2.2
  have hcolumn := (h.referencesAt_iff.mp hj).2.2
  rcases Nat.lt_trichotomy e e' with hlt | heq | hlt
  · have := h.eq_of_lt horder hlt hi hi'
    have := h.eq_of_lt horder hlt hj hj'
    omega
  · exact heq
  · have := h.eq_of_lt horder hlt hi' hi
    have := h.eq_of_lt horder hlt hj' hj
    omega

theorem exists_references (hcells : 0 < cells) (horder : 0 < order) {dof : Nat}
    (hdof : dof < r.numDofs) : ∃ e i, r.ReferencesAt e i dof := by
  rw [h.numDofs_eq] at hdof
  by_cases hlast : dof = cells * order
  · have hpred : (cells - 1) * order + order = cells * order := by
      rw [← Nat.succ_mul, Nat.succ_eq_add_one, Nat.sub_add_cancel hcells]
    exact ⟨cells - 1, order, h.referencesAt_iff.mpr ⟨by omega, by omega, by omega⟩⟩
  · have hdiv : dof / order < cells := (Nat.div_lt_iff_lt_mul horder).mpr (by omega)
    have hmod := Nat.mod_lt dof horder
    have := Nat.div_add_mod' dof order
    exact ⟨dof / order, dof % order, h.referencesAt_iff.mpr ⟨hdiv, by omega, by omega⟩⟩

/-- A DOF `dof` is in one cell, or in two neighbours. -/
theorem length_references_le (horder : 0 < order) (dof : Nat) :
    (r.references dof).length ≤ min cells 2 := by
  have hmem : ∀ {e i}, (e, i) ∈ r.references dof → r.ReferencesAt e i dof := mem_references.mp
  have hnodup := h.distinctDofs.nodup_elements dof
  have hlt : ((r.references dof).map Prod.fst).Pairwise (· < ·) :=
    ((pairwise_fst_references dof).and hnodup).imp fun hle => Nat.lt_of_le_of_ne hle.1 hle.2
  refine Nat.le_min.mpr ⟨?_, ?_⟩
  · have hsub : (r.references dof).map Prod.fst ⊆ List.range cells := fun e he => by
      obtain ⟨i, hi⟩ := mem_map_fst_references.mp he
      exact List.mem_range.mpr (h.referencesAt_iff.mp hi).1
    simpa using (List.subperm_of_subset hnodup hsub).length_le
  · -- the third of three cells would come right after the first
    match hlist : r.references dof with
    | [] | [_] | [_, _] => simp
    | (e, i) :: (e', i') :: (e'', i'') :: _ =>
      rw [hlist] at hlt hmem
      simp only [List.map_cons, List.pairwise_cons, List.mem_cons] at hlt
      have hfirst : r.ReferencesAt e i dof := hmem (by simp)
      have hsecond : r.ReferencesAt e' i' dof := hmem (by simp)
      have hthird : r.ReferencesAt e'' i'' dof := hmem (by simp)
      have := h.eq_of_lt horder (hlt.1 e' (by simp)) hfirst hsecond
      have := h.eq_of_lt horder (hlt.1 e'' (by simp)) hfirst hthird
      have := hlt.2.1 e'' (by simp)
      omega

theorem checkDegree_eq_ok (horder : 0 < order) {limit : Nat} (hlimit : min cells 2 ≤ limit) :
    r.checkDegree limit = .ok () :=
  checkDegree_eq_ok_iff.mpr fun dof _ => (h.length_references_le horder dof).trans hlimit

end IsInterval

end Restriction

/-! ## The stencil -/

namespace Template

/-- The slots of `t` are in a line, and each is coupled to itself and to its neighbours. -/
structure ListsNeighbours (t : Template) (order : Nat) : Prop where
  slots_eq : t.slots = order + 1
  width_eq : t.width = 3
  lists_iff : ∀ i < order + 1, ∀ j, t.Lists i j ↔ j < order + 1 ∧ i ≤ j + 1 ∧ j ≤ i + 1

/-- The stencil of one direction is made, and couples neighbours in a line. -/
theorem exists_tensorStencil {order : Nat} (hfits : (order + 1) * 3 * 16 < Word.signedBound) :
    ∃ t, tensorStencil 1 order = .ok t ∧ t.ListsNeighbours order := by
  obtain ⟨t, ht⟩ : ∃ t, tensorStencil 1 order = .ok t := by
    rw [exists_tensorStencil_iff Nat.one_pos, Grid.volume_one, Grid.volume_one]
    exact hfits
  have hstencil := isStencil_of_tensorStencil ht
  refine ⟨t, ht, hstencil.slots_eq.trans (Grid.volume_one _),
    hstencil.width_eq.trans (Grid.volume_one 3), fun i hi j => ?_⟩
  rw [hstencil.lists_iff (by rwa [Grid.volume_one]), Grid.volume_one]
  refine and_congr_right fun hj => ?_
  rw [Grid.near_one hi hj]

end Template

/-! ## Spaces -/

namespace StructuredSpace

variable {α : Type} [Zero α] [Add α] [Div α] [NatCast α]

/-- The unit interval is made of `cells` cells whose sizes fit. -/
theorem exists_unitHypercube {nodes : Nat → Except Error (List α)} {points : List α}
    {cells order : Nat} (hnodes : nodes order = .ok points) (hcells : 0 < cells)
    (hfits : IntervalFits cells order) :
    ∃ space, (unitHypercube nodes 1 cells order).result = .ok space ∧
      space.restriction.IsInterval cells order ∧
      space.vertices.data.size = cells * (order + 1) := by
  obtain ⟨space, hspace, hcube⟩ := exists_isHypercube hnodes (Nat.le_refl 1) (by decide) hcells
    (hypercubeFits_one_iff.mpr hfits)
  refine ⟨space, hspace, hcube.isGrid.isInterval, ?_⟩
  rw [space.vertices.size_eq, hcube.vertices_dim, hcube.perElement_eq, hcube.numElements_eq,
    Grid.volume_one, Grid.volume_one, Nat.one_mul, Nat.mul_comm]

end StructuredSpace

/-! ## Assemblers -/

namespace Assembler

variable {α : Type} {a : Assembler α} {cells order : Nat}
  (hcells : a.restriction.IsInterval cells order) (hstencil : a.template.ListsNeighbours order)
include hcells hstencil

theorem couples_iff_of_isInterval {e i j row column : Nat} : a.Couples e i j row column ↔
    e < cells ∧ i < order + 1 ∧ j < order + 1 ∧ i ≤ j + 1 ∧ j ≤ i + 1 ∧ e * order + i = row ∧
      e * order + j = column := by
  unfold Couples
  rw [hcells.referencesAt_iff, hcells.referencesAt_iff]
  constructor
  · rintro ⟨⟨he, hi, hrow⟩, ⟨-, hj, hcolumn⟩, hlists⟩
    obtain ⟨-, hij, hji⟩ := (hstencil.lists_iff i hi j).mp hlists
    exact ⟨he, hi, hj, hij, hji, hrow, hcolumn⟩
  · rintro ⟨he, hi, hj, hij, hji, hrow, hcolumn⟩
    exact ⟨⟨he, hi, hrow⟩, ⟨he, hj, hcolumn⟩, (hstencil.lists_iff i hi j).mpr ⟨hj, hij, hji⟩⟩

theorem asserts_comm_of_isInterval {e row column : Nat} :
    a.Asserts e row column ↔ a.Asserts e column row := by
  have hmirror : ∀ {row column}, a.Asserts e row column → a.Asserts e column row := by
    rintro row column ⟨i, j, hcouples⟩
    obtain ⟨he, hi, hj, hij, hji, hrow, hcolumn⟩ :=
      (couples_iff_of_isInterval hcells hstencil).mp hcouples
    exact ⟨j, i, (couples_iff_of_isInterval hcells hstencil).mpr
      ⟨he, hj, hi, hji, hij, hcolumn, hrow⟩⟩
  exact ⟨hmirror, hmirror⟩

theorem asserts_self_of_isInterval {e dof : Nat} (href : a.restriction.References e dof) :
    a.Asserts e dof dof := by
  obtain ⟨i, hi⟩ := href
  obtain ⟨he, hslot, hdof⟩ := hcells.referencesAt_iff.mp hi
  exact ⟨i, i, (couples_iff_of_isInterval hcells hstencil).mpr
    ⟨he, hslot, hslot, Nat.le_succ i, Nat.le_succ i, hdof, hdof⟩⟩

/-- Cells that share a pair of different DOFs are one cell, and all cells couple a DOF to itself, so
`a` is coherent. -/
theorem coherent_of_isInterval (horder : 0 < order) : a.Coherent := by
  intro row column e e' hrow hcolumn hrow' hcolumn'
  by_cases heq : row = column
  · subst heq
    exact iff_of_true (asserts_self_of_isInterval hcells hstencil hrow)
      (asserts_self_of_isInterval hcells hstencil hrow')
  · rw [hcells.element_eq horder heq hrow hcolumn hrow' hcolumn']

end Assembler

end FemAssembly
