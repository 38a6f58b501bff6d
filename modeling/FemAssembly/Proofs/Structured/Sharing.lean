import FemAssembly.Proofs.Structured.Hypercube

/-!
# Shared nodes

The cells of a structured space share the nodes on their common faces, and nothing else. The arrays
of the space are made without a mistake, so that only their sizes can be refused.

* `StructuredSpace.unitHypercube_ne_error`: a grid of cells fails for its size, and in no other way.
* `Restriction.SharesNodes`: nodes of cells are one degree of freedom (DOF) where their coordinates
  agree, and the degree of a DOF tells how many cells meet there.
* `StructuredSpace.unitHypercube_shares`: structured spaces are made of such restrictions.
-/

namespace FemAssembly

open Grid (coord volume)

namespace VertexCoordinates

variable {α : Type}

/-- A list `data` of the right length is refused for its size, and in no other way. -/
theorem ofData_ne_error {dim perElement numElements : Nat} {data : Array α}
    (hdata : data.size = dim * perElement * numElements) {error : Error}
    (herror : error ≠ .fault .overflow) : ofData dim perElement numElements data ≠ .error error :=
  bind_ne_error (Word.fit_ne_error herror) fun _ _ =>
    bind_ne_error (Word.fit_ne_error herror) fun _ _ => by
      rw [dif_pos hdata]
      nofun

end VertexCoordinates

namespace Restriction

/-- The restriction `r` is that of a grid of cells that share their common nodes. -/
structure SharesNodes (r : Restriction) (dim cells order : Nat) : Prop where
  numDofs_eq : r.numDofs = volume (cells * order + 1) dim
  /-- the DOF of a node has the coordinates of the node -/
  coord_eq : ∀ e < volume cells dim, ∀ i < volume (order + 1) dim, ∃ s, r.elementDof e i = .ok s ∧
    s.index < r.numDofs ∧ s.isReversed = false ∧
    ∀ d < dim, coord (cells * order + 1) s.index d = coord cells e d * order + coord (order + 1) i d
  index_eq_iff : ∀ e < volume cells dim, ∀ e' < volume cells dim, ∀ i < volume (order + 1) dim,
    ∀ i' < volume (order + 1) dim, ∃ s s', r.elementDof e i = .ok s ∧ r.elementDof e' i' = .ok s' ∧
      (s.index = s'.index ↔ ∀ d < dim, coord cells e d * order + coord (order + 1) i d =
        coord cells e' d * order + coord (order + 1) i' d)
  distinctDofs : r.DistinctDofs
  degree_eq : ∀ dof < r.numDofs, r.degree dof =
    .ok (∏ d : Fin dim, if order ∣ coord (cells * order + 1) dof d ∧
      0 < coord (cells * order + 1) dof d ∧ coord (cells * order + 1) dof d < cells * order then 2
      else 1)
  exists_references : ∀ dof < r.numDofs, ∃ e, r.References e dof
  degree_le : ∀ dof degree, r.degree dof = .ok degree → degree ≤ 2 ^ dim

theorem dof_lt_of_degree_eq_ok {r : Restriction} {dof degree : Nat}
    (h : r.degree dof = .ok degree) : dof < r.numDofs := by
  unfold Restriction.degree at h
  rw [← size_incident]
  cases hget : r.incident[dof]? with
  | none =>
    rw [hget] at h
    cases h
  | some list => exact (Array.getElem?_eq_some_iff.mp hget).1

/-- The cells of a grid `r` share their common nodes. -/
theorem IsGrid.sharesNodes {r : Restriction} {dim cells order : Nat} (h : r.IsGrid dim cells order)
    (hcells : 0 < cells) (horder : 0 < order) : r.SharesNodes dim cells order := by
  have hdof : ∀ e < volume cells dim, ∀ i < volume (order + 1) dim,
      r.elementDof e i = .ok (r.dof e i) := fun e he i hi =>
    elementDof_eq_ok (h.numElements_eq ▸ he) (h.slots_eq ▸ hi)
  refine ⟨h.numDofs_eq, fun e he i hi => ?_, fun e he e' he' i hi i' hi' => ?_, h.distinctDofs,
    fun dof hdof => ?_, fun dof hdof => ?_, fun dof degree hdegree => ?_⟩
  · refine ⟨_, hdof e he i hi, ?_, h.isReversed_eq e he i hi, fun d hd => ?_⟩
    · rw [h.index_eq e he i hi, h.numDofs_eq]
      exact StructuredSpace.nodeDof_lt he i
    · rw [h.index_eq e he i hi, StructuredSpace.coord_nodeDof he hd]
  · refine ⟨_, _, hdof e he i hi, hdof e' he' i' hi', ?_⟩
    rw [h.index_eq e he i hi, h.index_eq e' he' i' hi', StructuredSpace.nodeDof_eq_iff he,
      and_iff_right (StructuredSpace.nodeDof_lt he' i')]
    exact forall₂_congr fun d hd => by rw [StructuredSpace.coord_nodeDof he' hd]
  · rw [degree_eq_ok hdof, h.length_references_eq horder hcells hdof]
    rfl
  · have hpos : 0 < (r.references dof).length := by
      rw [h.length_references_eq horder hcells hdof]
      exact Finset.prod_pos fun d _ => Grid.multiplicity_pos ..
    obtain ⟨⟨e, i⟩, hmem⟩ := List.exists_mem_of_length_pos hpos
    exact ⟨e, i, mem_references.mp hmem⟩
  · have hdof := dof_lt_of_degree_eq_ok hdegree
    rw [degree_eq_ok hdof] at hdegree
    obtain rfl := Except.ok.inj hdegree
    exact h.length_references_le horder hdof

end Restriction

namespace StructuredSpace

variable {α : Type} [Zero α] [Add α] [Div α] [NatCast α] {dim cells order : Nat}

/-- The nodes of cells, `nodeDof dim cells order`, make a valid gather map. -/
theorem validGatherMap_nodeDof (hnumDofs : volume (cells * order + 1) dim < Word.signedBound) :
    Restriction.ValidGatherMap (volume (cells * order + 1) dim) (volume (order + 1) dim)
      (Restriction.gatherOf (volume cells dim) (volume (order + 1) dim)
        (nodeDof dim cells order)) := by
  refine Restriction.validGatherMap_iff.mpr
    ⟨Restriction.size_gatherOf .. ▸ Nat.dvd_mul_right .., fun s hs => ?_⟩
  exact Restriction.index_lt_of_mem_gatherOf (fun e he i _ => nodeDof_lt he i) hnumDofs hs

/-- There are at most as many DOFs as nodes of cells, for some `cells`. -/
theorem numDofs_le (dim order : Nat) {cells : Nat} (hcells : 0 < cells) :
    volume (cells * order + 1) dim ≤ volume cells dim * volume (order + 1) dim := by
  change (cells * order + 1) ^ dim ≤ cells ^ dim * (order + 1) ^ dim
  rw [← Nat.mul_pow]
  refine Nat.pow_le_pow_left ?_ dim
  rw [Nat.mul_succ]
  exact Nat.add_le_add_left hcells _

/-- A grid of cells whose `nodes` have points fails for its size, and in no other way. -/
theorem unitHypercube_ne_error {nodes : Nat → Except Error (List α)} {points : List α}
    (hnodes : nodes order = .ok points) (hdim : 1 ≤ dim) (hle : dim ≤ 3) (hcells : 0 < cells)
    {error : Error} (herror : error ≠ .fault .overflow) :
    (unitHypercube nodes dim cells order).result ≠ .error error := by
  unfold unitHypercube
  rw [if_neg (not_not.mpr ⟨hdim, hle⟩), if_neg (Nat.ne_of_gt hcells)]
  simp only [Noted.result_bind, Noted.result_liftM, hnodes]
  refine bind_ne_error nofun fun _ heq => ?_
  obtain rfl := Except.ok.inj heq
  refine bind_ne_error (bind_ne_error (Word.fit_ne_error herror) fun _ _ =>
    Word.fit_ne_error herror) fun _ hperDim => ?_
  obtain ⟨_, hmul, hadd⟩ := bind_eq_ok_iff.mp hperDim
  obtain ⟨-, rfl⟩ := Word.fit_eq_ok_iff.mp hmul
  obtain ⟨-, rfl⟩ := Word.fit_eq_ok_iff.mp hadd
  refine bind_ne_error (Word.pow_ne_error herror) fun _ hnumDofs => ?_
  obtain ⟨-, rfl⟩ := Word.pow_eq_ok_iff.mp hnumDofs
  refine bind_ne_error (Word.pow_ne_error herror) fun _ helements => ?_
  obtain ⟨-, rfl⟩ := Word.pow_eq_ok_iff.mp helements
  refine bind_ne_error (Word.pow_ne_error herror) fun _ hperElement => ?_
  obtain ⟨-, rfl⟩ := Word.pow_eq_ok_iff.mp hperElement
  refine bind_ne_error (Word.fit_ne_error herror) fun _ hentries => ?_
  obtain ⟨-, rfl⟩ := Word.fit_eq_ok_iff.mp hentries
  refine bind_ne_error (Word.fit_ne_error herror) fun _ hcoordinates => ?_
  obtain ⟨-, rfl⟩ := Word.fit_eq_ok_iff.mp hcoordinates
  refine bind_ne_error (Word.reserve_ne_error herror) fun _ hreserve => ?_
  have hbytes := Word.reserve_eq_ok_iff.mp hreserve
  have hle := Nat.le_mul_of_pos_right (volume cells dim * volume (order + 1) dim) hdim
  have hnumDofs : volume (cells * order + 1) dim < Word.signedBound := by
    have := numDofs_le dim order hcells
    omega
  refine bind_ne_error ?_ fun restriction _ => bind_ne_error ?_ fun vertices _ => nofun
  · rw [gather_eq]
    exact Restriction.ofGatherMap_ne_error (validGatherMap_nodeDof hnumDofs) herror
  · refine VertexCoordinates.ofData_ne_error ?_ herror
    rw [size_nodePositions, Nat.mul_comm, Nat.mul_assoc, Nat.mul_comm (volume cells dim)]

/-- A `space` of `dim` dimensions, one to three, of some `cells` and a positive `order`, can only be
refused for its size. The gather map and the list of coordinates that it is made of are accepted.
Nodes of cells are one DOF where their coordinates agree in every direction; no cell has a DOF
twice; and the degree of a DOF doubles with every direction in which it lies between two cells. -/
theorem unitHypercube_shares {nodes : Nat → Except Error (List α)} {points : List α}
    (hnodes : nodes order = .ok points) (hdim : 1 ≤ dim) (hle : dim ≤ 3) (hcells : 0 < cells)
    (horder : 0 < order) :
    (∀ error, (unitHypercube nodes dim cells order).result = .error error →
      error = .fault .overflow) ∧
    ((∃ space, (unitHypercube nodes dim cells order).result = .ok space) ↔
      HypercubeFits dim cells order) ∧
    ∀ space, (unitHypercube nodes dim cells order).result = .ok space →
      (Restriction.ofGatherMap (volume (cells * order + 1) dim) (volume (order + 1) dim)
        (Restriction.gatherOf (volume cells dim) (volume (order + 1) dim)
          (nodeDof dim cells order))).result = .ok space.restriction ∧
      VertexCoordinates.ofData dim (volume (order + 1) dim) (volume cells dim)
        ((cellNodes (volume cells dim) (volume (order + 1) dim)).flatMap fun p =>
          nodePosition points.toArray dim cells order p.1 p.2).toArray = .ok space.vertices ∧
      space.restriction.SharesNodes dim cells order := by
  refine ⟨fun error herror => ?_, ?_, fun space hspace => ?_⟩
  · by_contra hne
    exact unitHypercube_ne_error hnodes hdim hle hcells hne herror
  · rw [exists_result_unitHypercube_iff, and_iff_right hdim, and_iff_right hle,
      and_iff_right hcells, and_iff_left ⟨points, hnodes⟩]
  · obtain ⟨-, -, -, -, points', hpoints', -, -, hrestriction, hvertices, -⟩ :=
      of_result_unitHypercube hspace
    obtain rfl := Except.ok.inj (hnodes.symm.trans hpoints')
    exact ⟨hrestriction, hvertices,
      (Restriction.isGrid_of_gatherOf hrestriction).sharesNodes hcells horder⟩

/-- Four cells of order two in a square: the DOF `12` is in all cells, `2` in two of them, and `6`
in a single cell. -/
theorem unitHypercube_shares_square : (∃ points, gaussLobattoPoints 2 = .ok points) ∧
    ∃ space, (unitHypercube gaussLobattoPoints 2 2 2).result = .ok space ∧
      space.restriction.degree 12 = .ok 4 ∧ space.restriction.degree 2 = .ok 2 ∧
      space.restriction.degree 6 = .ok 1 := by
  obtain ⟨points, hpoints⟩ := exists_gaussLobattoPoints_iff.mpr (by decide : 0 < 2 ∧ _)
  obtain ⟨-, hexists, hspace⟩ :
      _ ∧ ((∃ space, (unitHypercube gaussLobattoPoints 2 2 2).result = .ok space) ↔ _) ∧ _ :=
    unitHypercube_shares hpoints (by decide) (by decide) (by decide) (by decide)
  obtain ⟨space, hresult⟩ := hexists.mpr (by decide)
  obtain ⟨-, -, hshares⟩ := hspace space hresult
  have hdegree := hshares.degree_eq
  rw [hshares.numDofs_eq] at hdegree
  exact ⟨⟨points, hpoints⟩, space, hresult, hdegree 12 (by decide), hdegree 2 (by decide),
    hdegree 6 (by decide)⟩

end StructuredSpace

end FemAssembly
