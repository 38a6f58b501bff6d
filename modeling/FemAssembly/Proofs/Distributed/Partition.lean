import FemAssembly.Proofs.Distributed.Choice
import FemAssembly.Proofs.Structured.Interval
import FemAssembly.Structured.Partition

/-!
# The partition of the interval

The cells of the unit interval are shared out to the ranks in contiguous blocks, each of which is an
interval of its own. Rank `r` starts with cell `r * cells / ranks`.

* `IntervalPart.cellStart`, `IntervalPart.rankOfCell`: the first cell of a rank, and the rank of a
  cell.
* `IntervalPart.rowStarts`: the first rows of the ranks, which are a row partition.
* `IntervalPart.of_ofCells_eq_ok`, `IntervalPart.exists_ofCells`: the part of some cells.
* `IntervalPart.of_unitIntervalParts_eq_ok`, `IntervalPart.exists_unitIntervalParts`: the parts of
  all ranks.
* `IntervalPart.Mirrors`: a part that agrees with the whole interval.
* `IntervalPart.unitIntervalParts_mirror`: all parts do so, for every ratio of cells to ranks.
-/

namespace FemAssembly

/-! ## Vertices of a block of cells -/

namespace VertexCoordinates

variable {α : Type}

/-- The vertices in `c'` of some elements in a row from `first` on, taken out of those of all
elements in `c`. -/
theorem vertex_eq_of_extract {c c' : VertexCoordinates α} {first : Nat}
    (hsize : c.data.size < Word.bound) (hpos : 0 < c.dim) (hdim : c'.dim = c.dim)
    (hper : c'.perElement = c.perElement) (hnum : first + c'.numElements ≤ c.numElements)
    (hdata : c'.data = c.data.extract (c.dim * c.perElement * first)
      (c.dim * c.perElement * (first + c'.numElements)))
    {e i : Nat} (he : e < c'.numElements) (hi : i < c.perElement) :
    ∃ x, c'.vertex e i = .ok x ∧ c.vertex (first + e) i = .ok x := by
  have hsize' : c'.data.size < Word.bound := by
    refine Nat.lt_of_le_of_lt ?_ hsize
    rw [c'.size_eq, c.size_eq, hdim, hper]
    exact Nat.mul_le_mul_left _ (by omega)
  have hplace : c.dim * (c.perElement * e + i) + c.dim ≤ c.dim * c.perElement * c'.numElements := by
    rw [Nat.mul_assoc, ← Nat.mul_succ]
    refine Nat.mul_le_mul_left _ (Nat.succ_le_of_lt ?_)
    have := Nat.mul_le_mul_left c.perElement (Nat.succ_le_of_lt he)
    rw [Nat.mul_succ] at this
    omega
  have hfirst : c.dim * (c.perElement * (first + e) + i) =
      c.dim * c.perElement * first + c.dim * (c.perElement * e + i) := by
    ring
  refine ⟨_, vertex_eq_ok hsize' (hdim ▸ hpos) he (hper ▸ hi), ?_⟩
  rw [vertex_eq_ok hsize hpos (by omega) hi, hdata, hdim, hper, hfirst, Array.toList_extract,
    List.extract_eq_take_drop, List.drop_take, List.drop_drop, List.take_take, Nat.min_eq_left]
  rw [Nat.mul_add, Nat.add_sub_cancel_left]
  omega

end VertexCoordinates

/-! ## Cells and ranks -/

namespace IntervalPart

variable {cells order ranks rank : Nat}

/-- The first cell of `rank`; for the rank past the last one, the number of cells. -/
def cellStart (cells ranks rank : Nat) : Nat := rank * cells / ranks

/-- The number of cells of `rank`. -/
def cellCount (cells ranks rank : Nat) : Nat :=
  cellStart cells ranks (rank + 1) - cellStart cells ranks rank

/-- The rank that has the cell `e`. -/
def rankOfCell (cells ranks e : Nat) : Nat := ((e + 1) * ranks - 1) / cells

theorem cellStart_zero : cellStart cells ranks 0 = 0 := by simp [cellStart]

section

variable (hranks : 0 < ranks)
include hranks

theorem cellStart_ranks : cellStart cells ranks ranks = cells :=
  Nat.mul_div_cancel_left cells hranks

theorem cellStart_le_iff (hcells : 0 < cells) {e : Nat} :
    cellStart cells ranks rank ≤ e ↔ rank ≤ rankOfCell cells ranks e := by
  have hpos : 0 < (e + 1) * ranks := Nat.mul_pos (Nat.succ_pos e) hranks
  rw [cellStart, rankOfCell, Nat.le_div_iff_mul_le hcells, ← Nat.lt_succ_iff,
    Nat.div_lt_iff_lt_mul hranks]
  exact (Nat.le_sub_one_iff_lt hpos).symm

theorem rankOfCell_eq_iff (hcells : 0 < cells) {e : Nat} : rankOfCell cells ranks e = rank ↔
    cellStart cells ranks rank ≤ e ∧ e < cellStart cells ranks (rank + 1) := by
  rw [← Nat.not_le, cellStart_le_iff hranks hcells, cellStart_le_iff hranks hcells]
  omega

theorem rankOfCell_lt {e : Nat} (he : e < cells) : rankOfCell cells ranks e < ranks := by
  rw [← Nat.not_le, ← cellStart_le_iff hranks (Nat.zero_lt_of_lt he), cellStart_ranks hranks]
  exact Nat.not_le.mpr he

theorem cellStart_le (hrank : rank ≤ ranks) : cellStart cells ranks rank ≤ cells := by
  rw [cellStart, Nat.div_le_iff_le_mul_add_pred hranks]
  have := Nat.mul_le_mul_right cells hrank
  omega

section

variable (hle : ranks ≤ cells)
include hle

/-- Every `rank` has a cell. -/
theorem cellStart_lt_succ : cellStart cells ranks rank < cellStart cells ranks (rank + 1) := by
  rw [cellStart, cellStart, Nat.succ_mul, Nat.lt_iff_add_one_le, ← Nat.add_div_right _ hranks]
  exact Nat.div_le_div_right (Nat.add_le_add_left hle _)

theorem cellStart_add_cellCount :
    cellStart cells ranks rank + cellCount cells ranks rank = cellStart cells ranks (rank + 1) :=
  Nat.add_sub_cancel' (cellStart_lt_succ hranks hle).le

theorem cellStart_add_cellCount_le (hrank : rank < ranks) :
    cellStart cells ranks rank + cellCount cells ranks rank ≤ cells := by
  rw [cellStart_add_cellCount hranks hle]
  exact cellStart_le hranks (Nat.succ_le_of_lt hrank)

end

end

/-! ## Rows and ranks -/

/-- The first rows of the `ranks`. The last rank also has the right end of the interval. -/
def rowStarts (cells order ranks : Nat) : Array Nat :=
  ((List.range ranks).map (cellStart cells ranks · * order) ++ [cells * order + 1]).toArray

theorem getD_rowStarts (hrank : rank < ranks) :
    (rowStarts cells order ranks).getD rank 0 = cellStart cells ranks rank * order := by
  simp [rowStarts, List.getElem?_append_left, hrank]

theorem getD_rowStarts_ranks :
    (rowStarts cells order ranks).getD ranks 0 = cells * order + 1 := by
  simp [rowStarts]

/-- The rows of `rank` end where the cells of the next rank start, or with the right end. -/
theorem getD_rowStarts_succ (hranks : 0 < ranks) (hrank : rank < ranks) :
    (rowStarts cells order ranks).getD (rank + 1) 0 =
      cellStart cells ranks (rank + 1) * order + if rank + 1 < ranks then 0 else 1 := by
  split
  · rename_i hnext
    exact getD_rowStarts hnext
  · rename_i hlast
    obtain rfl : ranks = rank + 1 := by omega
    rw [getD_rowStarts_ranks, cellStart_ranks hranks]

theorem rowStarts_spec (hranks : 0 < ranks) (hle : ranks ≤ cells)
    (hword : ranks + 1 < Word.bound) : RowStarts (rowStarts cells order ranks) ranks := by
  refine ⟨by simp [rowStarts], hword, ?_, fun rank hrank => ?_⟩
  · rw [getD_rowStarts hranks, cellStart_zero, Nat.zero_mul]
  · rw [getD_rowStarts hrank, getD_rowStarts_succ hranks hrank]
    exact Nat.le_add_right_of_le (Nat.mul_le_mul_right order (cellStart_lt_succ hranks hle).le)

/-- The rows of an interval whose arrays can exist are shared out to `ranks`. -/
theorem rowStarts_of_fits (hfits : IntervalFits cells order) (hranks : 0 < ranks)
    (hle : ranks ≤ cells) : RowStarts (rowStarts cells order ranks) ranks := by
  have hcells : cells ≤ cells * (order + 1) := Nat.le_mul_of_pos_right _ (Nat.succ_pos order)
  have hentries := Word.lt_bound hfits.entries
  exact rowStarts_spec hranks hle (by omega)

/-- The DOF `i` of a part is a DOF of the interval. -/
theorem number_lt (hranks : 0 < ranks) (hle : ranks ≤ cells) (hrank : rank < ranks) :
    ∀ i < cellCount cells ranks rank * order + 1,
      cellStart cells ranks rank * order + i < cells * order + 1 := by
  intro i hi
  have := Nat.mul_le_mul_right order (cellStart_add_cellCount_le hranks hle hrank)
  rw [Nat.add_mul] at this
  omega

theorem rowStarts_lt_succ (horder : 0 < order) (hranks : 0 < ranks) (hle : ranks ≤ cells)
    (hrank : rank < ranks) : (rowStarts cells order ranks).getD rank 0 <
      (rowStarts cells order ranks).getD (rank + 1) 0 := by
  rw [getD_rowStarts hrank, getD_rowStarts_succ hranks hrank]
  exact Nat.lt_add_right _ (Nat.mul_lt_mul_of_pos_right (cellStart_lt_succ hranks hle) horder)

/-- The DOF `i` of `rank` is in its rows, but for the last one, with which the next rank starts. -/
theorem ownerOf_rowStarts (horder : 0 < order) (hranks : 0 < ranks) (hle : ranks ≤ cells)
    (hstarts : RowStarts (rowStarts cells order ranks) ranks) (hrank : rank < ranks) {i : Nat}
    (hi : i < cellCount cells ranks rank * order + 1) :
    ownerOf (rowStarts cells order ranks) (cellStart cells ranks rank * order + i) =
      .ok (if i + 1 = cellCount cells ranks rank * order + 1 ∧ rank + 1 < ranks then rank + 1
        else rank) := by
  have hstop : cellStart cells ranks rank * order + cellCount cells ranks rank * order =
      cellStart cells ranks (rank + 1) * order := by
    rw [← Nat.add_mul, cellStart_add_cellCount hranks hle]
  split
  · rename_i hlast
    obtain ⟨hlast, hnext⟩ := hlast
    have hlt := rowStarts_lt_succ horder hranks hle hnext
    rw [getD_rowStarts hnext] at hlt
    refine hstarts.ownerOf_eq_ok hnext ?_
    rw [Owns, getD_rowStarts hnext]
    omega
  · refine hstarts.ownerOf_eq_ok hrank ?_
    rw [Owns, getD_rowStarts hrank, getD_rowStarts_succ hranks hrank]
    split <;> omega

/-! ## Parts -/

/-- The part `p` covers the cells of `rank` of an interval. -/
structure Covers {α : Type} [One α] [Add α] (p : IntervalPart α) (cells order ranks rank : Nat) :
    Prop where
  isInterval : p.space.restriction.IsInterval (cellCount cells ranks rank) order
  rowStarts_eq : p.layout.rowStarts = rowStarts cells order ranks
  prolongation_eq : p.layout.prolongation = some (numbering (cellCount cells ranks rank * order + 1)
    (cells * order + 1) (cellStart cells ranks rank * order + ·))

variable {α : Type} [Zero α] [One α] [Add α]

/-- What the part `p` of some cells is made of. -/
theorem of_ofCells_eq_ok {whole : StructuredSpace α} {starts : Array Nat}
    {numDofs first stop : Nat} {p : IntervalPart α}
    (h : (ofCells whole starts order numDofs first stop).result = .ok p) :
    p.space.restriction.IsInterval (stop - first) order ∧
      VertexCoordinates.ofData 1 (order + 1) (stop - first)
        (whole.vertices.data.extract (first * (order + 1)) (stop * (order + 1))) =
          .ok p.space.vertices ∧
      p.layout.rowStarts = starts ∧
      p.layout.prolongation = some (numbering ((stop - first) * order + 1) numDofs
        (first * order + ·)) ∧
      p.localToGlobal = (List.range ((stop - first) * order + 1)).map (first * order + ·) ∧
      p.space.boundaryDofs = (p.localToGlobal.zipIdx.filter fun x =>
        x.1 == 0 || x.1 + 1 == numDofs).map Prod.snd := by
  unfold ofCells at h
  simp only [Noted.result_bind, Noted.result_liftM] at h
  obtain ⟨restriction, hrestriction, h⟩ := bind_eq_ok_iff.mp h
  obtain ⟨vertices, hvertices, h⟩ := bind_eq_ok_iff.mp h
  obtain rfl := Except.ok.inj h
  have hnumbers : ((List.range ((stop - first) * order + 1)).map (first * order + ·)).zipIdx.map
      (fun x => (x.2, x.1, (1 : α))) =
      (List.range ((stop - first) * order + 1)).map fun i => (i, first * order + i, 1) :=
    List.ext_getElem (by simp) fun i _ _ => by simp
  refine ⟨Restriction.isInterval_of_gatherOf hrestriction, hvertices, rfl, ?_, rfl, rfl⟩
  rw [numbering, ← hnumbers]

theorem exists_ofCells {whole : StructuredSpace α} (starts : Array Nat) (numDofs : Nat)
    {first stop : Nat} (hfits : IntervalFits cells order) (hlt : first < stop) (hle : stop ≤ cells)
    (hvertices : whole.vertices.data.size = cells * (order + 1)) :
    ∃ p, (ofCells whole starts order numDofs first stop).result = .ok p := by
  have hcount : (stop - first) * (order + 1) ≤ cells * (order + 1) :=
    Nat.mul_le_mul_right _ (by omega)
  have hcells := Nat.sub_pos_of_lt hlt
  have hword := Word.lt_bound hfits.entries
  have hfirst : order + 1 ≤ (stop - first) * (order + 1) := Nat.le_mul_of_pos_left _ hcells
  have hsize : 1 * (order + 1) * (stop - first) = (stop - first) * (order + 1) := by
    rw [Nat.one_mul, Nat.mul_comm]
  have hpositions : (whole.vertices.data.extract (first * (order + 1)) (stop * (order + 1))).size =
      1 * (order + 1) * (stop - first) := by
    rw [Array.size_extract, hvertices, Nat.min_eq_left (Nat.mul_le_mul_right _ hle), hsize,
      Nat.sub_mul]
  obtain ⟨r, hr, -⟩ := Restriction.exists_isInterval
    (hfits.mono (show stop - first ≤ cells by omega))
  obtain ⟨vertices, hok⟩ := VertexCoordinates.exists_ofData
    (show 1 * (order + 1) < Word.bound by omega)
    (show 1 * (order + 1) * (stop - first) < Word.bound by omega) hpositions
  unfold ofCells
  simp only [Noted.result_bind, Noted.result_liftM]
  exact ⟨_, bind_eq_ok_iff.mpr ⟨r, hr, bind_eq_ok_iff.mpr ⟨vertices, hok, rfl⟩⟩⟩

theorem firstCell_eq_ok (hranks : rank ≤ ranks) (hproducts : ranks * cells < Word.bound) :
    firstCell cells ranks rank = .ok (cellStart cells ranks rank) := by
  rw [firstCell, Word.mul_eq_ok (Nat.lt_of_le_of_lt (Nat.mul_le_mul_right cells hranks) hproducts)]
  rfl

variable [Div α] [NatCast α] {nodes : Nat → Except Error (List α)}

/-- The parts are made one by one, each from its cells of `whole`. -/
theorem result_unitIntervalParts_eq {whole : StructuredSpace α} (hranks : 0 < ranks)
    (hle : ranks ≤ cells) (hproducts : ranks * cells < Word.bound)
    (hwhole : (StructuredSpace.unitHypercube nodes 1 cells order).result = .ok whole) :
    (unitIntervalParts nodes cells order ranks).result = (List.range ranks).mapM fun rank =>
      (ofCells whole (rowStarts cells order ranks) order (cells * order + 1)
        (cellStart cells ranks rank) (cellStart cells ranks (rank + 1))).result := by
  have hfirst : (List.range (ranks + 1)).mapM (firstCell cells ranks) =
      .ok ((List.range (ranks + 1)).map (cellStart cells ranks)) :=
    mapM_eq_ok_map fun rank hrank =>
      firstCell_eq_ok (Nat.le_of_lt_succ (List.mem_range.mp hrank)) hproducts
  have hstart : ∀ rank ≤ ranks, ((List.range (ranks + 1)).map (cellStart cells ranks)).getD rank 0 =
      cellStart cells ranks rank := fun rank hrank => by
    simp [Nat.lt_succ_of_le hrank]
  have hstarts : ((((List.range (ranks + 1)).map (cellStart cells ranks)).take ranks).map
      (· * order) ++ [cells * order + 1]).toArray = rowStarts cells order ranks := by
    simp [rowStarts, ← List.map_take, List.take_range, Function.comp_def]
  unfold unitIntervalParts
  rw [if_neg (not_not_intro ⟨hranks, hle⟩)]
  simp only [Noted.result_bind, Noted.result_liftM, Noted.result_mapM, hwhole, hfirst]
  simp only [bind, Except.bind, hstarts]
  refine mapM_congr fun rank hrank => ?_
  have hlt := List.mem_range.mp hrank
  rw [hstart rank hlt.le, hstart (rank + 1) hlt]

/-- What the `parts` are made of. -/
theorem of_unitIntervalParts_eq_ok {parts : List (IntervalPart α)}
    (h : (unitIntervalParts nodes cells order ranks).result = .ok parts) :
    0 < ranks ∧ ranks ≤ cells ∧ ranks * cells < Word.bound ∧
      ∃ whole, (StructuredSpace.unitHypercube nodes 1 cells order).result = .ok whole ∧
        parts.length = ranks ∧ ∀ rank < ranks, ∃ p, parts[rank]? = some p ∧
          (ofCells whole (rowStarts cells order ranks) order (cells * order + 1)
            (cellStart cells ranks rank) (cellStart cells ranks (rank + 1))).result = .ok p := by
  obtain ⟨hranks, hle, whole, hwhole, hproducts⟩ : 0 < ranks ∧ ranks ≤ cells ∧
      ∃ whole, (StructuredSpace.unitHypercube nodes 1 cells order).result = .ok whole ∧
        ranks * cells < Word.bound := by
    unfold unitIntervalParts at h
    split at h
    · cases h
    rename_i hranks
    simp only [Noted.result_bind, Noted.result_liftM, Noted.result_mapM] at h
    obtain ⟨whole, hwhole, h⟩ := bind_eq_ok_iff.mp h
    obtain ⟨firstCells, hfirstCells, -⟩ := bind_eq_ok_iff.mp h
    -- the first cell past the last one needs the largest product
    obtain ⟨_, hlast⟩ :=
      exists_of_mapM_eq_ok hfirstCells (List.mem_range.mpr (Nat.lt_succ_self ranks))
    obtain ⟨_, hproduct, -⟩ := bind_eq_ok_iff.mp hlast
    exact ⟨(not_not.mp hranks).1, (not_not.mp hranks).2, whole, hwhole,
      (Word.fit_eq_ok_iff.mp hproduct).1⟩
  rw [result_unitIntervalParts_eq hranks hle hproducts hwhole] at h
  exact ⟨hranks, hle, hproducts, whole, hwhole,
    (length_of_mapM_eq_ok h).trans List.length_range,
    fun rank hrank => getElem?_of_mapM_range_eq_ok h hrank⟩

/-- The unit interval in `parts`. -/
theorem exists_unitIntervalParts {points : List α} (hnodes : nodes order = .ok points)
    (hranks : 0 < ranks) (hle : ranks ≤ cells) (hfits : IntervalFits cells order)
    (hproducts : ranks * cells < Word.bound) :
    ∃ parts, (unitIntervalParts nodes cells order ranks).result = .ok parts ∧
      parts.length = ranks ∧
      ∀ rank < ranks, ∃ p, parts[rank]? = some p ∧ p.Covers cells order ranks rank := by
  obtain ⟨whole, hwhole, -, hvertices⟩ := StructuredSpace.exists_unitHypercube hnodes
    (Nat.lt_of_lt_of_le hranks hle) hfits
  obtain ⟨parts, hparts⟩ := exists_mapM_eq_ok fun rank hrank =>
    exists_ofCells (rowStarts cells order ranks) (cells * order + 1) hfits
      (cellStart_lt_succ hranks hle)
      (cellStart_le hranks (Nat.succ_le_of_lt (List.mem_range.mp hrank))) hvertices
  rw [← result_unitIntervalParts_eq hranks hle hproducts hwhole] at hparts
  obtain ⟨-, -, -, whole', -, hlength, hpart⟩ := of_unitIntervalParts_eq_ok hparts
  refine ⟨parts, hparts, hlength, fun rank hrank => ?_⟩
  obtain ⟨p, hp, hmade⟩ := hpart rank hrank
  obtain ⟨hinterval, -, hrows, hprolongation, -⟩ := of_ofCells_eq_ok hmade
  exact ⟨p, hp, hinterval, hrows, hprolongation⟩

/-! ## Agreement with the whole interval -/

/-- The part `p` of `rank` agrees with the interval `whole`. -/
structure Mirrors (p : IntervalPart α) (whole : StructuredSpace α) (cells order ranks rank : Nat) :
    Prop where
  numElements_eq : p.space.restriction.numElements = cellCount cells ranks rank
  numDofs_eq : p.space.restriction.numDofs = cellCount cells ranks rank * order + 1
  localToGlobal_eq : ∀ i g, p.localToGlobal[i]? = some g ↔
    i < p.space.restriction.numDofs ∧ cellStart cells ranks rank * order + i = g
  dof_eq : ∀ e < p.space.restriction.numElements, ∀ i < order + 1, ∃ s g,
    p.space.restriction.elementDof e i = .ok s ∧
    whole.restriction.elementDof (cellStart cells ranks rank + e) i = .ok g ∧
    p.localToGlobal[s.index]? = some g.index ∧ s.isReversed = g.isReversed
  vertex_eq : ∀ e < p.space.restriction.numElements, ∀ i < order + 1, ∃ x,
    p.space.vertices.vertex e i = .ok x ∧
    whole.vertices.vertex (cellStart cells ranks rank + e) i = .ok x
  rowStarts_eq : p.layout.rowStarts = rowStarts cells order ranks
  /-- row `i` of the prolongation stores a one at the global number of DOF `i`, and nothing else -/
  get?_prolongation : ∃ P, p.layout.prolongation = some P ∧
    P.nrows = p.space.restriction.numDofs ∧ P.ncols = cells * order + 1 ∧
    ∀ i c, P.get? i c = if p.localToGlobal[i]? = some c then some 1 else none
  /-- the last DOF of `rank` belongs to the next rank -/
  ownerOf_eq : ∀ i < p.space.restriction.numDofs, ∃ g, p.localToGlobal[i]? = some g ∧
    ownerOf p.layout.rowStarts g =
      .ok (if i + 1 = p.space.restriction.numDofs ∧ rank + 1 < ranks then rank + 1 else rank)
  mem_boundaryDofs : ∀ i, i ∈ p.space.boundaryDofs ↔
    p.localToGlobal[i]? = some 0 ∨ p.localToGlobal[i]? = some (cells * order)

omit [One α] in
/-- The `vertices` of some cells from `first` to `stop` are those of the interval `whole`. -/
theorem vertex_eq_of_cells {points : List α} {whole : StructuredSpace α} {first stop : Nat}
    (hfits : IntervalFits cells order) (hwhole : whole.IsHypercube points 1 cells order)
    (hstop : stop ≤ cells) {vertices : VertexCoordinates α}
    (h : VertexCoordinates.ofData 1 (order + 1) (stop - first)
      (whole.vertices.data.extract (first * (order + 1)) (stop * (order + 1))) = .ok vertices)
    {e i : Nat} (he : e < stop - first) (hi : i < order + 1) :
    ∃ x, vertices.vertex e i = .ok x ∧ whole.vertices.vertex (first + e) i = .ok x := by
  obtain ⟨hdim, hper, hnum, hdata⟩ := VertexCoordinates.of_ofData_eq_ok h
  obtain ⟨-, -, -, hwholeDim, hwholePer, hwholeNum, -⟩ := hwhole
  rw [Grid.volume_one] at hwholePer hwholeNum
  have hsize : whole.vertices.data.size < Word.bound := by
    have hentries := hfits.entries
    rw [whole.vertices.size_eq, hwholeDim, hwholePer, hwholeNum, Nat.one_mul, Nat.mul_comm]
    exact Word.lt_bound (by omega)
  refine VertexCoordinates.vertex_eq_of_extract hsize (by omega) (hdim.trans hwholeDim.symm)
    (hper.trans hwholePer.symm) (by omega) ?_ (hnum ▸ he) (hwholePer ▸ hi)
  rw [hdata, hwholeDim, hwholePer, hnum, Nat.add_sub_cancel' (by omega), Nat.one_mul,
    Nat.mul_comm (order + 1), Nat.mul_comm (order + 1)]

/-- The part `p` that is made of the cells of `rank` agrees with the interval `whole`. -/
theorem mirrors_of_ofCells {points : List α} {whole : StructuredSpace α} (horder : 0 < order)
    (hranks : 0 < ranks) (hle : ranks ≤ cells) (hrank : rank < ranks)
    (hfits : IntervalFits cells order) (hwhole : whole.IsHypercube points 1 cells order)
    {p : IntervalPart α} (h : (ofCells whole (rowStarts cells order ranks) order
      (cells * order + 1) (cellStart cells ranks rank)
      (cellStart cells ranks (rank + 1))).result = .ok p) :
    p.Mirrors whole cells order ranks rank := by
  have hstop := cellStart_add_cellCount_le hranks hle hrank
  have hcells := hwhole.isGrid.isInterval
  obtain ⟨hinterval, hvertices, hrows, hprolongation, hnumbers, hboundary⟩ := of_ofCells_eq_ok h
  rw [show cellStart cells ranks (rank + 1) - cellStart cells ranks rank =
    cellCount cells ranks rank from rfl] at hinterval hprolongation hnumbers
  have hcount := hinterval.numElements_eq
  have hlocal : ∀ {i g}, p.localToGlobal[i]? = some g ↔
      i < cellCount cells ranks rank * order + 1 ∧ cellStart cells ranks rank * order + i = g := by
    intro i g
    rw [hnumbers, List.getElem?_map, Option.map_eq_some_iff]
    simp [List.getElem?_eq_some_iff]
  refine ⟨hcount, hinterval.numDofs_eq, fun i g => by rw [hlocal, hinterval.numDofs_eq],
    fun e he i hi => ?_, fun e he i hi => ?_, hrows, ⟨_, hprolongation, ?_, ?_, fun i c => ?_⟩,
    fun i hi => ?_, fun i => ?_⟩
  · have hslot : i < p.space.restriction.slots := hinterval.slots_eq ▸ hi
    have hcell : cellStart cells ranks rank + e < cells := by omega
    refine ⟨_, _, Restriction.elementDof_eq_ok he hslot,
      Restriction.elementDof_eq_ok (hcells.numElements_eq ▸ hcell) (hcells.slots_eq ▸ hi), ?_, ?_⟩
    · rw [hinterval.index_eq e (hcount ▸ he) i hi, hcells.index_eq _ hcell i hi]
      refine hlocal.mpr ⟨Restriction.line_lt (hcount ▸ he) hi, ?_⟩
      rw [Nat.add_mul, Nat.add_assoc]
    · rw [hinterval.isReversed_eq e (hcount ▸ he) i hi, hcells.isReversed_eq _ hcell i hi]
  · exact vertex_eq_of_cells hfits hwhole (cellStart_le hranks (Nat.succ_le_of_lt hrank)) hvertices
      (Nat.lt_of_lt_of_eq he hcount) hi
  · simp [numbering, hinterval.numDofs_eq]
  · simp [numbering]
  · rw [get?_numbering (number_lt hranks hle hrank)]
    simp only [hlocal, eq_comm]
  · rw [hinterval.numDofs_eq] at hi ⊢
    refine ⟨_, hlocal.mpr ⟨hi, rfl⟩, ?_⟩
    rw [hrows]
    exact ownerOf_rowStarts horder hranks hle (rowStarts_of_fits hfits hranks hle) hrank hi
  · simp only [hboundary, List.mem_map, List.mem_filter, Prod.exists, List.mem_zipIdx_iff_getElem?,
      Bool.or_eq_true, beq_iff_eq, Nat.add_right_cancel_iff]
    constructor
    · rintro ⟨g, i, ⟨hg, rfl | rfl⟩, rfl⟩
      · exact Or.inl hg
      · exact Or.inr hg
    · rintro (hg | hg)
      · exact ⟨0, i, ⟨hg, Or.inl rfl⟩, rfl⟩
      · exact ⟨_, i, ⟨hg, Or.inr rfl⟩, rfl⟩

/-- The ranks have contiguous blocks of `cells` from `first rank` on, one after the other, and each
of them has a cell. -/
structure CutsCells (first : Nat → Nat) (cells ranks : Nat) : Prop where
  zero : first 0 = 0
  last : first ranks = cells
  lt_succ : ∀ rank < ranks, first rank < first (rank + 1)
  existsUnique : ∀ e < cells, ∃! rank, rank < ranks ∧ first rank ≤ e ∧ e < first (rank + 1)

theorem cutsCells_cellStart (hranks : 0 < ranks) (hle : ranks ≤ cells) :
    CutsCells (cellStart cells ranks) cells ranks where
  zero := cellStart_zero
  last := cellStart_ranks hranks
  lt_succ _ _ := cellStart_lt_succ hranks hle
  existsUnique e he := by
    have hcells := Nat.zero_lt_of_lt he
    refine ⟨rankOfCell cells ranks e, ⟨rankOfCell_lt hranks he,
      (rankOfCell_eq_iff hranks hcells).mp rfl⟩, ?_⟩
    rintro rank ⟨-, hblock⟩
    exact ((rankOfCell_eq_iff hranks hcells).mpr hblock).symm

/-- The interval is cut for every number of `ranks` up to the number of `cells`, where its arrays
and the product `ranks * cells` fit. The ranks have contiguous blocks of cells, `CutsCells`, and the
rows grow from rank to rank. The part `p` of a rank `Mirrors` the `whole` interval: in the global
numbers of its DOFs, in the coordinates of its nodes, and in its boundary. A rank owns its DOFs
except for the last one, which the next rank owns if there is one. -/
theorem unitIntervalParts_mirror {points : List α} (hnodes : nodes order = .ok points)
    (horder : 0 < order) (hranks : 0 < ranks) (hle : ranks ≤ cells) :
    ((∃ parts, (unitIntervalParts nodes cells order ranks).result = .ok parts) ↔
      IntervalFits cells order ∧ ranks * cells < Word.bound) ∧
    ∀ parts, (unitIntervalParts nodes cells order ranks).result = .ok parts →
      ∃ whole, (StructuredSpace.unitHypercube nodes 1 cells order).result = .ok whole ∧
        parts.length = ranks ∧
        CutsCells (cellStart cells ranks) cells ranks ∧
        checkRowStarts (rowStarts cells order ranks) ranks = .ok () ∧
        (rowStarts cells order ranks).getD 0 0 = 0 ∧
        (rowStarts cells order ranks).getD ranks 0 = cells * order + 1 ∧
        (∀ rank < ranks, (rowStarts cells order ranks).getD rank 0 <
          (rowStarts cells order ranks).getD (rank + 1) 0) ∧
        ∀ rank < ranks, ∃ p, parts[rank]? = some p ∧ p.Mirrors whole cells order ranks rank := by
  have hfitsOf : ∀ {whole}, (StructuredSpace.unitHypercube nodes 1 cells order).result = .ok whole →
      IntervalFits cells order := fun hwhole =>
    hypercubeFits_one_iff.mp (StructuredSpace.of_result_unitHypercube hwhole).2.2.2.1
  refine ⟨⟨fun ⟨parts, hparts⟩ => ?_, fun ⟨hfits, hproducts⟩ => ?_⟩, fun parts hparts => ?_⟩
  · obtain ⟨-, -, hproducts, whole, hwhole, -⟩ := of_unitIntervalParts_eq_ok hparts
    exact ⟨hfitsOf hwhole, hproducts⟩
  · obtain ⟨parts, hparts, -⟩ := exists_unitIntervalParts hnodes hranks hle hfits hproducts
    exact ⟨parts, hparts⟩
  · obtain ⟨-, -, -, whole, hwhole, hlength, hpart⟩ := of_unitIntervalParts_eq_ok hparts
    obtain ⟨-, -, -, -, points', -, hcube⟩ := StructuredSpace.isHypercube_of_result hwhole
    have hfits := hfitsOf hwhole
    have hstarts := rowStarts_of_fits hfits hranks hle
    refine ⟨whole, hwhole, hlength, cutsCells_cellStart hranks hle,
      checkRowStarts_eq_ok_iff.mpr hstarts, hstarts.zero, getD_rowStarts_ranks,
      fun rank hrank => rowStarts_lt_succ horder hranks hle hrank, fun rank hrank => ?_⟩
    obtain ⟨p, hp, hmade⟩ := hpart rank hrank
    exact ⟨p, hp, mirrors_of_ofCells horder hranks hle hrank hfits hcube hmade⟩

/-- Five cells of order two on three ranks, which have one, two and two cells. The second rank has
the rows from two to five, and the last DOF of the second rank is the first row of the third. -/
theorem unitIntervalParts_mirror_uneven : (∃ points, gaussLobattoPoints 2 = .ok points) ∧
    ∃ parts, (unitIntervalParts gaussLobattoPoints 5 2 3).result = .ok parts ∧
      ∃ p, parts[1]? = some p ∧ p.layout.rowStarts = #[0, 2, 6, 11] ∧
        p.space.restriction.numDofs = 5 ∧ p.localToGlobal[4]? = some 6 ∧
        ownerOf p.layout.rowStarts 6 = .ok 2 ∧ p.space.boundaryDofs = [] := by
  obtain ⟨points, hpoints⟩ := exists_gaussLobattoPoints_iff.mpr (by decide : 0 < 2 ∧ _)
  obtain ⟨hexists, hmirror⟩ :
      ((∃ parts, (unitIntervalParts gaussLobattoPoints 5 2 3).result = .ok parts) ↔ _) ∧ _ :=
    unitIntervalParts_mirror hpoints (by decide) (by decide) (by decide)
  obtain ⟨parts, hparts⟩ := hexists.mpr ⟨⟨by decide, by decide⟩, by decide⟩
  obtain ⟨whole, -, -, -, -, -, -, -, hpart⟩ := hmirror parts hparts
  obtain ⟨p, hp, hmirrors⟩ := hpart 1 (by decide)
  have hnumber : ∀ i g, p.localToGlobal[i]? = some g ↔ i < 5 ∧ 2 + i = g := by
    have hnumber := hmirrors.localToGlobal_eq
    rwa [hmirrors.numDofs_eq] at hnumber
  have hlast := (hnumber 4 6).mpr (by decide)
  obtain ⟨g, hg, howner⟩ := hmirrors.ownerOf_eq 4 (hmirrors.numDofs_eq ▸ by decide)
  obtain rfl := Option.some.inj (hlast.symm.trans hg)
  rw [hmirrors.numDofs_eq] at howner
  refine ⟨⟨points, hpoints⟩, parts, hparts, p, hp, hmirrors.rowStarts_eq.trans (by decide),
    hmirrors.numDofs_eq, hlast, howner, List.eq_nil_iff_forall_not_mem.mpr fun i hi => ?_⟩
  rcases (hmirrors.mem_boundaryDofs i).mp hi with hfirst | hlast
  · have := ((hnumber i 0).mp hfirst).2
    omega
  · have := (hnumber i 10).mp hlast
    omega

end IntervalPart

end FemAssembly
