import FemAssembly.Distributed.Matrix
import FemAssembly.Proofs.Distributed.Halo
import FemAssembly.Proofs.Sparse.Triplets

/-!
# The blocks of a distributed matrix

The two blocks of a rank hold the entries of its rows. Splitting rows into blocks and joining them
again gives the same rows.

* `DistributedMatrix.globalGet?`: the value that a rank stores at a global column.
* `Parts`: the matrices of all ranks belong together.
* `Parts.get?_toLocalRows`: the joined rows.
* `SplitFrom`: the blocks of a rank are its rows, taken apart.
* `Collective.splitRows`, `Collective.blockDiagonal`: the ranks split their rows, or take a diagonal
  block each.
* `stackedRows`: the rows of all ranks, one rank after the other. `Stacked`: the matrix of them.
-/

namespace FemAssembly

/-! ## New column numbers -/

theorem Relabelling.injective {bound : Nat} (f : Relabelling bound) {c d c' : Nat}
    (hc : f.label c = some c') (hd : f.label d = some c') : c = d := by
  rcases Nat.lt_trichotomy c d with hlt | heq | hlt
  · exact absurd (f.increasing hlt hc hd) (Nat.lt_irrefl c')
  · exact heq
  · exact absurd (f.increasing hlt hd hc) (Nat.lt_irrefl c')

namespace SparseMatrix

variable {α : Type} {bound : Nat} {M : SparseMatrix α}

theorem get?_relabel {f : Relabelling bound} {c c' : Nat} (h : f.label c = some c') (i : Nat) :
    (M.relabel f).get? i c' = M.get? i c := by
  ext value
  rw [get?, get?, row_relabel, SparseRow.get?_eq_some_iff ((M.sorted_row i).relabel f).nodup,
    SparseRow.get?_eq_some_iff (M.sorted_row i).nodup]
  simp only [SparseRow.relabel, List.mem_filterMap, Option.map_eq_some_iff, Prod.mk.injEq,
    Prod.exists]
  constructor
  · rintro ⟨d, v, hmem, d', hd, rfl, rfl⟩
    exact f.injective hd h ▸ hmem
  · exact fun hmem => ⟨c, value, hmem, c', h, rfl, rfl⟩

theorem mem_columns {c : Nat} : c ∈ M.columns ↔ ∃ i, (M.get? i c).isSome := by
  simp only [columns, List.mem_flatten, List.mem_map, get?, SparseRow.isSome_get?_iff]
  constructor
  · rintro ⟨_, ⟨row, hrow, rfl⟩, hc⟩
    obtain ⟨i, hi, rfl⟩ := List.getElem_of_mem hrow
    exact ⟨i, by rwa [M.row_eq_getElem (by simpa [nrows] using hi)]⟩
  · rintro ⟨i, hc⟩
    by_cases hi : i < M.nrows
    · rw [M.row_eq_getElem hi] at hc
      exact ⟨_, ⟨_, by simp [nrows] at hi ⊢, rfl⟩, hc⟩
    · rw [M.row_eq_nil (Nat.le_of_not_lt hi)] at hc
      cases hc

/-- The triplets of a matrix in which column `j` is called `name j`. -/
def namedTriplets (M : SparseMatrix α) (name : Nat → Nat) : List (Nat × Nat × α) :=
  M.triplets.map fun (i, j, value) => (i, name j, value)

theorem mem_namedTriplets {name : Nat → Nat} {i c : Nat} {value : α} :
    (i, c, value) ∈ M.namedTriplets name ↔ ∃ j, M.get? i j = some value ∧ name j = c := by
  simp only [namedTriplets, List.mem_map, Prod.exists, Prod.mk.injEq]
  constructor
  · rintro ⟨i, j, v, hmem, rfl, rfl, rfl⟩
    exact ⟨j, mem_triplets.mp hmem, rfl⟩
  · rintro ⟨j, hget, rfl⟩
    exact ⟨i, j, value, mem_triplets.mpr hget, rfl, rfl, rfl⟩

theorem nodup_namedTriplets {name : Nat → Nat}
    (h : ∀ j < M.ncols, ∀ j' < M.ncols, name j = name j' → j = j') :
    ((M.namedTriplets name).map fun t => (t.1, t.2.1)).Nodup := by
  have hmap : (M.namedTriplets name).map (fun t => (t.1, t.2.1)) =
      (M.triplets.map fun t => (t.1, t.2.1)).map fun x => (x.1, name x.2) := by
    simp [namedTriplets, Function.comp_def]
  have hlt : ∀ {i j : Nat}, (i, j) ∈ M.triplets.map (fun t => (t.1, t.2.1)) → j < M.ncols := by
    intro i j hmem
    obtain ⟨⟨_, _, value⟩, ht, heq⟩ := List.mem_map.mp hmem
    cases heq
    exact (lt_of_get?_eq_some (mem_triplets.mp ht)).2
  rw [hmap]
  refine List.Nodup.map_on ?_ nodup_triplets
  rintro ⟨i, j⟩ hij ⟨i', j'⟩ hij' heq
  obtain ⟨rfl, hname⟩ := Prod.mk.inj heq
  rw [h j (hlt hij) j' (hlt hij') hname]

end SparseMatrix

/-! ## The entries of a rank -/

/-- In a `list` without repetitions, the position `j` of a value `c`. -/
theorem idxOf?_eq_some_iff {list : List Nat} (h : list.Nodup) {c j : Nat} :
    list.idxOf? c = some j ↔ list[j]? = some c := by
  rw [List.idxOf?, List.findIdx?_eq_some_iff_getElem, List.getElem?_eq_some_iff]
  constructor
  · rintro ⟨hj, heq, -⟩
    exact ⟨hj, by simpa using heq⟩
  · rintro ⟨hj, heq⟩
    refine ⟨hj, by simpa using heq, fun k hk heq' => ?_⟩
    have hkj : list[k] = list[j] := by simpa [heq] using heq'
    exact absurd ((h.getElem_inj_iff).mp hkj) (Nat.ne_of_lt hk)

namespace DistributedMatrix

variable {α β σ : Type}

instance : Inhabited (DistributedMatrix α) where
  default := {
    rank := 0
    rowStarts := #[]
    diagonal := .zero 0 0
    offDiagonal := .zero 0 0
    columns := []
    plan := ⟨[], []⟩
    adopted := false
    square := rfl
    same_rows := rfl
    mapped := rfl
    owned := rfl }

/-- The value of `M` stored in the own row `i`, counted from the first one, at the global column
`c`. -/
def globalGet? (M : DistributedMatrix α) (i c : Nat) : Option α :=
  if Owns M.rowStarts M.rank c then M.diagonal.get? i (c - M.firstRow)
  else (M.columns.idxOf? c).bind (M.offDiagonal.get? i)

end DistributedMatrix

/-- The matrices `M` of all ranks belong together: every rank has its own rows in `starts`, and its
columns are those of the plan that all ranks made. Each of these columns is there for an entry. -/
structure Parts {α : Type} (starts : Array Nat) (size : Nat) (M : Nat → DistributedMatrix α) :
    Prop where
  rank_eq : ∀ rank < size, (M rank).rank = rank
  rowStarts_eq : ∀ rank < size, (M rank).rowStarts = starts
  foreign : ∀ rank < size, ForeignColumns starts rank (M rank).columns
  plan_eq : ∀ rank < size,
    (M rank).plan = HaloPlan.planned starts size (fun rank => (M rank).columns) rank
  used : ∀ rank < size, ∀ j < (M rank).columns.length,
    ∃ i, ((M rank).offDiagonal.get? i j).isSome

namespace Parts

variable {α : Type} {starts : Array Nat} {size rank : Nat} {M : Nat → DistributedMatrix α}

theorem firstRow_eq (h : Parts starts size M) (hrank : rank < size) :
    (M rank).firstRow = starts.getD rank 0 := by
  rw [DistributedMatrix.firstRow, h.rank_eq rank hrank, h.rowStarts_eq rank hrank]

theorem numLocalRows_eq (h : Parts starts size M) (hrank : rank < size) :
    (M rank).numLocalRows = starts.getD (rank + 1) 0 - starts.getD rank 0 := by
  rw [DistributedMatrix.numLocalRows, (M rank).owned, h.rank_eq rank hrank,
    h.rowStarts_eq rank hrank]

theorem globalSize_eq (h : Parts starts size M) (hrank : rank < size) :
    (M rank).globalSize = globalSize starts := by
  rw [DistributedMatrix.globalSize, h.rowStarts_eq rank hrank]

/-- A value at an own column `c` is in the diagonal block. -/
theorem globalGet?_of_owns (h : Parts starts size M) (hrank : rank < size) {c : Nat}
    (howns : Owns starts rank c) (i : Nat) :
    (M rank).globalGet? i c = (M rank).diagonal.get? i (c - starts.getD rank 0) := by
  rw [DistributedMatrix.globalGet?, h.rank_eq rank hrank, h.rowStarts_eq rank hrank, if_pos howns,
    h.firstRow_eq hrank]

/-- A value at a column `c` of another rank is in the off-diagonal block. -/
theorem globalGet?_of_not_owns (h : Parts starts size M) (hrank : rank < size) {c : Nat}
    (hnot : ¬ Owns starts rank c) (i : Nat) :
    (M rank).globalGet? i c =
      ((M rank).columns.idxOf? c).bind ((M rank).offDiagonal.get? i) := by
  rw [DistributedMatrix.globalGet?, h.rank_eq rank hrank, h.rowStarts_eq rank hrank, if_neg hnot]

@[simp] theorem nrows_toLocalRows [Add α] (M : DistributedMatrix α) :
    M.toLocalRows.nrows = M.numLocalRows := by
  simp [DistributedMatrix.toLocalRows]

@[simp] theorem ncols_toLocalRows [Add α] (M : DistributedMatrix α) :
    M.toLocalRows.ncols = M.globalSize := by
  simp [DistributedMatrix.toLocalRows]

/-- The column `j` of the diagonal block is an own column. -/
theorem owns_of_lt (h : Parts starts size M) (hrank : rank < size) {j : Nat}
    (hj : j < (M rank).diagonal.ncols) : Owns starts rank (starts.getD rank 0 + j) := by
  rw [← (M rank).square, (M rank).owned, h.rank_eq rank hrank, h.rowStarts_eq rank hrank] at hj
  exact ⟨by omega, by omega⟩

omit size in
/-- The column `j` of the off-diagonal block has a name. -/
theorem getElem?_columns {M : DistributedMatrix α} {j : Nat} (hj : j < M.offDiagonal.ncols) :
    M.columns[j]? = some (M.columns.getD j 0) := by
  rw [M.mapped] at hj
  rw [List.getD_eq_getElem?_getD, List.getElem?_eq_getElem hj, Option.getD_some]

theorem not_owns_of_lt (h : Parts starts size M) (hrank : rank < size) {j : Nat}
    (hj : j < (M rank).offDiagonal.ncols) : ¬ Owns starts rank ((M rank).columns.getD j 0) :=
  (h.foreign rank hrank).not_owns _ (List.mem_of_getElem? (getElem?_columns hj))

/-- The entries that the rows of `rank` are joined from. -/
theorem mem_entries (h : Parts starts size M) (hrank : rank < size) {i c : Nat} {value : α} :
    (i, c, value) ∈ (M rank).diagonal.namedTriplets (starts.getD rank 0 + ·) ++
      (M rank).offDiagonal.namedTriplets ((M rank).columns.getD · 0) ↔
      (M rank).globalGet? i c = some value := by
  have hnodup : (M rank).columns.Nodup := (h.foreign rank hrank).increasing.imp Nat.ne_of_lt
  rw [List.mem_append, SparseMatrix.mem_namedTriplets, SparseMatrix.mem_namedTriplets]
  by_cases howns : Owns starts rank c
  · rw [h.globalGet?_of_owns hrank howns]
    constructor
    · rintro (⟨j, hget, rfl⟩ | ⟨j, hget, rfl⟩)
      · rwa [Nat.add_sub_cancel_left]
      · exact absurd howns (h.not_owns_of_lt hrank (SparseMatrix.lt_of_get?_eq_some hget).2)
    · exact fun hget => .inl ⟨_, hget, Nat.add_sub_cancel' howns.1⟩
  · rw [h.globalGet?_of_not_owns hrank howns, Option.bind_eq_some_iff]
    constructor
    · rintro (⟨j, hget, rfl⟩ | ⟨j, hget, rfl⟩)
      · exact absurd (h.owns_of_lt hrank (SparseMatrix.lt_of_get?_eq_some hget).2) howns
      · exact ⟨j, (idxOf?_eq_some_iff hnodup).mpr
          (getElem?_columns (SparseMatrix.lt_of_get?_eq_some hget).2), hget⟩
    · rintro ⟨j, hj, hget⟩
      refine .inr ⟨j, hget, ?_⟩
      rw [List.getD_eq_getElem?_getD, (idxOf?_eq_some_iff hnodup).mp hj, Option.getD_some]

theorem nodup_entries (h : Parts starts size M) (hrank : rank < size) :
    (((M rank).diagonal.namedTriplets (starts.getD rank 0 + ·) ++
      (M rank).offDiagonal.namedTriplets ((M rank).columns.getD · 0)).map
        fun t => (t.1, t.2.1)).Nodup := by
  have hnodup : (M rank).columns.Nodup := (h.foreign rank hrank).increasing.imp Nat.ne_of_lt
  rw [List.map_append]
  refine List.nodup_append.mpr
    ⟨SparseMatrix.nodup_namedTriplets fun j _ j' _ => Nat.add_left_cancel,
    SparseMatrix.nodup_namedTriplets fun j hj j' hj' heq => ?_, ?_⟩
  · have hj := (idxOf?_eq_some_iff hnodup).mpr (getElem?_columns hj)
    rw [heq, (idxOf?_eq_some_iff hnodup).mpr (getElem?_columns hj')] at hj
    exact (Option.some.inj hj).symm
  · -- a column of the diagonal block is an own one, and one of the other block is not
    rintro ⟨i, c⟩ hleft ⟨i', c'⟩ hright heq
    obtain ⟨⟨_, _, _⟩, hleft, hl⟩ := List.mem_map.mp hleft
    obtain ⟨⟨_, _, _⟩, hright, hr⟩ := List.mem_map.mp hright
    obtain ⟨j, hget, rfl⟩ := SparseMatrix.mem_namedTriplets.mp hleft
    obtain ⟨j', hget', rfl⟩ := SparseMatrix.mem_namedTriplets.mp hright
    cases hl
    cases hr
    have howns := h.owns_of_lt hrank (SparseMatrix.lt_of_get?_eq_some hget).2
    rw [show starts.getD rank 0 + j = _ from (Prod.mk.inj heq).2] at howns
    exact h.not_owns_of_lt hrank (SparseMatrix.lt_of_get?_eq_some hget').2 howns

/-- A stored value is in an own row `i` and a column `c` of the whole matrix. -/
theorem lt_of_globalGet?_eq_some (h : Parts starts size M) (hstarts : RowStarts starts size)
    (hrank : rank < size) {i c : Nat} {value : α} (hget : (M rank).globalGet? i c = some value) :
    i < (M rank).numLocalRows ∧ c < globalSize starts := by
  by_cases howns : Owns starts rank c
  · rw [h.globalGet?_of_owns hrank howns] at hget
    exact ⟨(SparseMatrix.lt_of_get?_eq_some hget).1, hstarts.lt_globalSize hrank howns⟩
  · rw [h.globalGet?_of_not_owns hrank howns, Option.bind_eq_some_iff] at hget
    obtain ⟨j, hj, hget⟩ := hget
    have hi := (SparseMatrix.lt_of_get?_eq_some hget).1
    rw [(M rank).same_rows] at hi
    have hnodup : (M rank).columns.Nodup := (h.foreign rank hrank).increasing.imp Nat.ne_of_lt
    exact ⟨hi, (h.foreign rank hrank).lt c
      (List.mem_of_getElem? ((idxOf?_eq_some_iff hnodup).mp hj))⟩

/-- The entries of the joined rows of `rank`. -/
theorem toLocalRows_eq_ofTriplets [Add α] (h : Parts starts size M) (hrank : rank < size) :
    (M rank).toLocalRows = SparseMatrix.ofTriplets (M rank).numLocalRows (globalSize starts)
      ((M rank).diagonal.namedTriplets (starts.getD rank 0 + ·) ++
        (M rank).offDiagonal.namedTriplets ((M rank).columns.getD · 0)) := by
  rw [DistributedMatrix.toLocalRows, h.firstRow_eq hrank, h.globalSize_eq hrank]
  rfl

theorem lt_of_mem_entries (h : Parts starts size M) (hstarts : RowStarts starts size)
    (hrank : rank < size) : ∀ t ∈ (M rank).diagonal.namedTriplets (starts.getD rank 0 + ·) ++
      (M rank).offDiagonal.namedTriplets ((M rank).columns.getD · 0),
      t.1 < (M rank).numLocalRows ∧ t.2.1 < globalSize starts := fun _ ht =>
  h.lt_of_globalGet?_eq_some hstarts hrank ((h.mem_entries hrank).mp ht)

/-- The joined rows of `rank` hold what the blocks hold. -/
theorem get?_toLocalRows [Add α] (h : Parts starts size M) (hstarts : RowStarts starts size)
    (hrank : rank < size) (i c : Nat) :
    (M rank).toLocalRows.get? i c = (M rank).globalGet? i c := by
  ext value
  rw [h.toLocalRows_eq_ofTriplets hrank, SparseMatrix.get?_ofTriplets_eq_some_iff
    (h.nodup_entries hrank) (h.lt_of_mem_entries hstarts hrank), h.mem_entries hrank]

end Parts

/-! ## Making the blocks -/

section

variable {α β σ : Type} {starts : Array Nat} {size : Nat}

theorem mem_foreignColumns {rank c : Nat} {rows : SparseMatrix α} :
    c ∈ DistributedMatrix.foreignColumns (starts.getD rank 0) (starts.getD (rank + 1) 0) rows ↔
      (∃ i, (rows.get? i c).isSome) ∧ ¬ Owns starts rank c := by
  simp only [DistributedMatrix.foreignColumns, mem_distinct, List.mem_filter,
    SparseMatrix.mem_columns, decide_eq_true_eq, Owns]

/-- The columns of other ranks in which `rows` has an entry. -/
theorem foreignColumns_spec {rank : Nat} {rows : SparseMatrix α}
    (hcols : rows.ncols = globalSize starts) :
    ForeignColumns starts rank (DistributedMatrix.foreignColumns (starts.getD rank 0)
      (starts.getD (rank + 1) 0) rows) := by
  refine ⟨pairwise_distinct _, fun c hc => ?_, fun c hc => (mem_foreignColumns.mp hc).2⟩
  obtain ⟨⟨i, hi⟩, -⟩ := mem_foreignColumns.mp hc
  obtain ⟨value, hvalue⟩ := Option.isSome_iff_exists.mp hi
  exact hcols ▸ (SparseMatrix.lt_of_get?_eq_some hvalue).2

/-- The blocks of `M` are `rows`, taken apart: the own columns of `rank` make the diagonal block,
and the other columns in which something is stored make the off-diagonal one. -/
structure SplitFrom (starts : Array Nat) (rank : Nat) (rows : SparseMatrix α)
    (M : DistributedMatrix α) : Prop where
  nrows_diagonal : M.diagonal.nrows = rows.nrows
  ncols_diagonal : M.diagonal.ncols = starts.getD (rank + 1) 0 - starts.getD rank 0
  nrows_offDiagonal : M.offDiagonal.nrows = rows.nrows
  ncols_offDiagonal : M.offDiagonal.ncols = M.columns.length
  get?_diagonal : ∀ i j, j < starts.getD (rank + 1) 0 - starts.getD rank 0 →
    M.diagonal.get? i j = rows.get? i (starts.getD rank 0 + j)
  get?_offDiagonal : ∀ i j (hj : j < M.columns.length),
    M.offDiagonal.get? i j = rows.get? i M.columns[j]
  increasing : M.columns.Pairwise (· < ·)
  mem_columns : ∀ c, c ∈ M.columns ↔ ¬ Owns starts rank c ∧ ∃ i, (rows.get? i c).isSome

namespace SplitFrom

variable {rank : Nat} {rows : SparseMatrix α} {M : DistributedMatrix α}

/-- The `rows` that are split into the blocks of `M` keep their entries. -/
theorem globalGet?_eq (h : SplitFrom starts rank rows M) (hrank : M.rank = rank)
    (hrowStarts : M.rowStarts = starts) (i c : Nat) : M.globalGet? i c = rows.get? i c := by
  rw [DistributedMatrix.globalGet?, DistributedMatrix.firstRow, hrank, hrowStarts]
  by_cases howns : Owns starts rank c
  · have hlt : c - starts.getD rank 0 < starts.getD (rank + 1) 0 - starts.getD rank 0 := by
      have := howns.1
      have := howns.2
      omega
    rw [if_pos howns, h.get?_diagonal i _ hlt, Nat.add_sub_cancel' howns.1]
  · rw [if_neg howns]
    cases hidx : M.columns.idxOf? c with
    | some j =>
      obtain ⟨hj, rfl⟩ := List.getElem?_eq_some_iff.mp
        ((idxOf?_eq_some_iff (h.increasing.imp Nat.ne_of_lt)).mp hidx)
      exact h.get?_offDiagonal i j hj
    | none =>
      have hnot : c ∉ M.columns := by simpa using hidx
      have hnone : ¬ (rows.get? i c).isSome := fun hsome =>
        hnot ((h.mem_columns c).mpr ⟨howns, i, hsome⟩)
      exact (Option.not_isSome_iff_eq_none.mp hnone).symm

/-- Every column `j` of the off-diagonal block has an entry. -/
theorem used (h : SplitFrom starts rank rows M) {j : Nat} (hj : j < M.columns.length) :
    ∃ i, (M.offDiagonal.get? i j).isSome := by
  obtain ⟨-, i, hi⟩ := (h.mem_columns _).mp (List.getElem_mem hj)
  exact ⟨i, h.get?_offDiagonal i j hj ▸ hi⟩

end SplitFrom

/-- A plan depends on the `columns` of the ranks that there are. -/
theorem HaloPlan.planned_congr {columns columns' : Nat → List Nat}
    (h : ∀ rank < size, columns rank = columns' rank) {rank : Nat} (hrank : rank < size) :
    planned starts size columns rank = planned starts size columns' rank := by
  have hpeers : (List.range size).filter (fun peer =>
        !(neededFrom starts rank (columns peer)).isEmpty) = (List.range size).filter fun peer =>
        !(neededFrom starts rank (columns' peer)).isEmpty :=
    List.filter_congr fun peer hpeer => by rw [h peer (List.mem_range.mp hpeer)]
  simp only [planned, h rank hrank, hpeers, HaloPlan.mk.injEq, true_and]
  refine List.map_congr_left fun peer hpeer => ?_
  rw [h peer (List.mem_range.mp (List.mem_filter.mp hpeer).1)]

/-- Whether the matrices `M` belong together depends on the ranks that there are. -/
theorem Parts.congr {M N : Nat → DistributedMatrix α} (h : Parts starts size N)
    (heq : ∀ rank < size, M rank = N rank) : Parts starts size M := by
  refine ⟨fun rank hrank => ?_, fun rank hrank => ?_, fun rank hrank => ?_, fun rank hrank => ?_,
    fun rank hrank => ?_⟩
  · rw [heq rank hrank, h.rank_eq rank hrank]
  · rw [heq rank hrank, h.rowStarts_eq rank hrank]
  · rw [heq rank hrank]
    exact h.foreign rank hrank
  · rw [heq rank hrank, h.plan_eq rank hrank]
    exact HaloPlan.planned_congr (fun peer hpeer => by rw [heq peer hpeer]) hrank
  · rw [heq rank hrank]
    exact h.used rank hrank

/-- Where all interleavings end with matrices `N` that belong together, these are the ones that some
interleaving ends with. -/
theorem Parts.of_mayFinish {p : Nat → RankProgram β σ (DistributedMatrix α)}
    {M N : Nat → DistributedMatrix α} (h : Parts starts size N) (hN : Collective size p N)
    (hM : MayFinish size p M) : Collective size p M ∧ Parts starts size M := by
  have heq : ∀ rank < size, M rank = N rank := fun rank hrank =>
    hN.completes.eq_of_mayFinish hM hrank
  exact ⟨hN.congr_results heq, h.congr heq⟩

variable [Plain β Nat] [LawfulIndices β] (hstarts : RowStarts starts size)
  (hword : globalSize starts ≤ Word.bound)
include hstarts hword

/-- Every rank does `first` and has its blocks, and the ranks make their plan together. -/
theorem Collective.ofBlocks {p : Nat → RankProgram β σ (DistributedMatrix α)}
    (first : Nat → RankProgram β σ Unit)
    (hfirst : ∀ rank < size, (first rank).Silent ⟨rank, size⟩ ()) {columns : Nat → List Nat}
    {P : Nat → DistributedMatrix α → Prop}
    (hforeign : ∀ rank < size, ForeignColumns starts rank (columns rank))
    (hused : ∀ rank < size, ∀ M, P rank M → ∀ j < M.columns.length,
      ∃ i, (M.offDiagonal.get? i j).isSome)
    (h : ∀ rank < size, ∃ build : HaloPlan → DistributedMatrix α,
      p rank = (first rank >>= fun _ =>
        HaloPlan.create ⟨rank, size⟩ starts (columns rank) >>= fun plan => pure (build plan)) ∧
      ∀ plan, (build plan).rank = rank ∧ (build plan).rowStarts = starts ∧
        (build plan).columns = columns rank ∧ (build plan).plan = plan ∧ P rank (build plan)) :
    ∃ M, Collective size p M ∧ Parts starts size M ∧ ∀ rank < size, P rank (M rank) := by
  choose! build hp hbuild using h
  choose hrank hrowStarts hcolumns hplan hspec using hbuild
  refine ⟨fun rank => build rank (HaloPlan.planned starts size columns rank),
    Passes.congr (Passes.bind (Passes.of_silent hfirst) (Passes.map
      (Collective.haloPlan hstarts hword hforeign) build)) hp,
    ⟨fun rank hlt => hrank rank hlt _, fun rank hlt => hrowStarts rank hlt _, fun rank hlt => ?_,
      fun rank hlt => ?_, fun rank hlt => hused rank hlt _ (hspec rank hlt _)⟩,
    fun rank hlt => hspec rank hlt _⟩
  · rw [hcolumns rank hlt]
    exact hforeign rank hlt
  · rw [hplan rank hlt]
    exact HaloPlan.planned_congr (fun rank hlt => (hcolumns rank hlt _).symm) hlt

/-- The ranks split their `rows` into blocks. -/
theorem Collective.splitRows (rows : Nat → SparseMatrix α)
    (hnrows : ∀ rank < size,
      (rows rank).nrows = starts.getD (rank + 1) 0 - starts.getD rank 0)
    (hncols : ∀ rank < size, (rows rank).ncols = globalSize starts) :
    ∃ M, Collective size (fun rank => (DistributedMatrix.fromLocalRows ⟨rank, size⟩ starts
        (rows rank) : RankProgram β σ (DistributedMatrix α))) M ∧ Parts starts size M ∧
      ∀ rank < size, SplitFrom starts rank (rows rank) (M rank) := by
  refine Collective.ofBlocks hstarts hword (fun _ => pure ()) (fun _ _ => .pure ())
    (fun rank hrank => foreignColumns_spec (hncols rank hrank))
    (fun rank _ M hM j hj => hM.used hj) fun rank hrank => ?_
  have hcheck := checkRowStarts_eq_ok_iff.mpr hstarts
  have hshape := And.intro (hnrows rank hrank) (hncols rank hrank)
  unfold DistributedMatrix.fromLocalRows
  simp only [hcheck, hstarts.rowRange_eq_ok hrank, RankProgram.liftM_ok_bind, dif_pos hshape]
  refine ⟨fun plan => {
    rank, rowStarts := starts, plan
    columns := DistributedMatrix.foreignColumns (starts.getD rank 0) (starts.getD (rank + 1) 0)
      (rows rank)
    diagonal := (rows rank).relabel
      (DistributedMatrix.ownColumns (starts.getD rank 0) (starts.getD (rank + 1) 0))
    offDiagonal := (rows rank).relabel (DistributedMatrix.placeIn _ (pairwise_distinct _))
    adopted := false
    square := by simp [hshape.1]
    same_rows := by simp
    mapped := rfl
    owned := by simp only [SparseMatrix.nrows_relabel, hshape.1] }, rfl,
    fun plan => ⟨rfl, rfl, rfl, rfl, ?_⟩⟩
  have hincreasing :=
    (foreignColumns_spec (hncols rank hrank) : ForeignColumns starts rank _).increasing
  refine ⟨SparseMatrix.nrows_relabel .., rfl, SparseMatrix.nrows_relabel .., rfl, fun i j hj => ?_,
    fun i j hj => ?_, hincreasing, fun c => mem_foreignColumns.trans And.comm⟩
  · refine SparseMatrix.get?_relabel ((if_pos ⟨Nat.le_add_right .., by omega⟩).trans ?_) i
    rw [Nat.add_sub_cancel_left]
  · exact SparseMatrix.get?_relabel ((idxOf?_eq_some_iff (hincreasing.imp Nat.ne_of_lt)).mpr
      (List.getElem?_eq_getElem hj)) i

/-- The ranks keep the entries of their `rows`. -/
theorem Collective.fromLocalRows (rows : Nat → SparseMatrix α)
    (hnrows : ∀ rank < size,
      (rows rank).nrows = starts.getD (rank + 1) 0 - starts.getD rank 0)
    (hncols : ∀ rank < size, (rows rank).ncols = globalSize starts) :
    ∃ M, Collective size (fun rank => (DistributedMatrix.fromLocalRows ⟨rank, size⟩ starts
        (rows rank) : RankProgram β σ (DistributedMatrix α))) M ∧ Parts starts size M ∧
      ∀ rank < size, ∀ i c, (M rank).globalGet? i c = (rows rank).get? i c := by
  obtain ⟨M, hM, hparts, hsplit⟩ := Collective.splitRows (β := β) (σ := σ) hstarts hword rows hnrows
    hncols
  exact ⟨M, hM, hparts, fun rank hrank => (hsplit rank hrank).globalGet?_eq
    (hparts.rank_eq rank hrank) (hparts.rowStarts_eq rank hrank)⟩

/-- Every rank takes a diagonal block `block rank`. -/
theorem Collective.blockDiagonal (block : Nat → SparseMatrix α) (shared : Nat → Bool)
    (hnrows : ∀ rank < size,
      (block rank).nrows = starts.getD (rank + 1) 0 - starts.getD rank 0)
    (hncols : ∀ rank < size,
      (block rank).ncols = starts.getD (rank + 1) 0 - starts.getD rank 0) :
    ∃ M, Collective size (fun rank => (DistributedMatrix.blockDiagonal ⟨rank, size⟩ starts
        (block rank) (shared rank) : RankProgram β σ (DistributedMatrix α))) M ∧
      Parts starts size M ∧ ∀ rank < size, ∀ i c, (M rank).globalGet? i c =
        if Owns starts rank c then (block rank).get? i (c - starts.getD rank 0) else none := by
  have hforeign : ∀ rank < size, ForeignColumns starts rank [] := fun _ _ =>
    ⟨.nil, fun _ hc => (nomatch hc), fun _ hc => (nomatch hc)⟩
  have hcheck := checkRowStarts_eq_ok_iff.mpr hstarts
  have hshape : ∀ rank < size, (block rank).nrows = _ ∧ (block rank).ncols = _ := fun rank hrank =>
    ⟨hnrows rank hrank, hncols rank hrank⟩
  have hblocks := Collective.ofBlocks (β := β) (σ := σ) hstarts hword
    (p := fun rank =>
      DistributedMatrix.blockDiagonal ⟨rank, size⟩ starts (block rank) (shared rank))
    (fun rank => RankProgram.noteEvent (if shared rank then .copied rank else .adopted rank))
    (fun _ _ => .note _) hforeign
    (P := fun rank M => M.columns = [] ∧ ∀ i c, M.globalGet? i c =
      if Owns starts rank c then (block rank).get? i (c - starts.getD rank 0) else none)
    (fun rank _ M hM j hj => by simp [hM.1] at hj) fun rank hrank => ?_
  · obtain ⟨M, hM, hparts, hspec⟩ := hblocks
    exact ⟨M, hM, hparts, fun rank hrank => (hspec rank hrank).2⟩
  · unfold DistributedMatrix.blockDiagonal
    simp only [hcheck, hstarts.rowRange_eq_ok hrank, RankProgram.liftM_ok_bind,
      dif_pos (hshape rank hrank)]
    exact ⟨fun plan => {
      rank, rowStarts := starts, plan, columns := [], adopted := !shared rank
      diagonal := block rank
      offDiagonal := SparseMatrix.zero (starts.getD (rank + 1) 0 - starts.getD rank 0) 0
      square := (hnrows rank hrank).trans (hncols rank hrank).symm
      same_rows := by simp [hnrows rank hrank]
      mapped := rfl
      owned := hnrows rank hrank }, rfl, fun _ => ⟨rfl, rfl, rfl, rfl, rfl, fun _ _ => rfl⟩⟩

end

/-! ## All rows -/

/-- The rows of `M` with global columns, one rank after the other. -/
def stackedRows {α : Type} [Add α] (size : Nat) (M : Nat → DistributedMatrix α) :
    List (SparseRow α) :=
  (List.range size).flatMap fun rank => (M rank).toLocalRows.rows.toList

/-- Where the ranks hold the rows of `A` in `M`, the stacked rows are those of `A`. -/
theorem Parts.stackedRows_eq {α : Type} [Add α] {starts : Array Nat} {size : Nat}
    {M : Nat → DistributedMatrix α} (h : Parts starts size M) (hstarts : RowStarts starts size)
    {A : SparseMatrix α} (hnrows : A.nrows = globalSize starts)
    (hget : ∀ rank < size, ∀ row, Owns starts rank row → ∀ c,
      (M rank).globalGet? (row - starts.getD rank 0) c = A.get? row c) :
    stackedRows size M = A.rows.toList := by
  rw [A.toList_rows, hnrows]
  refine hstarts.flatMap_eq fun rank hrank => ?_
  have hsize : (M rank).toLocalRows.nrows = starts.getD (rank + 1) 0 - starts.getD rank 0 :=
    (nrows_toLocalRows _).trans (h.numLocalRows_eq hrank)
  refine List.ext_getElem (by simpa [SparseMatrix.nrows] using hsize) fun i hi _ => ?_
  have hi : i < (M rank).toLocalRows.nrows := by simpa [SparseMatrix.nrows] using hi
  have howns : Owns starts rank (starts.getD rank 0 + i) := ⟨by omega, by omega⟩
  rw [List.getElem_map, List.getElem_range]
  refine ((M rank).toLocalRows.row_eq_getElem hi).symm.trans ?_
  refine SparseRow.ext_get? (SparseMatrix.sorted_row ..) (SparseMatrix.sorted_row ..) fun c => ?_
  have hrow := hget rank hrank _ howns c
  rw [Nat.add_sub_cancel_left, ← h.get?_toLocalRows hstarts hrank] at hrow
  exact hrow

/-- The square matrix `S` has the rows of all ranks in `M`. -/
structure Stacked {α : Type} [Add α] (starts : Array Nat) (size : Nat)
    (M : Nat → DistributedMatrix α) (S : SparseMatrix α) : Prop where
  nrows_eq : S.nrows = globalSize starts
  ncols_eq : S.ncols = globalSize starts
  rows_eq : S.rows.toList = stackedRows size M

section

variable {α : Type} [Add α] {starts : Array Nat} {size : Nat} {M N : Nat → DistributedMatrix α}
  (hstarts : RowStarts starts size) (h : Parts starts size M)
include hstarts h

/-- The stacked rows of `M` make a matrix `S`, in which every rank has its rows. -/
theorem Parts.exists_stacked : ∃ S, Stacked starts size M S ∧
    ∀ rank < size, ∀ row, Owns starts rank row → ∀ c,
      S.get? row c = (M rank).globalGet? (row - starts.getD rank 0) c := by
  let rows := Array.ofFn fun i : Fin (globalSize starts) =>
    (M (owner starts i)).toLocalRows.row (i - starts.getD (owner starts i) 0)
  let S : SparseMatrix α := {
    ncols := globalSize starts
    rows
    sorted i hi := by
      simp only [rows, Array.getElem_ofFn]
      exact SparseMatrix.sorted_row ..
    below i hi := by
      have hrow : i < globalSize starts := by simpa [rows] using hi
      have hbelow := (M (owner starts i)).toLocalRows.below_row (i - starts.getD (owner starts i) 0)
      rw [ncols_toLocalRows, h.globalSize_eq (hstarts.ownerOf_owner hrow).2.1] at hbelow
      simpa only [rows, Array.getElem_ofFn] using hbelow }
  have hnrows : S.nrows = globalSize starts := by simp [S, rows, SparseMatrix.nrows]
  have hget : ∀ rank < size, ∀ row, Owns starts rank row → ∀ c,
      (M rank).globalGet? (row - starts.getD rank 0) c = S.get? row c := by
    intro rank hrank row howns c
    have hrow := hstarts.lt_globalSize hrank howns
    have hS : S.row row = (M rank).toLocalRows.row (row - starts.getD rank 0) := by
      rw [S.row_eq_getElem (hnrows ▸ hrow)]
      refine (Array.getElem_ofFn _).trans ?_
      simp only [(hstarts.owner_eq_iff hrank hrow).mpr howns]
    rw [SparseMatrix.get?, hS, ← h.get?_toLocalRows hstarts hrank]
    rfl
  exact ⟨S, ⟨hnrows, rfl, (h.stackedRows_eq hstarts hnrows hget).symm⟩,
    fun rank hrank row howns c => (hget rank hrank row howns c).symm⟩

/-- What the stacked rows `S` store at `row` and `c`. -/
theorem Stacked.get?_eq {S : SparseMatrix α} (hS : Stacked starts size M S) {rank row : Nat}
    (hrank : rank < size) (howns : Owns starts rank row) (c : Nat) :
    S.get? row c = (M rank).globalGet? (row - starts.getD rank 0) c := by
  obtain ⟨S', hS', hget⟩ := h.exists_stacked hstarts
  have hrows : S.rows = S'.rows := Array.toList_inj.mp (hS.rows_eq.trans hS'.rows_eq.symm)
  rw [← hget rank hrank row howns, SparseMatrix.get?, SparseMatrix.row, hrows]
  rfl

/-- The rows of `rank` are known from what it stores. -/
theorem Parts.toLocalRows_eq {rank : Nat} (hrank : rank < size) {rows : SparseMatrix α}
    (hnrows : rows.nrows = starts.getD (rank + 1) 0 - starts.getD rank 0)
    (hncols : rows.ncols = globalSize starts)
    (hget : ∀ i c, (M rank).globalGet? i c = rows.get? i c) : (M rank).toLocalRows = rows := by
  refine SparseMatrix.ext_get? ?_ ?_ fun i c => (h.get?_toLocalRows hstarts hrank i c).trans
    (hget i c)
  · rw [nrows_toLocalRows, h.numLocalRows_eq hrank, hnrows]
  · rw [ncols_toLocalRows, h.globalSize_eq hrank, hncols]

/-- Ranks that store the same in `M` and `N` have the same rows. -/
theorem Parts.stackedRows_congr (h' : Parts starts size N)
    (hget : ∀ rank < size, ∀ row, Owns starts rank row → ∀ c,
      (M rank).globalGet? (row - starts.getD rank 0) c =
        (N rank).globalGet? (row - starts.getD rank 0) c) :
    stackedRows size M = stackedRows size N := by
  obtain ⟨S, hS, hsame⟩ := h'.exists_stacked hstarts
  rw [← hS.rows_eq]
  exact h.stackedRows_eq hstarts hS.nrows_eq fun rank hrank row howns c =>
    (hget rank hrank row howns c).trans (hsame rank hrank row howns c).symm

end

end FemAssembly
