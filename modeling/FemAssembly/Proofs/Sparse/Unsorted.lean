import FemAssembly.Sparse.Matrix

/-!
# Matrices from rows in any order

* `SparseRow.get?_eq_some_iff`: a row whose columns are distinct is a finite map, and `get?` reads
  it.
* `SparseRow.sorted_ordered_iff`: the entries of a row, ordered by column, increase exactly when no
  column is there twice.
* `SparseMatrix.ofUnsortedRows_eq_ok`, `SparseMatrix.ofUnsortedRows_eq_error`: which rows make a
  matrix, and which matrix.
* `SparseMatrix.get?_eq_some_iff_of_ordered`: what the matrix stores.
* `SparseMatrix.ofUnsortedRows_congr`: the order of the entries within their rows does not matter.
-/

namespace FemAssembly

namespace SparseRow

variable {α : Type}

/-! ## Rows as finite maps -/

theorem mem_columns {row : SparseRow α} {column : Nat} :
    column ∈ columns row ↔ ∃ value, (column, value) ∈ row := by
  simp [columns]

theorem get?_eq_some_iff {row : SparseRow α} (h : (columns row).Nodup) {column : Nat} {value : α} :
    get? row column = some value ↔ (column, value) ∈ row := by
  induction row with
  | nil => simp
  | cons entry rest ih =>
    obtain ⟨c, old⟩ := entry
    obtain ⟨hc, hrest⟩ := List.nodup_cons.mp h
    rw [get?_cons, List.mem_cons, Prod.mk.injEq]
    by_cases hcolumn : column = c
    · subst hcolumn
      simp only [↓reduceIte, Option.some.injEq, true_and]
      refine ⟨fun hv => .inl hv.symm, ?_⟩
      rintro (rfl | hmem)
      · rfl
      · exact absurd (mem_columns.mpr ⟨value, hmem⟩) hc
    · simp only [hcolumn, ↓reduceIte, false_and, false_or]
      exact ih hrest

theorem isSome_get?_iff {row : SparseRow α} {column : Nat} :
    (get? row column).isSome ↔ column ∈ columns row := by
  induction row with
  | nil => simp [columns]
  | cons entry rest ih =>
    obtain ⟨c, old⟩ := entry
    rw [get?_cons]
    by_cases h : column = c
    · simp [h, columns]
    · simpa [h, columns] using ih

theorem Sorted.nodup {row : SparseRow α} (h : Sorted row) : (columns row).Nodup :=
  h.imp fun hlt => Nat.ne_of_lt hlt

/-! ## Rows by column -/

theorem ordered_perm (row : SparseRow α) : (ordered row).Perm row := List.mergeSort_perm ..

theorem columns_perm {row row' : SparseRow α} (h : row.Perm row') :
    (columns row).Perm (columns row') :=
  h.map _

theorem pairwise_ordered (row : SparseRow α) : (columns (ordered row)).Pairwise (· ≤ ·) := by
  refine List.pairwise_map.mpr ?_
  have h : (ordered row).Pairwise fun a b => decide (a.1 ≤ b.1) = true :=
    List.pairwise_mergeSort (fun a b c => by simpa using Nat.le_trans)
      (fun a b => by simpa using Nat.le_total a.1 b.1) row
  exact h.imp fun hle => by simpa using hle

theorem sorted_ordered_iff {row : SparseRow α} : Sorted (ordered row) ↔ (columns row).Nodup := by
  have hperm := columns_perm (ordered_perm row)
  constructor
  · intro h
    exact hperm.nodup_iff.mp h.nodup
  · intro h
    have hne : (columns (ordered row)).Pairwise (· ≠ ·) := hperm.nodup_iff.mpr h
    exact (pairwise_ordered row).imp₂ (fun _ _ hle hne => Nat.lt_of_le_of_ne hle hne) hne

theorem below_ordered_iff {bound : Nat} {row : SparseRow α} :
    Below bound (ordered row) ↔ Below bound row := by
  simp only [Below, (columns_perm (ordered_perm row)).mem_iff]

/-- Increasing rows `row` and `row'` with the same entries are equal. -/
theorem eq_of_perm_of_sorted {row row' : SparseRow α} (h : row.Perm row') (hs : Sorted row)
    (hs' : Sorted row') : row = row' := by
  refine h.eq_of_pairwise (fun a b _ _ (hab : a.1 < b.1) hba => ?_)
    (List.pairwise_map.mp hs) (List.pairwise_map.mp hs')
  exact absurd hab (Nat.lt_asymm hba)

theorem ordered_eq_of_perm {row row' : SparseRow α} (h : row.Perm row')
    (hn : (columns row).Nodup) : ordered row = ordered row' := by
  refine eq_of_perm_of_sorted (((ordered_perm row).trans h).trans (ordered_perm row').symm)
    (sorted_ordered_iff.mpr hn) (sorted_ordered_iff.mpr ?_)
  exact (columns_perm h).nodup_iff.mp hn

end SparseRow

namespace SparseMatrix

variable {α : Type}

/-! ## Matrices -/

/-- No row of `rows` holds a column twice. -/
def DistinctColumns (rows : Array (SparseRow α)) : Prop :=
  ∀ i (h : i < rows.size), (SparseRow.columns rows[i]).Nodup

theorem sorted_map_ordered_iff {rows : Array (SparseRow α)} :
    (∀ i (h : i < (rows.map SparseRow.ordered).size), (rows.map SparseRow.ordered)[i].Sorted) ↔
      DistinctColumns rows := by
  simp only [Array.size_map, Array.getElem_map, SparseRow.sorted_ordered_iff, DistinctColumns]

theorem ofUnsortedRows_eq_ok {ncols : Nat} {rows : Array (SparseRow α)}
    (hd : DistinctColumns rows) (hb : ∀ i (h : i < rows.size), rows[i].Below ncols) :
    ∃ A, ofUnsortedRows ncols rows = .ok A ∧ A.ncols = ncols ∧
      A.rows = rows.map SparseRow.ordered := by
  have hs := sorted_map_ordered_iff.mpr hd
  have hb' : ∀ i (h : i < (rows.map SparseRow.ordered).size),
      (rows.map SparseRow.ordered)[i].Below ncols := by
    simpa only [Array.size_map, Array.getElem_map, SparseRow.below_ordered_iff] using hb
  refine ⟨⟨ncols, rows.map SparseRow.ordered, hs, hb'⟩, ?_, rfl, rfl⟩
  exact (dif_pos hs).trans (dif_pos hb')

theorem ofUnsortedRows_eq_error {ncols : Nat} {rows : Array (SparseRow α)}
    (hd : ¬ DistinctColumns rows) :
    ofUnsortedRows ncols rows = .error .duplicateEntries := by
  unfold ofUnsortedRows
  exact dif_neg fun hs => hd (sorted_map_ordered_iff.mp hs)

/-- A matrix `A` that was made of `rows` holds them by column, and none of them held a column twice.
-/
theorem of_ofUnsortedRows_eq_ok {ncols : Nat} {rows : Array (SparseRow α)} {A : SparseMatrix α}
    (h : ofUnsortedRows ncols rows = .ok A) :
    DistinctColumns rows ∧ A.ncols = ncols ∧ A.rows = rows.map SparseRow.ordered := by
  unfold ofUnsortedRows at h
  simp only at h
  split at h
  · rename_i hs
    split at h
    · cases h
      exact ⟨sorted_map_ordered_iff.mp hs, rfl, rfl⟩
    · cases h
  · cases h

/-- A matrix `A` of `rows` that were ordered by column stores what these held. -/
theorem get?_eq_some_iff_of_ordered {rows : Array (SparseRow α)} {A : SparseMatrix α}
    (hd : DistinctColumns rows) (hrows : A.rows = rows.map SparseRow.ordered) {row column : Nat}
    {value : α} :
    A.get? row column = some value ↔ ∃ h : row < rows.size, (column, value) ∈ rows[row] := by
  rw [get?, SparseMatrix.row, hrows, Array.getD_eq_getD_getElem?, Array.getElem?_map]
  by_cases h : row < rows.size
  · have hsorted := SparseRow.sorted_ordered_iff.mpr (hd row h)
    rw [Array.getElem?_eq_getElem h, Option.map_some, Option.getD_some,
      SparseRow.get?_eq_some_iff hsorted.nodup, (SparseRow.ordered_perm _).mem_iff]
    simp [h]
  · rw [Array.getElem?_eq_none (Nat.le_of_not_lt h), Option.map_none, Option.getD_none,
      SparseRow.get?_nil]
    simp [h]

/-- The order of the entries within their rows does not matter: `rows` and `rows'` make the same
matrix. -/
theorem ofUnsortedRows_congr {ncols : Nat} {rows rows' : Array (SparseRow α)}
    (hsize : rows.size = rows'.size)
    (hperm : ∀ i (h : i < rows.size) (h' : i < rows'.size), rows[i].Perm rows'[i]) :
    ofUnsortedRows ncols rows = ofUnsortedRows ncols rows' := by
  have hdistinct : DistinctColumns rows ↔ DistinctColumns rows' := by
    constructor
    · intro hd i h'
      have h : i < rows.size := hsize ▸ h'
      exact (SparseRow.columns_perm (hperm i h h')).nodup_iff.mp (hd i h)
    · intro hd i h
      have h' : i < rows'.size := hsize ▸ h
      exact (SparseRow.columns_perm (hperm i h h')).nodup_iff.mpr (hd i h')
  by_cases hd : DistinctColumns rows
  · have hordered : rows.map SparseRow.ordered = rows'.map SparseRow.ordered := by
      refine Array.ext (by simpa using hsize) fun i h h' => ?_
      rw [Array.getElem_map, Array.getElem_map]
      exact SparseRow.ordered_eq_of_perm (hperm i _ _) (hd i (by simpa using h))
    simp only [ofUnsortedRows, hordered]
  · rw [ofUnsortedRows_eq_error hd, ofUnsortedRows_eq_error fun hd' => hd (hdistinct.mpr hd')]

end SparseMatrix

end FemAssembly
