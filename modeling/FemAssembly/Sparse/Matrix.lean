import FemAssembly.Error
import FemAssembly.Sequence.Offsets
import FemAssembly.Sparse.Row
import FemAssembly.Word

/-!
# Sparse matrices

A sparse matrix holds its rows one by one. Columns increase within each row and are below the number
of columns; which entries are stored (the pattern) is part of the matrix, whatever their values.

* `SparseMatrix.get?`: the value stored at a position.
* `SparseMatrix.ofUnsortedRows`: the matrix of rows whose entries are in any order.
* `SparseMatrix.mapRow`, `SparseMatrix.replace`: new values on the same pattern.
* `SparseMatrix.addEntry`: add a value at a position. Adding triplets one by one sums duplicates in
  their order.
* `SparseMatrix.identity`: the identity.
* `SparseMatrix.offsets`, `SparseMatrix.columns`, `SparseMatrix.values`: the compressed row storage.
-/

namespace FemAssembly

structure SparseMatrix (α : Type) where
  ncols : Nat
  rows : Array (SparseRow α)
  sorted : ∀ i (h : i < rows.size), rows[i].Sorted
  below : ∀ i (h : i < rows.size), rows[i].Below ncols

namespace SparseMatrix

variable {α : Type}

/-! ## Making matrices -/

/-- The matrix with `nrows` rows and `ncols` columns that stores nothing. -/
def zero (nrows ncols : Nat) : SparseMatrix α where
  ncols
  rows := Array.replicate nrows []
  sorted i h := by simp [SparseRow.Sorted, SparseRow.columns]
  below i h := by simp [SparseRow.Below, SparseRow.columns]

/-- The matrix with the given `rows`, if their columns increase and are below `ncols`. -/
def ofRows? (ncols : Nat) (rows : Array (SparseRow α)) : Option (SparseMatrix α) :=
  if h : (∀ i (h : i < rows.size), rows[i].Sorted) ∧ ∀ i (h : i < rows.size), rows[i].Below ncols
  then some ⟨ncols, rows, h.1, h.2⟩
  else none

/-- The matrix of `rows` whose entries are in any order. A row that holds a column twice makes no
matrix. -/
def ofUnsortedRows (ncols : Nat) (rows : Array (SparseRow α)) : Except Error (SparseMatrix α) :=
  let ordered := rows.map SparseRow.ordered
  if hs : ∀ i (h : i < ordered.size), ordered[i].Sorted then
    if hb : ∀ i (h : i < ordered.size), ordered[i].Below ncols then
      .ok ⟨ncols, ordered, hs, hb⟩
    else .error (.fault .outOfRange)
  else .error .duplicateEntries

/-! ## Reading matrices -/

variable (M : SparseMatrix α)

def nrows : Nat := M.rows.size

/-- The stored entries of row `i`. There are none past the last row. -/
def row (i : Nat) : SparseRow α := M.rows.getD i []

/-- The value that `M` stores at `(i, j)`. -/
def get? (i j : Nat) : Option α := (M.row i).get? j

/-- The number of stored entries of `M`. -/
def nnz : Nat := total (M.rows.toList.map List.length)

/-- Where each row of `M` starts in the compressed storage, and where the last one ends. -/
def offsets : List Nat := FemAssembly.offsets (M.rows.toList.map List.length)

/-- The stored columns of all rows of `M`, one row after the other. -/
def columns : List Nat := (M.rows.toList.map SparseRow.columns).flatten

/-- The stored values of all rows of `M`, one row after the other. -/
def values : List α := (M.rows.toList.map fun row => row.map Prod.snd).flatten

/-- The stored entries of `M` with their rows, as `(i, j, value)` in the order of the storage. -/
def triplets : List (Nat × Nat × α) :=
  M.rows.toList.zipIdx.flatMap fun (row, i) => row.map fun (j, value) => (i, j, value)

/-- The stored positions of each row of `M`, as one flag for each column. All flags together have to
fit into an array. -/
def mask : Except Error (List (List Bool)) := do
  Word.reserve (M.nrows * M.ncols) 1
  pure (M.rows.toList.map fun row => (List.range M.ncols).map fun j => (row.get? j).isSome)

/-! ## Changing matrices -/

/-- The matrix `M` with the value `f j old` in place of every `old` value of row `i`, in column `j`.
-/
def mapRow (i : Nat) (f : Nat → α → α) : SparseMatrix α where
  ncols := M.ncols
  rows := M.rows.modify i (SparseRow.mapValues f)
  sorted k h := by
    rw [Array.getElem_modify]
    split
    · exact (M.sorted k (by simpa using h)).mapValues f
    · exact M.sorted k (by simpa using h)
  below k h := by
    rw [Array.getElem_modify]
    split
    · exact (M.below k (by simpa using h)).mapValues f
    · exact M.below k (by simpa using h)

/-- Put `value` at `(i, j)`, if `M` stores this position. -/
def replace (i j : Nat) (value : α) : SparseMatrix α :=
  M.mapRow i fun c old => if c = j then value else old

/-- Add `value` at `(i, j)`. A position outside of `M` changes nothing. -/
def addEntry [Add α] (i j : Nat) (value : α) : SparseMatrix α :=
  if hj : j < M.ncols then {
    ncols := M.ncols
    rows := M.rows.modify i (SparseRow.add j value)
    sorted k h := by
      rw [Array.getElem_modify]
      split
      · exact (M.sorted k (by simpa using h)).add j value
      · exact M.sorted k (by simpa using h)
    below k h := by
      rw [Array.getElem_modify]
      split
      · exact (M.below k (by simpa using h)).add hj
      · exact M.below k (by simpa using h) }
  else M

/-- The matrix of the list `triplets`, where duplicates are added in their order. -/
def ofTriplets [Add α] (nrows ncols : Nat) (triplets : List (Nat × Nat × α)) : SparseMatrix α :=
  triplets.foldl (fun M (i, j, value) => M.addEntry i j value) (zero nrows ncols)

/-- The identity with `n` rows, which have to fit into an array. -/
def identity [One α] [Add α] (n : Nat) : Except Error (SparseMatrix α) := do
  Word.reserve (n + 1) 8
  pure (ofTriplets n n ((List.range n).map fun i => (i, i, 1)))

/-! ## The view by position -/

@[simp] theorem nrows_zero (nrows ncols : Nat) :
    (zero nrows ncols : SparseMatrix α).nrows = nrows := by
  simp [SparseMatrix.nrows, zero]

@[simp] theorem ncols_zero (nrows ncols : Nat) :
    (zero nrows ncols : SparseMatrix α).ncols = ncols :=
  rfl

@[simp] theorem nrows_mapRow (i : Nat) (f : Nat → α → α) : (M.mapRow i f).nrows = M.nrows := by
  simp [nrows, mapRow]

@[simp] theorem ncols_mapRow (i : Nat) (f : Nat → α → α) : (M.mapRow i f).ncols = M.ncols := rfl

@[simp] theorem nrows_replace (i j : Nat) (value : α) :
    (M.replace i j value).nrows = M.nrows := nrows_mapRow ..

@[simp] theorem ncols_replace (i j : Nat) (value : α) :
    (M.replace i j value).ncols = M.ncols := rfl

/-- The matrices `M` and `N` have the same numbers of rows and columns. -/
def SameShape (M N : SparseMatrix α) : Prop := M.nrows = N.nrows ∧ M.ncols = N.ncols

theorem SameShape.refl (M : SparseMatrix α) : SameShape M M := ⟨rfl, rfl⟩

theorem SameShape.trans {L M N : SparseMatrix α} (h : SameShape L M) (h' : SameShape M N) :
    SameShape L N :=
  ⟨h.1.trans h'.1, h.2.trans h'.2⟩

theorem sameShape_mapRow (i : Nat) (f : Nat → α → α) : SameShape (M.mapRow i f) M :=
  ⟨nrows_mapRow .., rfl⟩

theorem sameShape_foldl {γ : Type} {f : SparseMatrix α → γ → SparseMatrix α}
    (hf : ∀ M a, SameShape (f M a) M) (list : List γ) (M : SparseMatrix α) :
    SameShape (list.foldl f M) M := by
  induction list generalizing M with
  | nil => exact .refl M
  | cons a list ih => exact (ih (f M a)).trans (hf M a)

theorem sorted_row (i : Nat) : (M.row i).Sorted := by
  unfold row Array.getD
  split
  · exact M.sorted i (by assumption)
  · simp [SparseRow.Sorted, SparseRow.columns]

theorem row_mapRow (i k : Nat) (f : Nat → α → α) :
    (M.mapRow i f).row k = if i = k then SparseRow.mapValues f (M.row k) else M.row k := by
  simp only [row, mapRow, Array.getD_eq_getD_getElem?, Array.getElem?_modify]
  by_cases h : i = k
  · subst h
    cases M.rows[i]? <;> simp [SparseRow.mapValues]
  · simp [h]

theorem get?_mapRow (i k j : Nat) (f : Nat → α → α) :
    (M.mapRow i f).get? k j = if i = k then (M.get? k j).map (f j) else M.get? k j := by
  unfold get?
  rw [row_mapRow]
  split
  · rw [SparseRow.get?_mapValues]
  · rfl

theorem get?_replace (i j k l : Nat) (value : α) :
    (M.replace i j value).get? k l =
      if i = k ∧ l = j then (M.get? k l).map fun _ => value else M.get? k l := by
  unfold replace
  rw [get?_mapRow]
  by_cases h : i = k <;> by_cases hl : l = j <;> simp [h, hl]

theorem row_addEntry [Add α] (i j k : Nat) (value : α) (hi : i < M.nrows) (hj : j < M.ncols) :
    (M.addEntry i j value).row k =
      if i = k then SparseRow.add j value (M.row k) else M.row k := by
  simp only [row, addEntry, hj, ↓reduceDIte, Array.getD_eq_getD_getElem?, Array.getElem?_modify]
  by_cases h : i = k
  · subst h
    have : M.rows[i]? = some M.rows[i] := Array.getElem?_eq_getElem hi
    simp [this]
  · simp [h]

end SparseMatrix

end FemAssembly
