/-!
# Sparse rows

A sparse row lists its stored entries, column and value, by increasing column. An entry may be
stored with the value zero.

* `SparseRow.get?`: the value stored at a column.
* `SparseRow.add`: add a value at a column, where the column is stored if it was not.
* `SparseRow.ordered`: the entries by column.
* `SparseRow.mapValues`: new values at the stored columns.
* `SparseRow.get?_add`, `SparseRow.get?_mapValues`: what these do to the view `get?`.
-/

namespace FemAssembly

/-- The stored entries of a row, as pairs of a column and a value. -/
abbrev SparseRow (α : Type) := List (Nat × α)

namespace SparseRow

variable {α : Type}

/-- The columns of the stored entries of `row`. -/
def columns (row : SparseRow α) : List Nat := row.map Prod.fst

/-- The columns of `row` increase, so that none is stored twice. -/
def Sorted (row : SparseRow α) : Prop := (columns row).Pairwise (· < ·)

instance (row : SparseRow α) : Decidable (Sorted row) :=
  inferInstanceAs (Decidable (List.Pairwise _ _))

/-- All columns of `row` are below `bound`. -/
def Below (bound : Nat) (row : SparseRow α) : Prop := ∀ c ∈ columns row, c < bound

instance (bound : Nat) (row : SparseRow α) : Decidable (Below bound row) :=
  inferInstanceAs (Decidable (∀ c ∈ columns row, c < bound))

/-- The value that `row` stores at `column`. -/
def get? (row : SparseRow α) (column : Nat) : Option α := row.lookup column

/-- Add `value` at `column` of a row. A column that was not stored takes the value as it is. -/
def add [Add α] (column : Nat) (value : α) : SparseRow α → SparseRow α
  | [] => [(column, value)]
  | (c, old) :: rest =>
    if column < c then (column, value) :: (c, old) :: rest
    else if column = c then (c, old + value) :: rest
    else (c, old) :: add column value rest

/-- The entries of `row`, which are in any order, in the order of their columns. -/
def ordered (row : SparseRow α) : SparseRow α := row.mergeSort fun a b => decide (a.1 ≤ b.1)

/-- The row with the value `f c old` in place of every `old` value, in column `c`. -/
def mapValues (f : Nat → α → α) (row : SparseRow α) : SparseRow α :=
  row.map fun (c, old) => (c, f c old)

@[simp] theorem columns_mapValues (f : Nat → α → α) (row : SparseRow α) :
    columns (mapValues f row) = columns row := by
  simp [columns, mapValues, Function.comp_def]

theorem mem_columns_add [Add α] {column c : Nat} {value : α} {row : SparseRow α} :
    c ∈ columns (add column value row) ↔ c = column ∨ c ∈ columns row := by
  induction row with
  | nil => simp [add, columns]
  | cons entry rest ih =>
    obtain ⟨d, old⟩ := entry
    simp only [columns, List.map_cons, List.mem_cons] at ih ⊢
    unfold add
    split
    · simp
    · split
      · subst_vars
        simp
      · simp only [List.map_cons, List.mem_cons, ih]
        grind

theorem Sorted.add [Add α] {row : SparseRow α} (h : Sorted row) (column : Nat) (value : α) :
    Sorted (add column value row) := by
  induction row with
  | nil => simp [Sorted, columns, SparseRow.add]
  | cons entry rest ih =>
    obtain ⟨d, old⟩ := entry
    obtain ⟨hd, hrest⟩ := List.pairwise_cons.mp h
    unfold SparseRow.add
    split
    · refine List.pairwise_cons.mpr ⟨?_, h⟩
      intro c hc
      rcases List.mem_cons.mp hc with rfl | hc
      · assumption
      · exact Nat.lt_trans (by assumption) (hd c hc)
    · split
      · exact List.pairwise_cons.mpr ⟨hd, hrest⟩
      · refine List.pairwise_cons.mpr ⟨?_, ih hrest⟩
        intro c hc
        rcases mem_columns_add.mp hc with rfl | hc
        · simp only
          omega
        · exact hd c hc

theorem Below.add [Add α] {bound column : Nat} {value : α} {row : SparseRow α}
    (h : Below bound row) (hc : column < bound) : Below bound (add column value row) := by
  intro c hm
  rcases mem_columns_add.mp hm with rfl | hm
  · exact hc
  · exact h c hm

theorem Sorted.mapValues {row : SparseRow α} (h : Sorted row) (f : Nat → α → α) :
    Sorted (mapValues f row) := by
  rwa [Sorted, columns_mapValues]

theorem Below.mapValues {bound : Nat} {row : SparseRow α} (h : Below bound row)
    (f : Nat → α → α) : Below bound (mapValues f row) := by
  rwa [Below, columns_mapValues]

/-! ## The view by column -/

@[simp] theorem get?_nil (column : Nat) : get? ([] : SparseRow α) column = none := rfl

theorem get?_cons (column c : Nat) (old : α) (rest : SparseRow α) :
    get? ((c, old) :: rest) column = if column = c then some old else get? rest column := by
  rw [get?, List.lookup_cons]
  by_cases h : column = c
  · simp [h]
  · simp [h, beq_eq_false_iff_ne.mpr h, get?]

theorem get?_mapValues (f : Nat → α → α) (row : SparseRow α) (column : Nat) :
    get? (mapValues f row) column = (get? row column).map (f column) := by
  induction row with
  | nil => rfl
  | cons entry rest ih =>
    obtain ⟨c, old⟩ := entry
    simp only [mapValues, List.map_cons] at ih ⊢
    rw [get?_cons, get?_cons, ih]
    by_cases h : column = c <;> simp [h]

theorem get?_eq_none_of_lt {row : SparseRow α} {column : Nat}
    (h : ∀ c ∈ columns row, column < c) : get? row column = none := by
  induction row with
  | nil => rfl
  | cons entry rest ih =>
    obtain ⟨c, old⟩ := entry
    have := h c (by simp [columns])
    rw [get?_cons, if_neg (by omega)]
    exact ih fun d hd => h d (by simpa [columns] using Or.inr hd)

theorem get?_add [Add α] {row : SparseRow α} (h : Sorted row) (column c : Nat) (value : α) :
    get? (add column value row) c =
      if c = column then some (match get? row c with | some old => old + value | none => value)
      else get? row c := by
  induction row with
  | nil => simp [add, get?_cons]
  | cons entry rest ih =>
    obtain ⟨d, old⟩ := entry
    obtain ⟨hd, hrest⟩ := List.pairwise_cons.mp h
    unfold add
    split
    · have hnone : get? ((d, old) :: rest) column = none := get?_eq_none_of_lt fun c hc => by
        rcases List.mem_cons.mp hc with rfl | hc
        · assumption
        · exact Nat.lt_trans (by assumption) (hd c hc)
      rw [get?_cons]
      by_cases hc : c = column
      · subst hc
        rw [hnone]
      · simp [hc]
    · split
      · subst_vars
        by_cases hc : c = d <;> simp [get?_cons, hc]
      · rw [get?_cons, get?_cons, ih hrest]
        by_cases hc : c = d
        · subst hc
          rw [if_pos rfl, if_pos rfl, if_neg (by omega)]
        · simp [hc]

end SparseRow

end FemAssembly
