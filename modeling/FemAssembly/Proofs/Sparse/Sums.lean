import FemAssembly.Distributed.Matrix
import FemAssembly.Proofs.Sparse.Unsorted
import Mathlib

/-!
# Sums over stored entries

A sum over what a row stores is a sum over all columns, in which a column without an entry counts
for nothing. So in exact arithmetic a sparse matrix acts as the full table of its entries.

* `SparseRow.sum_map`: a sum over a row, column by column.
* `SparseMatrix.entry`: the value at a position, zero where nothing is stored.
* `SparseMatrix.sum_row`, `SparseMatrix.sum_values`: the stored values, added up.
* `SparseMatrix.apply`, `SparseMatrix.getElem_apply`: the product with a vector.
-/

namespace FemAssembly

open Finset

variable {α γ : Type}

namespace SparseRow

variable [AddCommMonoid γ]

theorem sum_map {row : SparseRow α} {bound : Nat} (hnodup : (columns row).Nodup)
    (hbelow : Below bound row) (f : Nat → α → γ) :
    (row.map fun x => f x.1 x.2).sum = ∑ c ∈ range bound, (get? row c).elim 0 (f c) := by
  induction row with
  | nil => simp
  | cons entry rest ih =>
    obtain ⟨c, value⟩ := entry
    obtain ⟨hc, hrest⟩ := List.nodup_cons.mp hnodup
    have hlt : c < bound := hbelow c (by simp [columns])
    have hnone : get? rest c = none := by
      rw [← Option.not_isSome_iff_eq_none, isSome_get?_iff]
      exact hc
    rw [List.map_cons, List.sum_cons, ih hrest fun d hd => hbelow d (List.mem_cons_of_mem _ hd)]
    calc f c value + ∑ d ∈ range bound, (get? rest d).elim 0 (f d)
        = ∑ d ∈ range bound, ((if d = c then f c value else 0) + (get? rest d).elim 0 (f d)) := by
          rw [sum_add_distrib, sum_ite_eq', if_pos (mem_range.mpr hlt)]
      _ = _ := by
          refine sum_congr rfl fun d _ => ?_
          rw [get?_cons]
          by_cases h : d = c
          · simp [h, hnone]
          · simp [h]

end SparseRow

namespace SparseMatrix

variable (M : SparseMatrix α)

theorem row_eq_nil {i : Nat} (h : M.nrows ≤ i) : M.row i = [] := by
  rw [row, Array.getD_eq_getD_getElem?, Array.getElem?_eq_none h, Option.getD_none]

theorem row_eq_getElem {i : Nat} (h : i < M.nrows) : M.row i = M.rows[i] := by
  rw [row, Array.getD_eq_getD_getElem?, Array.getElem?_eq_getElem h, Option.getD_some]

theorem below_row (i : Nat) : (M.row i).Below M.ncols := by
  unfold row Array.getD
  split
  · exact M.below i (by assumption)
  · simp [SparseRow.Below, SparseRow.columns]

variable {M}

/-- What `M` stores lies within it. -/
theorem lt_of_get?_eq_some {i j : Nat} {value : α} (h : M.get? i j = some value) :
    i < M.nrows ∧ j < M.ncols := by
  have hmem : j ∈ SparseRow.columns (M.row i) :=
    SparseRow.isSome_get?_iff.mp (Option.isSome_iff_exists.mpr ⟨value, h⟩)
  refine ⟨?_, M.below_row i j hmem⟩
  by_contra hle
  rw [row_eq_nil M (Nat.le_of_not_lt hle)] at hmem
  cases hmem

/-- The rows of `M` in their order. -/
theorem toList_rows (M : SparseMatrix α) : M.rows.toList = (List.range M.nrows).map M.row :=
  List.ext_getElem (by simp [nrows]) fun i hi _ => by
    rw [List.getElem_map, List.getElem_range, M.row_eq_getElem (by simpa [nrows] using hi)]
    rfl

/-- The stored entries of `M`, counted position by position. -/
theorem nnz_eq_sum (M : SparseMatrix α) : M.nnz =
    ∑ i ∈ range M.nrows, ∑ j ∈ range M.ncols, if (M.get? i j).isSome then 1 else 0 := by
  have hrow : ∀ i, (M.row i).length =
      ∑ j ∈ range M.ncols, if (M.get? i j).isSome then 1 else 0 := fun i => by
    have hsum := SparseRow.sum_map (M.sorted_row i).nodup (M.below_row i) fun _ _ => 1
    rw [List.map_const', List.sum_replicate, smul_eq_mul, mul_one] at hsum
    rw [hsum]
    refine sum_congr rfl fun j _ => ?_
    rw [get?]
    cases (M.row i).get? j <;> rfl
  have htotal : M.nnz = ((List.range M.nrows).map fun i => (M.row i).length).sum := by
    rw [nnz, toList_rows, List.map_map]
    rfl
  rw [htotal, ← sum_congr rfl fun i _ => hrow i]
  rfl

/-- The value at `(i, j)`, which is zero where `M` stores nothing. -/
def entry [Zero α] (M : SparseMatrix α) (i j : Nat) : α := (M.get? i j).getD 0

/-- The stored values of row `i`, added up. -/
theorem sum_row [AddCommMonoid α] (M : SparseMatrix α) (i : Nat) :
    ((M.row i).map Prod.snd).sum = ∑ j ∈ range M.ncols, M.entry i j := by
  rw [SparseRow.sum_map (M.sorted_row i).nodup (M.below_row i) fun _ value => value]
  refine sum_congr rfl fun j _ => ?_
  rw [entry, get?]
  cases (M.row i).get? j <;> rfl

/-- The stored values of `M`, added up. -/
theorem sum_values [AddCommMonoid α] (M : SparseMatrix α) :
    M.values.sum = ∑ i ∈ range M.nrows, ∑ j ∈ range M.ncols, M.entry i j := by
  rw [values, List.sum_flatten, toList_rows, List.map_map, List.map_map,
    ← sum_congr rfl fun i _ => M.sum_row i]
  rfl

/-- The product of `M` with the vector `x`, row by row. -/
def apply [Zero α] [Add α] [Mul α] (M : SparseMatrix α) (x : Array α) : Array α :=
  M.rows.map (DistributedMatrix.addRowProduct x 0)

theorem size_apply [Zero α] [Add α] [Mul α] (x : Array α) : (M.apply x).size = M.nrows := by
  simp [apply, nrows]

section

variable [NonUnitalNonAssocSemiring α]

theorem addRowProduct_eq_add_sum (x : Array α) (sum : α) (row : SparseRow α) :
    DistributedMatrix.addRowProduct x sum row =
      sum + (row.map fun entry => entry.2 * x.getD entry.1 0).sum := by
  induction row generalizing sum with
  | nil => simp [DistributedMatrix.addRowProduct]
  | cons entry rest ih =>
    rw [List.map_cons, List.sum_cons, ← add_assoc]
    exact ih (sum + entry.2 * x.getD entry.1 0)

/-- In exact arithmetic the order of the products in row `i` does not matter. -/
theorem getElem_apply (x : Array α) {i : Nat} (h : i < (M.apply x).size) :
    (M.apply x)[i] = ∑ j ∈ range M.ncols, M.entry i j * x.getD j 0 := by
  have hi : i < M.nrows := M.size_apply x ▸ h
  calc (M.apply x)[i]
      = ((M.row i).map fun entry => entry.2 * x.getD entry.1 0).sum := by
        simp only [apply, Array.getElem_map, addRowProduct_eq_add_sum, zero_add,
          M.row_eq_getElem hi]
        rfl
    _ = ∑ j ∈ range M.ncols, (M.get? i j).elim 0 fun value => value * x.getD j 0 :=
        SparseRow.sum_map (M.sorted_row i).nodup (M.below_row i) fun j value => value * x.getD j 0
    _ = _ := by
        refine sum_congr rfl fun j _ => ?_
        cases h : M.get? i j <;> simp [entry, h]

end

/-- The product of the vector `x` with the product of `M` and `y`. -/
theorem sum_mul_apply [NonUnitalSemiring α] (x y : Array α) :
    ∑ i ∈ range M.nrows, x.getD i 0 * (M.apply y).getD i 0 =
      ∑ i ∈ range M.nrows, ∑ j ∈ range M.ncols, x.getD i 0 * M.entry i j * y.getD j 0 := by
  refine sum_congr rfl fun i hi => ?_
  have hlt : i < (M.apply y).size := M.size_apply y ▸ mem_range.mp hi
  have hget : (M.apply y).getD i 0 = (M.apply y)[i] := by
    rw [Array.getD_eq_getD_getElem?, Array.getElem?_eq_getElem hlt, Option.getD_some]
  rw [hget, M.getElem_apply, mul_sum]
  simp only [mul_assoc]

end SparseMatrix

end FemAssembly
