import FemAssembly.Proofs.Sparse.Triplets

/-!
# Transposes and products

* `SparseMatrix.get?_transpose`: the transpose by position.
* `SparseMatrix.isSome_get?_mul`: where a product stores an entry.
* `SparseMatrix.entry_mul`: in exact arithmetic a product is the product of the tables of entries.
-/

namespace FemAssembly

open Finset

namespace SparseMatrix

variable {α : Type}

/-! ## Transposes -/

section

variable [Add α] (M : SparseMatrix α)

@[simp] theorem nrows_transpose : M.transpose.nrows = M.ncols := nrows_ofTriplets ..

@[simp] theorem ncols_transpose : M.transpose.ncols = M.nrows := ncols_ofTriplets ..

theorem get?_transpose (i j : Nat) : M.transpose.get? i j = M.get? j i := by
  have htranspose : M.transpose =
      ofTriplets M.ncols M.nrows (M.triplets.map fun t => (t.2.1, t.1, t.2.2)) := rfl
  have hnodup : ((M.triplets.map fun t => (t.2.1, t.1, t.2.2)).map
      fun t => (t.1, t.2.1)).Nodup := by
    refine List.Nodup.of_map Prod.swap ?_
    rw [List.map_map, List.map_map]
    exact nodup_triplets
  have hlt : ∀ t ∈ M.triplets.map fun t => (t.2.1, t.1, t.2.2),
      t.1 < M.ncols ∧ t.2.1 < M.nrows := by
    intro t ht
    obtain ⟨⟨i, j, value⟩, hmem, rfl⟩ := List.mem_map.mp ht
    exact (lt_of_get?_eq_some (mem_triplets.mp hmem)).symm
  refine Option.ext fun value => ?_
  rw [htranspose, get?_ofTriplets_eq_some_iff hnodup hlt, ← mem_triplets]
  simp only [List.mem_map, Prod.exists, Prod.mk.injEq]
  constructor
  · rintro ⟨_, _, _, hmem, rfl, rfl, rfl⟩
    exact hmem
  · exact fun hmem => ⟨j, i, value, hmem, rfl, rfl, rfl⟩

theorem entry_transpose [Zero α] (i j : Nat) : M.transpose.entry i j = M.entry j i := by
  rw [entry, get?_transpose, entry]

end

/-! ## Products -/

/-- The terms of the product of `A` and `B`, row by row. -/
def productTerms [Mul α] (A B : SparseMatrix α) : List (Nat × Nat × α) :=
  (List.range A.nrows).flatMap fun i => (rowTerms (A.row i) B).map fun (j, term) => (i, j, term)

theorem mem_productTerms [Mul α] {A B : SparseMatrix α} {i j : Nat} {term : α} :
    (i, j, term) ∈ productTerms A B ↔
      ∃ k a b, A.get? i k = some a ∧ B.get? k j = some b ∧ a * b = term := by
  simp only [productTerms, rowTerms, List.mem_flatMap, List.mem_range, List.mem_map, Prod.exists,
    Prod.mk.injEq]
  constructor
  · rintro ⟨i, -, _, _, ⟨k, a, hA, _, b, hB, rfl, rfl⟩, rfl, rfl, rfl⟩
    exact ⟨k, a, b, (SparseRow.get?_eq_some_iff (A.sorted_row i).nodup).mpr hA,
      (SparseRow.get?_eq_some_iff (B.sorted_row k).nodup).mpr hB, rfl⟩
  · rintro ⟨k, a, b, hA, hB, rfl⟩
    exact ⟨i, (lt_of_get?_eq_some hA).1, j, _, ⟨k, a,
      (SparseRow.get?_eq_some_iff (A.sorted_row i).nodup).mp hA, j, b,
      (SparseRow.get?_eq_some_iff (B.sorted_row k).nodup).mp hB, rfl, rfl⟩, rfl, rfl, rfl⟩

theorem mul_eq [Zero α] [Add α] [Mul α] (A B : SparseMatrix α) :
    A.mul B = (productTerms A B).foldl (fun C (i, j, term) => C.addEntry i j term)
      (ofTriplets A.nrows B.ncols ((productTerms A B).map fun (i, j, _) => (i, j, 0))) := by
  rw [mul, zipIdx_rows, List.flatMap_map]
  rfl

section

variable [Zero α] [Add α] [Mul α] {A B : SparseMatrix α}

@[simp] theorem nrows_mul : (A.mul B).nrows = A.nrows := by
  rw [mul_eq, (sameShape_foldl_addEntry ..).1, nrows_ofTriplets]

@[simp] theorem ncols_mul : (A.mul B).ncols = B.ncols := by
  rw [mul_eq, (sameShape_foldl_addEntry ..).2, ncols_ofTriplets]

/-- The product of `A` and `B` stores `(i, j)` wherever the patterns meet at some `k`. -/
theorem isSome_get?_mul (i j : Nat) :
    ((A.mul B).get? i j).isSome ↔ ∃ k, (A.get? i k).isSome ∧ (B.get? k j).isSome := by
  have hterm : (∃ term, (i, j, term) ∈ productTerms A B) ↔
      ∃ k, (A.get? i k).isSome ∧ (B.get? k j).isSome := by
    simp only [mem_productTerms, Option.isSome_iff_exists]
    constructor
    · rintro ⟨_, k, a, b, hA, hB, -⟩
      exact ⟨k, ⟨a, hA⟩, b, hB⟩
    · rintro ⟨k, ⟨a, hA⟩, b, hB⟩
      exact ⟨_, k, a, b, hA, hB, rfl⟩
  by_cases h : i < A.nrows ∧ j < B.ncols
  · have hpattern : (∃ value, (i, j, value) ∈
        (productTerms A B).map fun (i, j, _) => ((i, j, 0) : Nat × Nat × α)) ↔
        ∃ term, (i, j, term) ∈ productTerms A B := by
      simp only [List.mem_map, Prod.exists, Prod.mk.injEq]
      constructor
      · rintro ⟨_, _, _, term, hmem, rfl, rfl, -⟩
        exact ⟨term, hmem⟩
      · rintro ⟨term, hmem⟩
        exact ⟨0, i, j, term, hmem, rfl, rfl, rfl⟩
    rw [mul_eq, isSome_get?_foldl_addEntry _ _ (by simpa using h.1) (by simpa using h.2),
      isSome_get?_ofTriplets h.1 h.2, hpattern, or_self, hterm]
  · rw [get?_eq_none_of_not_lt (by simpa using h)]
    simp only [Option.isSome_none, Bool.false_eq_true, false_iff, not_exists, not_and]
    intro k hA hB
    obtain ⟨a, hA⟩ := Option.isSome_iff_exists.mp hA
    obtain ⟨b, hB⟩ := Option.isSome_iff_exists.mp hB
    exact h ⟨(lt_of_get?_eq_some hA).1, (lt_of_get?_eq_some hB).2⟩

end

section

variable [NonUnitalNonAssocSemiring α]

/-- The terms of one `row` in a product with `B` that belong to column `j`. -/
theorem sum_rowTerms (row : SparseRow α) (B : SparseMatrix α) (j : Nat) :
    ((rowTerms row B).map fun x => if x.1 = j then x.2 else 0).sum =
      (row.map fun x => x.2 * B.entry x.1 j).sum := by
  have hinner : ∀ k a, ((B.row k).map fun x => if x.1 = j then a * x.2 else 0).sum =
      a * B.entry k j := by
    intro k a
    refine (SparseRow.sum_map (B.sorted_row k).nodup (B.below_row k)
      fun j' b => if j' = j then a * b else 0).trans ?_
    have hother : ∀ j' ∈ range B.ncols, j' ≠ j →
        (B.get? k j').elim 0 (fun b => if j' = j then a * b else 0) = 0 := by
      intro j' _ hne
      cases B.get? k j' <;> simp [hne]
    have houtside : j ∉ range B.ncols →
        (B.get? k j).elim 0 (fun b => if j = j then a * b else 0) = 0 := by
      intro hj
      rw [get?_eq_none_of_not_lt fun hlt => hj (mem_range.mpr hlt.2), Option.elim_none]
    refine (sum_eq_single j hother houtside).trans ?_
    rw [entry]
    cases B.get? k j <;> simp
  rw [rowTerms, List.map_flatMap, List.flatMap_def, List.sum_flatten, List.map_map]
  refine congrArg List.sum (List.map_congr_left fun x _ => ?_)
  simp only [Function.comp, List.map_map]
  exact hinner x.1 x.2

/-- The terms of the product of `A` and `B` that belong to position `(i, j)`. -/
theorem sum_productTerms (A B : SparseMatrix α) (i j : Nat) :
    ((productTerms A B).map fun t => if t.1 = i ∧ t.2.1 = j then t.2.2 else 0).sum =
      ∑ k ∈ range A.ncols, A.entry i k * B.entry k j := by
  have hrow : ∀ i', ((rowTerms (A.row i') B).map fun x =>
      if i' = i ∧ x.1 = j then x.2 else 0).sum =
        if i' = i then ∑ k ∈ range A.ncols, A.entry i k * B.entry k j else 0 := by
    intro i'
    by_cases h : i' = i
    · subst h
      simp only [true_and, ↓reduceIte, sum_rowTerms]
      refine (SparseRow.sum_map (A.sorted_row i').nodup (A.below_row i')
        fun k a => a * B.entry k j).trans (sum_congr rfl fun k _ => ?_)
      change (A.get? i' k).elim 0 _ = _
      cases hget : A.get? i' k <;> simp [entry, hget]
    · simp [h]
  rw [productTerms, List.map_flatMap, List.flatMap_def, List.sum_flatten, List.map_map,
    ← List.sum_toFinset _ List.nodup_range, List.toFinset_range]
  simp only [Function.comp_def, List.map_map, hrow, sum_ite_eq']
  by_cases hi : i < A.nrows
  · rw [if_pos (mem_range.mpr hi)]
  · rw [if_neg fun h => hi (mem_range.mp h)]
    refine (sum_eq_zero fun k _ => ?_).symm
    rw [entry_eq_zero_of_not_lt fun hlt => hi hlt.1, zero_mul]

/-- In exact arithmetic the entries of `A.mul B` are those of the product of the tables of `A` and
`B`. -/
theorem entry_mul (A B : SparseMatrix α) (i j : Nat) :
    (A.mul B).entry i j = ∑ k ∈ range A.ncols, A.entry i k * B.entry k j := by
  by_cases h : i < A.nrows ∧ j < B.ncols
  · have hpattern : (ofTriplets A.nrows B.ncols
        ((productTerms A B).map fun (i, j, _) => (i, j, (0 : α)))).entry i j = 0 := by
      rw [entry_ofTriplets h.1 h.2, List.map_map]
      exact List.sum_eq_zero fun x hx => by
        obtain ⟨_, -, rfl⟩ := List.mem_map.mp hx
        simp
    rw [mul_eq, entry_foldl_addEntry _ _ (by simpa using h.1) (by simpa using h.2), hpattern,
      zero_add, sum_productTerms]
  · rw [entry_eq_zero_of_not_lt (by simpa using h)]
    refine (sum_eq_zero fun k _ => ?_).symm
    rw [not_and_or] at h
    rcases h with hi | hj
    · rw [entry_eq_zero_of_not_lt fun hlt => hi hlt.1, zero_mul]
    · rw [entry_eq_zero_of_not_lt (M := B) fun hlt => hj hlt.2, mul_zero]

end

end SparseMatrix

end FemAssembly
