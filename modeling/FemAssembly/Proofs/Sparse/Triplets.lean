import FemAssembly.Proofs.Sparse.Sums
import FemAssembly.Sparse.Product

/-!
# Triplets

A sparse matrix is made from a list of triplets by adding their values one by one, and it can be
taken apart into its triplets again.

* `SparseMatrix.get?_addEntry`: one value added.
* `SparseMatrix.isSome_get?_foldl_addEntry`, `SparseMatrix.entry_foldl_addEntry`: a list of them. In
  exact arithmetic an entry is the sum of the values for its position.
* `SparseMatrix.sum_entry_ofTriplets_mul`: the product with a vector.
* `SparseMatrix.get?_ofTriplets_eq_some_iff`: without a position twice, the triplets are stored as
  they are.
* `SparseMatrix.mem_triplets`, `SparseMatrix.nodup_triplets`: the triplets of a matrix.
* `SparseMatrix.ext_get?`: a matrix is known by its shape and what it stores.
-/

namespace FemAssembly

open Finset

variable {α γ : Type}

namespace SparseRow

/-- Increasing rows `row` and `row'` that store the same are equal. -/
theorem ext_get? {row row' : SparseRow α} (hs : Sorted row) (hs' : Sorted row')
    (h : ∀ column, get? row column = get? row' column) : row = row' := by
  have hmem : ∀ entry, entry ∈ row ↔ entry ∈ row' := fun (column, value) => by
    rw [← get?_eq_some_iff hs.nodup, ← get?_eq_some_iff hs'.nodup, h]
  have hnodup : ∀ {row : SparseRow α}, Sorted row → row.Nodup := fun h =>
    List.Nodup.of_map Prod.fst h.nodup
  exact eq_of_perm_of_sorted ((List.perm_ext_iff_of_nodup (hnodup hs) (hnodup hs')).mpr hmem) hs hs'

end SparseRow

namespace SparseMatrix

/-- The matrices `A` and `B` are equal if they have the same shape and store the same. -/
theorem ext_get? {A B : SparseMatrix α} (hrows : A.nrows = B.nrows) (hcols : A.ncols = B.ncols)
    (h : ∀ i j, A.get? i j = B.get? i j) : A = B := by
  have heq : A.rows = B.rows := by
    refine Array.ext hrows fun i hi hi' => ?_
    rw [← A.row_eq_getElem hi, ← B.row_eq_getElem hi']
    exact SparseRow.ext_get? (A.sorted_row i) (B.sorted_row i) (h i)
  obtain ⟨_, _, _, _⟩ := A
  obtain ⟨_, _, _, _⟩ := B
  obtain rfl : _ = _ := hcols
  obtain rfl : _ = _ := heq
  rfl

@[simp] theorem get?_zero (nrows ncols i j : Nat) :
    (zero nrows ncols : SparseMatrix α).get? i j = none := by
  simp [get?, row, zero, Array.getD_eq_getD_getElem?, Array.getElem?_replicate]
  split <;> rfl

theorem get?_eq_none_of_not_lt {M : SparseMatrix α} {i j : Nat}
    (h : ¬ (i < M.nrows ∧ j < M.ncols)) : M.get? i j = none := by
  cases hget : M.get? i j with
  | none => rfl
  | some value => exact absurd (lt_of_get?_eq_some hget) h

/-! ## Adding values -/

section

variable [Add α] (M : SparseMatrix α) (i j : Nat) (value : α)

@[simp] theorem nrows_addEntry : (M.addEntry i j value).nrows = M.nrows := by
  unfold addEntry nrows
  split <;> simp

@[simp] theorem ncols_addEntry : (M.addEntry i j value).ncols = M.ncols := by
  unfold addEntry
  split <;> rfl

/-- Adding `value` at `(i, j)` changes this one position of `M`; a position outside does not count.
-/
theorem get?_addEntry (k l : Nat) :
    (M.addEntry i j value).get? k l = if k = i ∧ l = j ∧ i < M.nrows ∧ j < M.ncols then
      some (match M.get? k l with | some old => old + value | none => value) else M.get? k l := by
  by_cases hj : j < M.ncols
  · by_cases hi : i < M.nrows
    · rw [get?, M.row_addEntry i j k value hi hj]
      by_cases hk : k = i
      · subst hk
        rw [if_pos rfl]
        refine (SparseRow.get?_add (M.sorted_row k) j l value).trans ?_
        by_cases hl : l = j
        · exact (if_pos hl).trans (if_pos ⟨rfl, hl, hi, hj⟩).symm
        · exact (if_neg hl).trans (if_neg fun h => hl h.2.1).symm
      · simp [hk, Ne.symm hk, get?]
    · have hnone : ∀ {N : SparseMatrix α}, N.nrows = M.nrows → ¬ k < M.nrows → N.get? k l = none :=
        fun hN hk => get?_eq_none_of_not_lt fun h => hk (hN ▸ h.1)
      have hsame : (M.addEntry i j value).get? k l = M.get? k l := by
        by_cases hk : k < M.nrows
        · have hne : i ≠ k := fun heq => hi (heq ▸ hk)
          simp [get?, row, addEntry, hj, Array.getD_eq_getD_getElem?, Array.getElem?_modify, hne]
        · rw [hnone (nrows_addEntry M i j value) hk, hnone rfl hk]
      simp [hi, hsame]
  · simp [hj, addEntry]

end

section

variable [Add α]

theorem sameShape_foldl_addEntry (triplets : List (Nat × Nat × α)) (M : SparseMatrix α) :
    SameShape (triplets.foldl (fun M (i, j, value) => M.addEntry i j value) M) M :=
  sameShape_foldl (fun _ _ => ⟨nrows_addEntry .., ncols_addEntry ..⟩) triplets M

@[simp] theorem nrows_ofTriplets (nrows ncols : Nat) (triplets : List (Nat × Nat × α)) :
    (ofTriplets nrows ncols triplets).nrows = nrows :=
  (sameShape_foldl_addEntry ..).1.trans (nrows_zero ..)

@[simp] theorem ncols_ofTriplets (nrows ncols : Nat) (triplets : List (Nat × Nat × α)) :
    (ofTriplets nrows ncols triplets).ncols = ncols :=
  (sameShape_foldl_addEntry ..).2.trans (ncols_zero ..)

/-- A position `(i, j)` within `M` is stored after all `triplets` are added if it was before, or if
it is that of a triplet. -/
theorem isSome_get?_foldl_addEntry (triplets : List (Nat × Nat × α)) (M : SparseMatrix α)
    {i j : Nat} (hi : i < M.nrows) (hj : j < M.ncols) :
    ((triplets.foldl (fun M (i, j, value) => M.addEntry i j value) M).get? i j).isSome ↔
      (M.get? i j).isSome ∨ ∃ value, (i, j, value) ∈ triplets := by
  induction triplets generalizing M with
  | nil => simp
  | cons t triplets ih =>
    obtain ⟨k, l, v⟩ := t
    rw [List.foldl_cons, ih _ (by simpa using hi) (by simpa using hj), get?_addEntry]
    by_cases h : i = k ∧ j = l
    · obtain ⟨rfl, rfl⟩ := h
      simp [hi, hj]
    · have hne : ∀ value, ((i, j, value) : Nat × Nat × α) ≠ (k, l, v) := fun value heq => by
        simp only [Prod.mk.injEq] at heq
        exact h ⟨heq.1, heq.2.1⟩
      rw [if_neg fun hc => h ⟨hc.1, hc.2.1⟩]
      simp [List.mem_cons, hne]

theorem isSome_get?_ofTriplets {nrows ncols i j : Nat} (hi : i < nrows) (hj : j < ncols)
    (triplets : List (Nat × Nat × α)) :
    ((ofTriplets nrows ncols triplets).get? i j).isSome ↔ ∃ value, (i, j, value) ∈ triplets := by
  rw [ofTriplets, isSome_get?_foldl_addEntry triplets _ (by simpa using hi) (by simpa using hj)]
  simp

/-- Without a position twice, the matrix stores the `triplets` as they are. -/
theorem get?_ofTriplets_eq_some_iff {nrows ncols : Nat} {triplets : List (Nat × Nat × α)}
    (hnodup : (triplets.map fun t => (t.1, t.2.1)).Nodup)
    (hlt : ∀ t ∈ triplets, t.1 < nrows ∧ t.2.1 < ncols) {i j : Nat} {value : α} :
    (ofTriplets nrows ncols triplets).get? i j = some value ↔ (i, j, value) ∈ triplets := by
  have hfold : ∀ M : SparseMatrix α, M.nrows = nrows → M.ncols = ncols →
      (∀ t ∈ triplets, M.get? t.1 t.2.1 = none) →
      ((triplets.foldl (fun M (i, j, value) => M.addEntry i j value) M).get? i j = some value ↔
        M.get? i j = some value ∨ (i, j, value) ∈ triplets) := by
    induction triplets with
    | nil => simp
    | cons t triplets ih =>
      intro M hrows hcols hnone
      obtain ⟨k, l, v⟩ := t
      rw [List.map_cons, List.nodup_cons] at hnodup
      obtain ⟨⟨hk, hl⟩, hrest⟩ := List.forall_mem_cons.mp hlt
      have hget : ∀ i j, (M.addEntry k l v).get? i j =
          if i = k ∧ j = l then some v else M.get? i j := by
        intro i j
        rw [get?_addEntry]
        by_cases h : i = k ∧ j = l
        · obtain ⟨rfl, rfl⟩ := h
          simp only [hrows, hcols, hk, hl, and_self, ↓reduceIte, hnone (i, j, v) List.mem_cons_self]
        · rw [if_neg h, if_neg fun hc => h ⟨hc.1, hc.2.1⟩]
      have hother : ∀ t ∈ triplets, ¬ (t.1 = k ∧ t.2.1 = l) := fun t ht heq =>
        hnodup.1 (List.mem_map.mpr ⟨t, ht, Prod.ext heq.1 heq.2⟩)
      rw [List.foldl_cons, ih hnodup.2 hrest _ ((nrows_addEntry ..).trans hrows)
        ((ncols_addEntry ..).trans hcols) fun t ht => by
          rw [hget, if_neg (hother t ht)]
          exact hnone t (List.mem_cons_of_mem _ ht), hget, List.mem_cons]
      by_cases h : i = k ∧ j = l
      · obtain ⟨rfl, rfl⟩ := h
        have := hnone (i, j, v) List.mem_cons_self
        simp [this, eq_comm]
      · simp only [h, ↓reduceIte, Prod.mk.injEq]
        have : ¬ (i = k ∧ j = l ∧ value = v) := fun hc => h ⟨hc.1, hc.2.1⟩
        simp [this]
  rw [ofTriplets, hfold _ (nrows_zero ..) (ncols_zero ..) fun t _ => get?_zero ..]
  simp

end

/-! ## Sums of values -/

section

variable [AddCommMonoid α]

/-- In exact arithmetic the entry at `(i, j)` grows by all values of `triplets` for this position.
-/
theorem entry_foldl_addEntry (triplets : List (Nat × Nat × α)) (M : SparseMatrix α) {i j : Nat}
    (hi : i < M.nrows) (hj : j < M.ncols) :
    (triplets.foldl (fun M (i, j, value) => M.addEntry i j value) M).entry i j =
      M.entry i j + (triplets.map fun t => if t.1 = i ∧ t.2.1 = j then t.2.2 else 0).sum := by
  induction triplets generalizing M with
  | nil => simp
  | cons t triplets ih =>
    obtain ⟨k, l, v⟩ := t
    rw [List.foldl_cons, ih _ (by simpa using hi) (by simpa using hj), List.map_cons, List.sum_cons,
      ← add_assoc]
    congr 1
    rw [entry, entry, get?_addEntry]
    by_cases h : i = k ∧ j = l
    · obtain ⟨rfl, rfl⟩ := h
      simp only [hi, hj, and_self, ↓reduceIte, Option.getD_some]
      cases M.get? i j <;> simp
    · rw [if_neg fun hc => h ⟨hc.1, hc.2.1⟩, if_neg fun hc => h ⟨hc.1.symm, hc.2.symm⟩, add_zero]

theorem entry_ofTriplets {nrows ncols i j : Nat} (hi : i < nrows) (hj : j < ncols)
    (triplets : List (Nat × Nat × α)) :
    (ofTriplets nrows ncols triplets).entry i j =
      (triplets.map fun t => if t.1 = i ∧ t.2.1 = j then t.2.2 else 0).sum := by
  rw [ofTriplets, entry_foldl_addEntry triplets _ (by simpa using hi) (by simpa using hj)]
  simp [entry]

theorem entry_eq_zero_of_not_lt {M : SparseMatrix α} {i j : Nat}
    (h : ¬ (i < M.nrows ∧ j < M.ncols)) : M.entry i j = 0 := by
  rw [entry, get?_eq_none_of_not_lt h, Option.getD_none]

end

/-- In exact arithmetic every triplet contributes on its own to row `i` of the product with the
vector `x`. -/
theorem sum_entry_ofTriplets_mul [NonUnitalNonAssocSemiring α] {nrows ncols i : Nat}
    (hi : i < nrows) {triplets : List (Nat × Nat × α)} (hlt : ∀ t ∈ triplets, t.2.1 < ncols)
    (x : Nat → α) : ∑ j ∈ range ncols, (ofTriplets nrows ncols triplets).entry i j * x j =
      (triplets.map fun t => if t.1 = i then t.2.2 * x t.2.1 else 0).sum := by
  rw [sum_congr rfl fun j hj => by rw [entry_ofTriplets hi (mem_range.mp hj)]]
  induction triplets with
  | nil => simp
  | cons t triplets ih =>
    obtain ⟨ht, hrest⟩ := List.forall_mem_cons.mp hlt
    simp only [List.map_cons, List.sum_cons, add_mul, sum_add_distrib, ih hrest]
    congr 1
    by_cases hrow : t.1 = i
    · simp only [hrow, true_and, ite_mul, zero_mul, sum_ite_eq, mem_range, ht, if_true]
    · simp only [hrow, false_and, if_false, zero_mul, sum_const_zero]

/-! ## Taking a matrix apart -/

section

variable (M : SparseMatrix α)

/-- The rows of `M` with their numbers. -/
theorem zipIdx_rows : M.rows.toList.zipIdx = (List.range M.nrows).map fun i => (M.row i, i) := by
  rw [toList_rows]
  exact List.ext_getElem (by simp) fun i _ _ => by simp

theorem triplets_eq : M.triplets =
    (List.range M.nrows).flatMap fun i => (M.row i).map fun (j, value) => (i, j, value) := by
  rw [triplets, zipIdx_rows, List.flatMap_map]

variable {M}

theorem mem_triplets {i j : Nat} {value : α} :
    (i, j, value) ∈ M.triplets ↔ M.get? i j = some value := by
  rw [triplets_eq, get?, SparseRow.get?_eq_some_iff (M.sorted_row i).nodup]
  simp only [List.mem_flatMap, List.mem_range, List.mem_map, Prod.exists, Prod.mk.injEq]
  constructor
  · rintro ⟨k, -, l, v, hmem, rfl, rfl, rfl⟩
    exact hmem
  · intro hmem
    refine ⟨i, ?_, j, value, hmem, rfl, rfl, rfl⟩
    by_contra hle
    rw [row_eq_nil M (Nat.le_of_not_lt hle)] at hmem
    cases hmem

/-- No position of `M` is in `M.triplets` twice. -/
theorem nodup_triplets : (M.triplets.map fun t => (t.1, t.2.1)).Nodup := by
  rw [triplets_eq, List.map_flatMap]
  refine List.nodup_flatMap.mpr ⟨fun i _ => ?_, ?_⟩
  · rw [List.map_map]
    refine List.Nodup.of_map Prod.snd ?_
    rw [List.map_map]
    exact (M.sorted_row i).nodup
  · refine List.nodup_range.imp fun {i i'} hne => ?_
    rw [Function.onFun, List.disjoint_iff_ne]
    intro a ha b hb heq
    obtain ⟨_, -, rfl⟩ := List.mem_map.mp (List.map_map ▸ ha)
    obtain ⟨_, -, rfl⟩ := List.mem_map.mp (List.map_map ▸ hb)
    exact hne (congrArg Prod.fst heq)

end

/-- The sum of `f` over what `M` stores, position by position. -/
theorem sum_triplets [AddCommMonoid γ] (M : SparseMatrix α) (f : Nat → Nat → α → γ) :
    (M.triplets.map fun t => f t.1 t.2.1 t.2.2).sum =
      ∑ i ∈ range M.nrows, ∑ j ∈ range M.ncols, (M.get? i j).elim 0 (f i j) := by
  rw [triplets_eq, List.map_flatMap, List.flatMap_def, List.sum_flatten, List.map_map,
    ← List.sum_toFinset _ List.nodup_range, List.toFinset_range]
  refine sum_congr rfl fun i _ => ?_
  simp only [Function.comp, List.map_map]
  exact SparseRow.sum_map (M.sorted_row i).nodup (M.below_row i) (f i)

end SparseMatrix

end FemAssembly
