import FemAssembly.Proofs.Assembly.Entries

/-!
# Assembled values as sums

In exact arithmetic a stored value is the sum over all elements and all pairs of their slots that
name its pair, whatever the elements reference twice and wherever they disagree on the pair.

* `Assembler.sum_couplings`: the sum over the couplings of a pair, as a sum over elements and slots.
* `Assembler.get?_eq_sum`: the values of an assembled matrix.
-/

namespace FemAssembly

namespace Assembler

open Finset

variable {α : Type}

/-- The couplings of `row` and `column`, among all elements and pairs of slots. -/
theorem toFinset_couplings (a : Assembler α) (row column : Nat) :
    (a.couplings row column).toFinset =
      (range a.restriction.numElements ×ˢ range a.restriction.slots ×ˢ
        range a.restriction.slots).filter fun x => a.Couples x.1 x.2.1 x.2.2 row column := by
  ext ⟨e, i, j⟩
  simp only [List.mem_toFinset, mem_couplings, mem_filter, mem_product, mem_range]
  constructor
  · intro h
    exact ⟨⟨h.1.1, h.1.2.1, h.2.1.2.1⟩, h⟩
  · exact fun h => h.2

variable [Ring α]

theorem sum_couplings (a : Assembler α) (row column : Nat) :
    a.sum (a.couplings row column) =
      ∑ e ∈ range a.restriction.numElements, ∑ i ∈ range a.restriction.slots,
        ∑ j ∈ range a.restriction.slots,
          if a.Couples e i j row column then a.contribution e i j else 0 := by
  calc a.sum (a.couplings row column)
      = ((a.couplings row column).map fun x => a.contribution x.1 x.2.1 x.2.2).sum :=
        List.sum_eq_foldl.symm
    _ = ∑ x ∈ (a.couplings row column).toFinset, a.contribution x.1 x.2.1 x.2.2 :=
        (List.sum_toFinset _ (nodup_couplings row column)).symm
    _ = _ := by
        rw [toFinset_couplings, sum_filter, sum_product]
        exact sum_congr rfl fun e _ => sum_product _ _ _

/-- A pair of `row` and `column` that an assembled matrix `A` stores is named by an element and
stored once. Its `value` is the sum of what all elements have to say about it, through all pairs of
their slots. -/
theorem get?_eq_sum (a : Assembler α) {A : SparseMatrix α}
    (hA : a.assembleWithoutEssential.result = .ok A) {row column : Nat} {value : α}
    (hget : A.get? row column = some value) :
    (∃ e, a.Asserts e row column) ∧ (SparseRow.columns (A.row row)).count column = 1 ∧
      value = ∑ e ∈ range a.restriction.numElements, ∑ i ∈ range a.restriction.slots,
        ∑ j ∈ range a.restriction.slots,
          if a.Couples e i j row column then a.contribution e i j else 0 := by
  have h := assembled_of_result_eq_ok hA
  refine ⟨h.exists_asserts hget, ?_, ?_⟩
  · have hmem : column ∈ SparseRow.columns (A.row row) :=
      SparseRow.isSome_get?_iff.mp (Option.isSome_iff_exists.mpr ⟨value, hget⟩)
    exact List.count_eq_one_of_mem (A.sorted_row row).nodup hmem
  · rw [← sum_couplings]
    exact h.value_eq_sum zero_add hget

/-- Two elements with the DOFs `2 0 1` and `0 0 1`, the middle one of the second element reversed.
The template lists the last slot in the rows of the other two. -/
def overlapping : Assembler Int where
  kind := .h1
  restriction := {
    numDofs := 3
    slots := 3
    gather := #[.positive 2, .positive 0, .positive 1, .positive 0, .reversed 0, .positive 1]
    incident := incidenceTable 3
      #[.positive 2, .positive 0, .positive 1, .positive 0, .reversed 0, .positive 1]
    slots_dvd := by decide
    index_lt := by decide
    size_lt := by decide
    incident_eq := rfl }
  template := {
    slots := 3
    width := 1
    mapping := #[some 2, some 2, none]
    size_eq := rfl
    column_lt := by simp
    nodup := by decide }
  values := {
    width := 1, slots := 3, numElements := 2
    data := #[11, 2, 0, 30, 7, 0]
    size_eq := rfl }
  options := {}
  degree_le := rfl
  template_slots := rfl
  values_slots := rfl
  values_width := rfl
  values_elements := rfl

/-- The pair `(0, 1)` of `overlapping` takes three values: one of the first element, and two of the
second one, of which the reversed slot gives the second with the other sign. -/
theorem get?_eq_sum_overlapping :
    ∃ A, overlapping.assembleWithoutEssential.result = .ok A ∧
      overlapping.couplings 0 1 = [(0, 1, 2), (1, 0, 2), (1, 1, 2)] ∧
      A.get? 0 1 = some (2 + 30 - 7) := by
  obtain ⟨A, hA⟩ := exists_result_eq_ok (a := overlapping) (by decide +kernel) (by decide +kernel)
  have hcouplings : overlapping.couplings 0 1 = [(0, 1, 2), (1, 0, 2), (1, 1, 2)] := by
    decide +kernel
  have hstored : (A.get? 0 1).isSome :=
    (assembled_of_result_eq_ok hA).isSome_get?_of_isFirstCommon (e := 0) (by decide +kernel)
      (by decide +kernel)
  obtain ⟨value, hget⟩ := Option.isSome_iff_exists.mp hstored
  obtain ⟨-, -, hvalue⟩ := get?_eq_sum overlapping hA hget
  rw [← sum_couplings, hcouplings] at hvalue
  have hsum : overlapping.sum [(0, 1, 2), (1, 0, 2), (1, 1, 2)] = 2 + 30 - 7 := by decide +kernel
  exact ⟨A, hA, hcouplings, hget.trans (congrArg some (hvalue.trans hsum))⟩

end Assembler

end FemAssembly
