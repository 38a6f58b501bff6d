import FemAssembly.Proofs.Sparse.Sums
import FemAssembly.Sequence.Offsets
import Mathlib

/-!
# Compressed storage

A sparse matrix is stored as three lists: where each row starts, the columns, and the values, one
row after the other. Two matrices have equal storage exactly if their rows are equal one by one.

* `eq_of_offsets_eq`: where the rows start says how long they are.
* `forall₂_flatten_iff`: a relation between lists put together from pieces of equal lengths.
* `SparseMatrix.StoresEqual`: the storage of two matrices is equal.
* `SparseMatrix.storesEqual_iff`: equal storage, row by row.
-/

namespace FemAssembly

/-! ## Lists put together from pieces -/

theorem head?_offsetsFrom (start : Nat) (counts : List Nat) :
    (offsetsFrom start counts).head? = some start := by
  cases counts <;> rfl

theorem eq_of_offsetsFrom_eq {start : Nat} {counts counts' : List Nat}
    (h : offsetsFrom start counts = offsetsFrom start counts') : counts = counts' := by
  induction counts generalizing start counts' with
  | nil =>
    cases counts' with
    | nil => rfl
    | cons count counts' => simpa [offsetsFrom] using congrArg List.length h
  | cons count counts ih =>
    cases counts' with
    | nil => simpa [offsetsFrom] using congrArg List.length h
    | cons count' counts' =>
      have hrest := List.tail_eq_of_cons_eq h
      have hhead := congrArg List.head? hrest
      rw [head?_offsetsFrom, head?_offsetsFrom, Option.some.injEq, Nat.add_left_cancel_iff] at hhead
      subst hhead
      rw [ih hrest]

/-- Where the pieces start says how long they are: equal `offsets` come from equal counts. -/
theorem eq_of_offsets_eq {counts counts' : List Nat} (h : offsets counts = offsets counts') :
    counts = counts' := eq_of_offsetsFrom_eq h

theorem forall₂_flatten_iff {α : Type} {R : α → α → Prop} {lists lists' : List (List α)}
    (h : lists.map List.length = lists'.map List.length) :
    List.Forall₂ R lists.flatten lists'.flatten ↔
      List.Forall₂ (List.Forall₂ R) lists lists' := by
  refine ⟨fun hflat => ?_, fun hpieces => List.rel_flatten hpieces⟩
  induction lists generalizing lists' with
  | nil =>
    obtain rfl : lists' = [] := by simpa using h.symm
    exact .nil
  | cons piece rest ih =>
    cases lists' with
    | nil => cases h
    | cons piece' rest' =>
      obtain ⟨hlength, hrest⟩ := List.cons_eq_cons.mp h
      rw [List.flatten_cons, List.flatten_cons] at hflat
      have hfirst := List.forall₂_take_append _ _ _ hflat
      have hlast := List.forall₂_drop_append _ _ _ hflat
      rw [← hlength, List.take_left] at hfirst
      rw [← hlength, List.drop_left] at hlast
      exact .cons hfirst (ih hrest hlast)

/-! ## Equal storage -/

namespace SparseMatrix

variable {α : Type} [BEq α] {P Q : SparseMatrix α}

/-- The matrices `P` and `Q` have the same dimensions and the same stored positions, and equal
values there. Values are compared as numbers, so that a NaN is equal to nothing. -/
structure StoresEqual (P Q : SparseMatrix α) : Prop where
  nrows_eq : P.nrows = Q.nrows
  ncols_eq : P.ncols = Q.ncols
  offsets_eq : P.offsets = Q.offsets
  columns_eq : P.columns = Q.columns
  values_eq : List.Forall₂ (fun a b => (a == b) = true) P.values Q.values

/-- The matrices `P` and `Q` have equal storage if their rows have the same columns with equal
values. -/
theorem storesEqual_iff : P.StoresEqual Q ↔ P.nrows = Q.nrows ∧ P.ncols = Q.ncols ∧
    ∀ i < P.nrows, (P.row i).columns = (Q.row i).columns ∧
      List.Forall₂ (fun a b => (a == b) = true) ((P.row i).map Prod.snd)
        ((Q.row i).map Prod.snd) := by
  constructor
  · intro h
    have hlengths : P.rows.toList.map List.length = Q.rows.toList.map List.length :=
      eq_of_offsets_eq h.offsets_eq
    have hcolumns := List.eq_iff_flatten_eq.mpr ⟨h.columns_eq, by
      simpa [SparseRow.columns, Function.comp_def] using hlengths⟩
    have hvalues := (forall₂_flatten_iff (by simpa [Function.comp_def] using hlengths)).mp
      h.values_eq
    simp only [toList_rows, ← h.nrows_eq, List.map_map] at hcolumns hvalues
    rw [List.forall₂_map_left_iff, List.forall₂_map_right_iff, List.forall₂_same] at hvalues
    exact ⟨h.nrows_eq, h.ncols_eq, fun i hi =>
      ⟨List.map_inj_left.mp hcolumns i (List.mem_range.mpr hi),
        hvalues i (List.mem_range.mpr hi)⟩⟩
  · rintro ⟨hnrows, hncols, hrows⟩
    have hcolumns : P.rows.toList.map SparseRow.columns = Q.rows.toList.map SparseRow.columns := by
      rw [toList_rows, toList_rows, ← hnrows, List.map_map, List.map_map]
      exact List.map_congr_left fun i hi => (hrows i (List.mem_range.mp hi)).1
    have hlengths : P.rows.toList.map List.length = Q.rows.toList.map List.length := by
      have := congrArg (List.map List.length) hcolumns
      simpa [SparseRow.columns, Function.comp_def] using this
    refine ⟨hnrows, hncols, ?_, ?_, ?_⟩
    · rw [offsets, hlengths, offsets]
    · rw [columns, hcolumns, columns]
    · refine List.rel_flatten ?_
      rw [toList_rows, toList_rows, ← hnrows, List.map_map, List.map_map,
        List.forall₂_map_left_iff, List.forall₂_map_right_iff, List.forall₂_same]
      exact fun i hi => (hrows i (List.mem_range.mp hi)).2

end SparseMatrix

end FemAssembly
