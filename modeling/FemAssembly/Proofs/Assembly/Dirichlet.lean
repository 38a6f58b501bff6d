import FemAssembly.Assembly.Assembler
import FemAssembly.Proofs.Sparse.Sums

/-!
# Elimination of essential degrees of freedom

Elimination changes values and never the pattern. Of a stored entry it is known from its position
what becomes of it.

* `eliminated`: what elimination makes of a value.
* `SparseMatrix.get?_decoupleRow`: one degree of freedom (DOF).
* `SparseMatrix.get?_foldl_eliminate`, `SparseMatrix.get?_foldl_decoupleRow`: a list of them.
* `SparseMatrix.eliminateKeepDiagonal_eq`, `Assembler.result_assemble`: serial elimination.
* `SparseMatrix.unitDiagonal`: ones on the diagonal.
-/

namespace FemAssembly

/-- What elimination makes of `value` at `(r, c)`, where `onDiagonal` is what it makes of an
essential diagonal, and `mirrored` says whether the transposed position is cleared with the
coupling. -/
def eliminated {α : Type} [Zero α] (onDiagonal : α → α) (essential : Nat → Bool) (mirrored : Bool)
    (r c : Nat) (value : α) : α :=
  if r = c then if essential r then onDiagonal value else value
  else if essential r || (essential c && mirrored) then 0 else value

namespace SparseMatrix

variable {α : Type} [Zero α] {M : SparseMatrix α}

theorem get?_decouple (dof : Nat) (M : SparseMatrix α) (column r c : Nat) :
    (decouple dof M column).get? r c = (M.get? r c).map fun value =>
      if r ≠ c ∧ ((r = dof ∧ c = column) ∨ (c = dof ∧ r = column)) then 0 else value := by
  unfold decouple
  split
  · subst_vars
    cases M.get? r c with
    | none => rfl
    | some value =>
      have hnot : ¬ (r ≠ c ∧ ((r = column ∧ c = column) ∨ (c = column ∧ r = column))) := by omega
      simp only [Option.map_some, if_neg hnot]
  · rw [get?_replace, get?_replace]
    cases M.get? r c with
    | none => simp
    | some value =>
      by_cases h : column = r ∧ c = dof <;> by_cases h' : dof = r ∧ c = column
      all_goals grind

theorem get?_foldl_decouple (dof : Nat) (columns : List Nat) (M : SparseMatrix α) (r c : Nat) :
    (columns.foldl (decouple dof) M).get? r c = (M.get? r c).map fun value =>
      if r ≠ c ∧ ((r = dof ∧ c ∈ columns) ∨ (c = dof ∧ r ∈ columns)) then 0 else value := by
  induction columns generalizing M with
  | nil => simp
  | cons column columns ih =>
    rw [List.foldl_cons, ih, get?_decouple, Option.map_map]
    congr 1
    funext value
    simp only [Function.comp, List.mem_cons]
    grind

/-- Clearing the couplings of `dof` clears its row, and its column where the transposed entry is
stored. -/
theorem get?_decoupleRow (M : SparseMatrix α) (dof r c : Nat) :
    (M.decoupleRow dof).get? r c = (M.get? r c).map fun value =>
      if r ≠ c ∧ (r = dof ∨ (c = dof ∧ (M.get? dof r).isSome)) then 0 else value := by
  have hmem : ∀ j, j ∈ (M.row dof).columns ↔ (M.get? dof j).isSome := fun j =>
    (SparseRow.isSome_get?_iff).symm
  rw [decoupleRow, get?_foldl_decouple]
  cases hget : M.get? r c with
  | none => rfl
  | some value =>
    have hrow : r = dof → c ∈ (M.row dof).columns := by
      rintro rfl
      rw [hmem, hget]
      rfl
    simp only [Option.map_some, hmem] at hrow ⊢
    grind

/-- Where the step `f` eliminates one DOF, a fold of it eliminates the list `dofs` of them. -/
theorem get?_foldl_eliminate {f : SparseMatrix α → Nat → SparseMatrix α} (onDiagonal : α → α)
    (hdiagonal : ∀ value, onDiagonal (onDiagonal value) = onDiagonal value)
    (hf : ∀ M dof r c, (f M dof).get? r c =
      (M.get? r c).map (eliminated onDiagonal (· == dof) (M.get? c r).isSome r c))
    (dofs : List Nat) (M : SparseMatrix α) (r c : Nat) :
    (dofs.foldl f M).get? r c =
      (M.get? r c).map (eliminated onDiagonal dofs.contains (M.get? c r).isSome r c) := by
  induction dofs generalizing M with
  | nil => cases hget : M.get? r c <;> simp [eliminated, hget]
  | cons dof dofs ih =>
    have hmirrored : ((f M dof).get? c r).isSome = (M.get? c r).isSome := by
      rw [hf, Option.isSome_map]
    rw [List.foldl_cons, ih, hmirrored, hf, Option.map_map]
    congr 1
    funext value
    simp only [Function.comp, eliminated, List.contains_cons]
    grind

theorem sameShape_foldl_decoupleRow (dofs : List Nat) (M : SparseMatrix α) :
    SameShape (dofs.foldl decoupleRow M) M :=
  sameShape_foldl (fun M dof => sameShape_foldl_decouple dof _ M) dofs M

/-- The couplings of all of `dofs` are cleared. -/
theorem get?_foldl_decoupleRow (dofs : List Nat) (M : SparseMatrix α) (r c : Nat) :
    (dofs.foldl decoupleRow M).get? r c =
      (M.get? r c).map (eliminated id dofs.contains (M.get? c r).isSome r c) := by
  refine get?_foldl_eliminate id (fun _ => rfl) (fun M dof r c => ?_) dofs M r c
  rw [get?_decoupleRow]
  congr 1
  funext value
  simp only [eliminated]
  grind

/-- In a matrix `M` without more columns than rows, the row of every column is there. -/
theorem eliminateDofs_eq {dofs : List Nat} (hcols : M.ncols ≤ M.nrows) :
    M.eliminateDofs dofs = (dofs.foldl decoupleRow M, .ok ()) := by
  induction dofs generalizing M with
  | nil => rfl
  | cons dof dofs ih =>
    have hinside : ∀ c ∈ (M.row dof).columns, decide (c < M.nrows) = true := fun c hc =>
      decide_eq_true (Nat.lt_of_lt_of_le (M.below_row dof c hc) hcols)
    have hspan : (M.row dof).columns.span (· < M.nrows) = ((M.row dof).columns, []) := by
      rw [List.span_eq_takeWhile_dropWhile, List.takeWhile_eq_self_iff.mpr hinside,
        List.dropWhile_eq_nil_iff.mpr hinside]
    have hdof : M.eliminateDof dof = (M.decoupleRow dof, .ok ()) := by
      rw [eliminateDof, hspan]
      simp [decoupleRow]
    have hshape := sameShape_foldl_decouple dof (M.row dof).columns M
    rw [eliminateDofs, hdof]
    exact ih (by rw [decoupleRow, hshape.1, hshape.2]; exact hcols)

/-- Serial elimination of `dofs` that are rows of `M`. -/
theorem eliminateKeepDiagonal_eq {dofs : List Nat} (hcols : M.ncols ≤ M.nrows)
    (hdofs : ∀ dof ∈ dofs, dof < M.nrows) :
    M.eliminateKeepDiagonal dofs =
      (dofs.foldl decoupleRow M, Noted.note (.eliminated dofs.length)) := by
  have hfind : dofs.find? (M.nrows ≤ ·) = none := by
    rw [List.find?_eq_none]
    exact fun dof hdof => by simpa using hdofs dof hdof
  simp only [eliminateKeepDiagonal, hfind, eliminateDofs_eq hcols]

/-! ## Ones on the diagonal -/

/-- The diagonal of `M` set to one at `dofs`, where it is stored. -/
def unitDiagonal [One α] (M : SparseMatrix α) (dofs : List Nat) : SparseMatrix α :=
  dofs.foldl (fun M dof => M.replace dof dof 1) M

omit [Zero α] in
theorem nrows_unitDiagonal [One α] (M : SparseMatrix α) (dofs : List Nat) :
    (M.unitDiagonal dofs).nrows = M.nrows :=
  (sameShape_foldl (fun _ _ => sameShape_mapRow ..) dofs M).1

omit [Zero α] in
theorem get?_unitDiagonal [One α] (M : SparseMatrix α) (dofs : List Nat) (r c : Nat) :
    (M.unitDiagonal dofs).get? r c =
      (M.get? r c).map fun value => if r = c ∧ r ∈ dofs then 1 else value := by
  rw [unitDiagonal]
  induction dofs generalizing M with
  | nil => simp
  | cons dof dofs ih =>
    rw [List.foldl_cons, ih, get?_replace]
    cases M.get? r c with
    | none => simp
    | some value =>
      simp only [List.mem_cons]
      grind

end SparseMatrix

/-! ## Serial assembly -/

/-- Assembly of `a` with essential `dofs` is assembly without any and then elimination. -/
theorem Assembler.result_assemble {α : Type} [Zero α] [One α] [Neg α] [Add α] [Mul α]
    {a : Assembler α} {A : SparseMatrix α} (hA : a.assembleWithoutEssential.result = .ok A)
    (hcols : A.ncols ≤ A.nrows) {dofs : List Nat} (hdofs : ∀ dof ∈ dofs, dof < A.nrows) :
    (a.assemble dofs).result = .ok (dofs.foldl SparseMatrix.decoupleRow A) := by
  rw [assemble, Noted.result_bind, hA]
  cases dofs with
  | nil => rfl
  | cons dof dofs =>
    simp only [bind, Except.bind, List.isEmpty_cons, Bool.false_eq_true, if_false,
      SparseMatrix.eliminateKeepDiagonal_eq hcols hdofs]
    rfl

end FemAssembly
