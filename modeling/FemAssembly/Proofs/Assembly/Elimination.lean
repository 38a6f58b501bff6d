import FemAssembly.Proofs.Assembly.Dirichlet
import FemAssembly.Proofs.Sparse.Triplets

/-!
# Elimination from a square matrix

Serial elimination of a list of degrees of freedom (DOFs) in one formula: of an entry off the
diagonal it is known from the list and from the stored positions whether it is cleared. All else
follows from the formula. The list counts as a set, and DOFs may be eliminated together or one part
after the other.

* `SparseMatrix.SamePattern`: two matrices store the same positions.
* `SparseMatrix.result_eliminateKeepDiagonal`: success, or the DOF that is refused.
* `SparseMatrix.get?_eliminateKeepDiagonal`: the formula.
* `SparseMatrix.eliminateKeepDiagonal_exact`: outcomes, entries, and what follows for the list.
-/

namespace FemAssembly

namespace SparseMatrix

variable {α : Type} {M N : SparseMatrix α}

/-! ## Stored positions -/

/-- The matrices `M` and `N` have the same compressed storage, apart from the values. -/
structure SamePattern (M N : SparseMatrix α) : Prop where
  ncols_eq : M.ncols = N.ncols
  offsets_eq : M.offsets = N.offsets
  columns_eq : M.columns = N.columns

/-- A row is known by its columns, so matrices `M` and `N` of one shape that store the same
positions have the same storage. -/
theorem SameShape.samePattern (hshape : SameShape M N)
    (h : ∀ i j, (M.get? i j).isSome = (N.get? i j).isSome) : SamePattern M N := by
  have hrow : ∀ i, (M.row i).columns = (N.row i).columns := by
    intro i
    refine List.Pairwise.eq_of_mem_iff (M.sorted_row i) (N.sorted_row i) fun j => ?_
    rw [← SparseRow.isSome_get?_iff, ← SparseRow.isSome_get?_iff]
    exact Bool.eq_iff_iff.mp (h i j)
  have hlength : ∀ i, (M.row i).length = (N.row i).length := by
    intro i
    have := congrArg List.length (hrow i)
    simpa [SparseRow.columns] using this
  refine ⟨hshape.2, ?_, ?_⟩
  · unfold offsets
    rw [toList_rows, toList_rows, hshape.1, List.map_map, List.map_map]
    congr 2
    funext i
    exact hlength i
  · unfold columns
    rw [toList_rows, toList_rows, hshape.1, List.map_map, List.map_map]
    congr 2
    funext i
    exact hrow i

/-! ## Elimination -/

variable [Zero α]

/-- One of `dofs` past the last row of `M` is refused, before anything is changed. -/
theorem eliminateKeepDiagonal_of_not_lt {dofs : List Nat} (h : ∃ dof ∈ dofs, M.nrows ≤ dof) :
    ∃ dof ∈ dofs, M.nrows ≤ dof ∧ M.eliminateKeepDiagonal dofs =
      (M, Noted.fail (.inconsistent (.essentialDof dof M.nrows))) := by
  cases hfind : dofs.find? (M.nrows ≤ ·) with
  | none =>
    obtain ⟨dof, hmem, hdof⟩ := h
    have := List.find?_eq_none.mp hfind dof hmem
    simp only [decide_eq_true_eq] at this
    omega
  | some dof =>
    refine ⟨dof, List.mem_of_find?_eq_some hfind, by simpa using List.find?_some hfind, ?_⟩
    unfold eliminateKeepDiagonal
    rw [hfind]

/-- With all rows there, elimination succeeds exactly if none of `dofs` is past the last row, and a
failure leaves `M` as it was. -/
theorem result_eliminateKeepDiagonal (hsquare : M.ncols = M.nrows) (dofs : List Nat) :
    ((M.eliminateKeepDiagonal dofs).2.result = .ok () ∧ ∀ dof ∈ dofs, dof < M.nrows) ∨
      ∃ dof ∈ dofs, M.nrows ≤ dof ∧ M.eliminateKeepDiagonal dofs =
        (M, Noted.fail (.inconsistent (.essentialDof dof M.nrows))) := by
  by_cases h : ∀ dof ∈ dofs, dof < M.nrows
  · refine .inl ⟨?_, h⟩
    rw [eliminateKeepDiagonal_eq (Nat.le_of_eq hsquare) h]
    rfl
  · push Not at h
    exact .inr (eliminateKeepDiagonal_of_not_lt h)

theorem lt_of_eliminateKeepDiagonal_eq_ok (hsquare : M.ncols = M.nrows) {dofs : List Nat}
    (hok : (M.eliminateKeepDiagonal dofs).2.result = .ok ()) : ∀ dof ∈ dofs, dof < M.nrows := by
  rcases result_eliminateKeepDiagonal hsquare dofs with ⟨-, h⟩ | ⟨_, -, -, heq⟩
  · exact h
  · rw [heq] at hok
    cases hok

theorem eliminateKeepDiagonal_of_error (hsquare : M.ncols = M.nrows) {dofs : List Nat}
    {error : Error} (herror : (M.eliminateKeepDiagonal dofs).2.result = .error error) :
    ∃ dof ∈ dofs, M.nrows ≤ dof ∧ error = .inconsistent (.essentialDof dof M.nrows) ∧
      (M.eliminateKeepDiagonal dofs).1 = M := by
  rcases result_eliminateKeepDiagonal hsquare dofs with ⟨hok, -⟩ | ⟨dof, hmem, hdof, heq⟩
  · rw [hok] at herror
    cases herror
  · rw [heq] at herror ⊢
    cases herror
    exact ⟨dof, hmem, hdof, rfl, rfl⟩

/-- What elimination of `dofs` makes of position `(i, j)` of a square matrix `M`. -/
theorem get?_eliminateKeepDiagonal (hsquare : M.ncols = M.nrows) {dofs : List Nat}
    (h : ∀ dof ∈ dofs, dof < M.nrows) (i j : Nat) :
    (M.eliminateKeepDiagonal dofs).1.get? i j = (M.get? i j).map fun value =>
      if i ≠ j ∧ (i ∈ dofs ∨ j ∈ dofs ∧ (M.get? j i).isSome) then 0 else value := by
  rw [eliminateKeepDiagonal_eq (Nat.le_of_eq hsquare) h, get?_foldl_decoupleRow]
  congr 1
  funext value
  unfold eliminated
  by_cases hdiagonal : i = j
  · simp [hdiagonal]
  · simp [hdiagonal]

theorem sameShape_eliminateKeepDiagonal (hsquare : M.ncols = M.nrows) (dofs : List Nat) :
    SameShape (M.eliminateKeepDiagonal dofs).1 M := by
  rcases result_eliminateKeepDiagonal hsquare dofs with ⟨-, h⟩ | ⟨_, -, -, h⟩
  · rw [eliminateKeepDiagonal_eq (Nat.le_of_eq hsquare) h]
    exact sameShape_foldl_decoupleRow dofs M
  · rw [h]
    exact .refl M

/-- Elimination keeps the stored positions `(i, j)` of `M`, so a second one clears what it would
clear without the first. -/
theorem isSome_get?_eliminateKeepDiagonal (hsquare : M.ncols = M.nrows) {dofs : List Nat}
    (h : ∀ dof ∈ dofs, dof < M.nrows) (i j : Nat) :
    ((M.eliminateKeepDiagonal dofs).1.get? i j).isSome = (M.get? i j).isSome := by
  rw [get?_eliminateKeepDiagonal hsquare h, Option.isSome_map]

/-- DOFs may be eliminated one part after the other: `dofs`, and then `dofs'`. -/
theorem eliminateKeepDiagonal_append (hsquare : M.ncols = M.nrows) {dofs dofs' : List Nat}
    (h : ∀ dof ∈ dofs, dof < M.nrows) (h' : ∀ dof ∈ dofs', dof < M.nrows) :
    ((M.eliminateKeepDiagonal dofs).1.eliminateKeepDiagonal dofs').1 =
      (M.eliminateKeepDiagonal (dofs ++ dofs')).1 := by
  have hshape := sameShape_eliminateKeepDiagonal hsquare dofs
  have hsquare' : (M.eliminateKeepDiagonal dofs).1.ncols = (M.eliminateKeepDiagonal dofs).1.nrows :=
    hshape.2.trans (hsquare.trans hshape.1.symm)
  have hboth : ∀ dof ∈ dofs ++ dofs', dof < M.nrows := fun dof hdof =>
    (List.mem_append.mp hdof).elim (h dof) (h' dof)
  have hfirst := sameShape_eliminateKeepDiagonal hsquare' dofs'
  have hall := sameShape_eliminateKeepDiagonal hsquare (dofs ++ dofs')
  refine ext_get? ((hfirst.trans hshape).1.trans hall.1.symm)
    ((hfirst.trans hshape).2.trans hall.2.symm) fun i j => ?_
  rw [get?_eliminateKeepDiagonal hsquare' (by rwa [hshape.1]),
    isSome_get?_eliminateKeepDiagonal hsquare h, get?_eliminateKeepDiagonal hsquare h,
    get?_eliminateKeepDiagonal hsquare hboth, Option.map_map]
  congr 1
  funext value
  simp only [Function.comp, List.mem_append]
  grind

/-- The list of DOFs counts as a set: `dofs` and `dofs'` with the same members make the same matrix.
-/
theorem eliminateKeepDiagonal_congr (hsquare : M.ncols = M.nrows) {dofs dofs' : List Nat}
    (h : ∀ dof, dof ∈ dofs ↔ dof ∈ dofs') :
    (M.eliminateKeepDiagonal dofs).1 = (M.eliminateKeepDiagonal dofs').1 := by
  have hshape := sameShape_eliminateKeepDiagonal hsquare dofs
  have hshape' := sameShape_eliminateKeepDiagonal hsquare dofs'
  rcases result_eliminateKeepDiagonal hsquare dofs with ⟨-, hlt⟩ | ⟨dof, hmem, hdof, heq⟩
  · have hlt' : ∀ dof ∈ dofs', dof < M.nrows := fun dof hdof => hlt dof ((h dof).mpr hdof)
    refine ext_get? (hshape.1.trans hshape'.1.symm) (hshape.2.trans hshape'.2.symm) fun i j => ?_
    rw [get?_eliminateKeepDiagonal hsquare hlt, get?_eliminateKeepDiagonal hsquare hlt']
    simp only [h]
  · obtain ⟨_, -, -, heq'⟩ :=
      eliminateKeepDiagonal_of_not_lt ⟨dof, (h dof).mp hmem, hdof⟩
    rw [heq, heq']

/-- A second elimination of `dofs` has the outcome of the first one, and changes nothing. -/
theorem eliminateKeepDiagonal_again (hsquare : M.ncols = M.nrows) (dofs : List Nat) :
    (M.eliminateKeepDiagonal dofs).1.eliminateKeepDiagonal dofs = M.eliminateKeepDiagonal dofs := by
  rcases result_eliminateKeepDiagonal hsquare dofs with ⟨-, h⟩ | ⟨_, -, -, heq⟩
  · have hshape := sameShape_eliminateKeepDiagonal hsquare dofs
    have htwice : ∀ dof, dof ∈ dofs ++ dofs ↔ dof ∈ dofs := by simp
    have hmatrix := (eliminateKeepDiagonal_append hsquare h h).trans
      (eliminateKeepDiagonal_congr hsquare htwice)
    refine Prod.ext hmatrix ?_
    rw [eliminateKeepDiagonal_eq (M := (M.eliminateKeepDiagonal dofs).1)
      (by rw [hshape.1, hshape.2, hsquare]) (by rwa [hshape.1]),
      eliminateKeepDiagonal_eq (Nat.le_of_eq hsquare) h]
  · rw [heq]
    exact heq

/-- Elimination of `dofs` from a square matrix `M` fails exactly if some DOF is past the last row;
then the error names such a DOF, and the matrix is as before. Otherwise the compressed storage
stays, apart from the values: an entry at `(i, j)` off the diagonal is zero if `i` is eliminated, or
if `j` is and `(j, i)` is stored, and every other entry keeps its value. So neither the order of
`dofs` nor repetitions in it matter, a second elimination changes nothing, and a list may be split.
-/
theorem eliminateKeepDiagonal_exact (M : SparseMatrix α) (hsquare : M.ncols = M.nrows) :
    (∀ dofs, (∃ error, (M.eliminateKeepDiagonal dofs).2.result = .error error) ↔
      ∃ dof ∈ dofs, M.nrows ≤ dof) ∧
    (∀ dofs error, (M.eliminateKeepDiagonal dofs).2.result = .error error →
      (M.eliminateKeepDiagonal dofs).1 = M ∧
      ∃ dof ∈ dofs, M.nrows ≤ dof ∧ error = .inconsistent (.essentialDof dof M.nrows)) ∧
    (∀ dofs, (M.eliminateKeepDiagonal dofs).2.result = .ok () →
      SamePattern (M.eliminateKeepDiagonal dofs).1 M ∧
      ∀ i j, (M.eliminateKeepDiagonal dofs).1.get? i j = (M.get? i j).map fun value =>
        if i ≠ j ∧ (i ∈ dofs ∨ j ∈ dofs ∧ (M.get? j i).isSome) then 0 else value) ∧
    (∀ dofs dofs', (∀ dof, dof ∈ dofs ↔ dof ∈ dofs') →
      (M.eliminateKeepDiagonal dofs).1 = (M.eliminateKeepDiagonal dofs').1) ∧
    (∀ dofs, (M.eliminateKeepDiagonal dofs).1.eliminateKeepDiagonal dofs =
      M.eliminateKeepDiagonal dofs) ∧
    ∀ dofs dofs', (M.eliminateKeepDiagonal (dofs ++ dofs')).2.result = .ok () →
      ((M.eliminateKeepDiagonal dofs).1.eliminateKeepDiagonal dofs').1 =
        (M.eliminateKeepDiagonal (dofs ++ dofs')).1 := by
  refine ⟨fun dofs => ?_, fun dofs error herror => ?_, fun dofs hok => ?_,
    fun dofs dofs' h => eliminateKeepDiagonal_congr hsquare h,
    fun dofs => eliminateKeepDiagonal_again hsquare dofs, fun dofs dofs' hok => ?_⟩
  · constructor
    · rintro ⟨error, herror⟩
      obtain ⟨dof, hmem, hdof, -⟩ := eliminateKeepDiagonal_of_error hsquare herror
      exact ⟨dof, hmem, hdof⟩
    · intro h
      obtain ⟨dof, -, -, heq⟩ := eliminateKeepDiagonal_of_not_lt h
      exact ⟨_, by rw [heq]; rfl⟩
  · obtain ⟨dof, hmem, hdof, rfl, hmatrix⟩ := eliminateKeepDiagonal_of_error hsquare herror
    exact ⟨hmatrix, dof, hmem, hdof, rfl⟩
  · have h := lt_of_eliminateKeepDiagonal_eq_ok hsquare hok
    exact ⟨(sameShape_eliminateKeepDiagonal hsquare dofs).samePattern
      (isSome_get?_eliminateKeepDiagonal hsquare h), get?_eliminateKeepDiagonal hsquare h⟩
  · have h := lt_of_eliminateKeepDiagonal_eq_ok hsquare hok
    exact eliminateKeepDiagonal_append hsquare (fun dof hdof => h dof (by simp [hdof]))
      fun dof hdof => h dof (by simp [hdof])

/-- A matrix with NaNs that stores `(0, 2)` and `(1, 2)` without their transposes, and neither of
the first two diagonal entries. -/
def halfCoupled : SparseMatrix Binary64 where
  ncols := 3
  rows := #[[(1, ⟨0x7FF8000000000001⟩), (2, ⟨0x4000000000000000⟩)],
    [(0, ⟨0x4008000000000000⟩), (2, ⟨0x7FF8000000000001⟩)], [(2, ⟨0x4010000000000000⟩)]]
  sorted := by decide
  below := by decide

/-- The DOFs `0` and `2` reference each other in one direction. The NaN in the column of `2` stays,
because `(2, 1)` is not stored. A DOF past the last row leaves everything as it was. -/
theorem eliminateKeepDiagonal_exact_halfCoupled :
    halfCoupled.ncols = halfCoupled.nrows ∧
    (halfCoupled.eliminateKeepDiagonal [2, 0, 2]).1.get? 0 1 = some 0 ∧
    (halfCoupled.eliminateKeepDiagonal [2, 0, 2]).1.get? 0 2 = some 0 ∧
    (halfCoupled.eliminateKeepDiagonal [2, 0, 2]).1.get? 1 0 = some 0 ∧
    (halfCoupled.eliminateKeepDiagonal [2, 0, 2]).1.get? 1 2 = some ⟨0x7FF8000000000001⟩ ∧
    (halfCoupled.eliminateKeepDiagonal [2, 0, 2]).1.get? 2 2 = some ⟨0x4010000000000000⟩ ∧
    (halfCoupled.eliminateKeepDiagonal [2, 0, 2]).1 =
      ((halfCoupled.eliminateKeepDiagonal [2]).1.eliminateKeepDiagonal [0]).1 ∧
    (halfCoupled.eliminateKeepDiagonal [0, 3]).1 = halfCoupled := by
  obtain ⟨hfails, hkeeps, hentries, hset, -, hsplit⟩ := eliminateKeepDiagonal_exact halfCoupled rfl
  obtain ⟨-, hget⟩ := hentries [2, 0, 2] rfl
  obtain ⟨error, herror⟩ := (hfails [0, 3]).mpr ⟨3, by decide, by decide⟩
  refine ⟨rfl, (hget 0 1).trans rfl, (hget 0 2).trans rfl, (hget 1 0).trans rfl,
    (hget 1 2).trans rfl, (hget 2 2).trans rfl, ?_, (hkeeps _ _ herror).1⟩
  exact (hset [2, 0, 2] [2, 0] (by simp; omega)).trans (hsplit [2] [0] rfl).symm

end SparseMatrix

end FemAssembly
