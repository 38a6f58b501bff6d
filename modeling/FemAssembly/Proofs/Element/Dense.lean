import FemAssembly.Element.Dense
import Mathlib

/-!
# Dense matrices as matrices

In exact arithmetic the sums and products over small ranges, the determinant and the inverse are the
usual ones.

* `sumFin_eq_sum`, `prodFin_eq_prod`, `alternatingSum_eq_sum`: the folds.
* `Dense.toMatrix`: the matrix of a dense one.
* `Dense.det_eq_det`, `Dense.inverse?_eq`: its determinant, and its inverse.
-/

namespace FemAssembly

open Finset

variable {α : Type}

theorem sumFin_eq_sum [AddCommMonoid α] (n : Nat) (f : Fin n → α) : sumFin n f = ∑ i, f i := by
  unfold sumFin
  induction n with
  | zero => rfl
  | succ n ih => rw [Fin.foldl_succ_last, ih, Fin.sum_univ_castSucc]

theorem prodFin_eq_prod [CommMonoid α] (n : Nat) (f : Fin n → α) : prodFin n f = ∏ i, f i := by
  unfold prodFin
  induction n with
  | zero => rfl
  | succ n ih => rw [Fin.foldl_succ_last, ih, Fin.prod_univ_castSucc]

theorem alternatingSum_eq_sum [Ring α] (n : Nat) (f : Fin n → α) :
    alternatingSum n f = ∑ i : Fin n, (-1) ^ (i : Nat) * f i := by
  unfold alternatingSum
  induction n with
  | zero => rfl
  | succ n ih =>
    rw [Fin.foldl_succ_last, Fin.sum_univ_castSucc]
    simp only [Fin.val_castSucc, Fin.val_last, ih fun i => f i.castSucc]
    rcases Nat.even_or_odd n with heven | hodd
    · rw [if_pos (Nat.even_iff.mp heven), heven.neg_one_pow, one_mul]
    · rw [if_neg (Nat.mod_two_ne_zero.mpr (Nat.odd_iff.mp hodd)), hodd.neg_one_pow, neg_one_mul,
        sub_eq_add_neg]

namespace Dense

variable {m n : Nat}

def toMatrix (A : Dense m n α) : Matrix (Fin m) (Fin n) α := .of fun i j => (A.get i).get j

@[simp] theorem toMatrix_ofFn (f : Fin m → Fin n → α) : (ofFn f).toMatrix = .of f := by
  ext i j
  exact getElem_ofFn f i j

theorem toMatrix_injective {A B : Dense m n α} (h : A.toMatrix = B.toMatrix) : A = B :=
  Vector.ext fun i hi => Vector.ext fun j hj => congrFun (congrFun h ⟨i, hi⟩) ⟨j, hj⟩

/-- Matrices added up one after the other, where `step` adds `f b`. -/
theorem toMatrix_foldl [AddCommMonoid α] {β : Type} {step : Dense m n α → β → Dense m n α}
    {f : β → Matrix (Fin m) (Fin n) α} (h : ∀ A b, (step A b).toMatrix = A.toMatrix + f b)
    (list : List β) (A : Dense m n α) :
    (list.foldl step A).toMatrix = A.toMatrix + (list.map f).sum := by
  induction list generalizing A with
  | nil => simp
  | cons b list ih => rw [List.foldl_cons, ih, h, List.map_cons, List.sum_cons, add_assoc]

theorem skip_eq_succAbove (i : Fin (n + 1)) : skip i.val = i.succAbove := by
  funext a
  rfl

theorem toMatrix_minor (A : Dense (n + 1) (n + 1) α) (i j : Fin (n + 1)) :
    (A.minor i j).toMatrix = A.toMatrix.submatrix i.succAbove j.succAbove := by
  rw [minor, toMatrix_ofFn, ← skip_eq_succAbove, ← skip_eq_succAbove]
  rfl

variable [CommRing α]

theorem det_eq_det (A : Dense n n α) : A.det = A.toMatrix.det := by
  induction n with
  | zero => rw [det, Matrix.det_fin_zero]
  | succ n ih =>
    rw [det, alternatingSum_eq_sum, Matrix.det_succ_row_zero]
    refine sum_congr rfl fun j _ => ?_
    rw [ih, toMatrix_minor, Fin.succAbove_zero, ← mul_assoc]
    rfl

/-- The cofactors of `A` are the entries of the adjugate. -/
theorem cofactor_eq_adjugate (A : Dense n n α) (i j : Fin n) :
    A.cofactor i j = A.toMatrix.adjugate i j := by
  cases n with
  | zero => exact i.elim0
  | succ n =>
    rw [cofactor, Matrix.adjugate_fin_succ_eq_det_submatrix, ← toMatrix_minor, ← det_eq_det,
      Nat.add_comm]
    rcases Nat.even_or_odd (j.val + i.val) with heven | hodd
    · rw [if_pos (Nat.even_iff.mp heven), heven.neg_one_pow, one_mul]
    · rw [if_neg (Nat.mod_two_ne_zero.mpr (Nat.odd_iff.mp hodd)), hodd.neg_one_pow, neg_one_mul]

end Dense

/-- The inverse of `A`, if its determinant is not zero. -/
theorem Dense.inverse?_eq {n : Nat} [Field α] [BEq α] [LawfulBEq α] [DecidableEq α]
    (A : Dense n n α) :
    A.inverse? = if A.toMatrix.det = 0 then none else some (ofFn fun i j => A.toMatrix⁻¹ i j) := by
  rw [inverse?, det_eq_det]
  by_cases hdet : A.toMatrix.det = 0
  · rw [if_pos hdet, if_pos (beq_iff_eq.mpr hdet)]
  · rw [if_neg hdet, if_neg (mt beq_iff_eq.mp hdet)]
    congr 2
    funext i j
    rw [Matrix.inv_def, Ring.inverse_eq_inv', Matrix.smul_apply, smul_eq_mul, cofactor_eq_adjugate,
      div_eq_inv_mul]

end FemAssembly
