import FemAssembly.Element.H1
import FemAssembly.Proofs.Element.Dense
import FemAssembly.Proofs.Grid.Sums
import FemAssembly.Proofs.Sequence.Results

/-!
# The matrix of a cell

In exact arithmetic, with any two points in each direction, the matrix of a cell is symmetric. The
shape functions add up to one, so that without mass every row adds up to zero, and the entries add
up to the mass coefficient times the volume of the cell, as the rule measures it. The inverse of the
Jacobian undoes the gradient of the coordinates, so that their energy is the diffusion coefficient
times that volume.

* `H1Kernel.sum_shape`, `H1Kernel.sum_mul_shapeDerivative`: the shape functions.
* `H1Kernel.jacobian`, `H1Kernel.gradients`, `H1Kernel.weight`: one integration point.
* `H1Kernel.entries`, `H1Kernel.cellMatrix_eq_ok_iff`: the matrix, which is made where no Jacobian
  is singular.
* `H1Kernel.transpose_entries`, `H1Kernel.entries_mulVec_one`, `H1Kernel.one_dotProduct_entries`,
  `H1Kernel.row_dotProduct_entries`: its symmetry, its sums and the energy of a coordinate.
* `H1Kernel.boxCorners`, `H1Kernel.cellVolume_boxCorners`: cells with edges along the axes, which
  have their usual volume.
-/

namespace FemAssembly

open Finset Matrix
open Grid (numCorners)

namespace H1Kernel

variable {α : Type} [Field α] {dim : Nat}

/-! ## Shape functions -/

/-- A sum over the corners `a` of products of one factor `f d` for each direction `d`. -/
theorem sum_corners (f : Fin dim → Bool → α) :
    ∑ a : Fin (numCorners dim), ∏ d : Fin dim, f d (a.val.testBit d) =
      ∏ d, (f d false + f d true) := by
  rw [← Grid.sum_prod_testBit, Finset.sum_range]

/-- The shape functions add up to one at `x`. -/
theorem sum_shape (x : Fin dim → α) : ∑ a : Fin (numCorners dim), shape x a = 1 := by
  simp only [shape, prodFin_eq_prod, factor]
  rw [sum_corners fun d upper => if upper then x d else 1 - x d]
  simp

/-- The derivative in direction `d` of a function that is linear in direction `i`, by its values
`lower` and `upper` at the corners. -/
theorem sum_mul_shapeDerivative (x : Fin dim → α) (i d : Fin dim) (lower upper : α) :
    ∑ a : Fin (numCorners dim), (if a.val.testBit i then upper else lower) * shapeDerivative x a d =
      if i = d then upper - lower else 0 := by
  -- the value at a corner is one more factor, in direction `i`
  obtain ⟨f, hf⟩ : ∃ f : Fin dim → Bool → α, f = fun e bit =>
    (if e = i then if bit then upper else lower else 1) *
      if e = d then if bit then 1 else -1 else if bit then x e else 1 - x e := ⟨_, rfl⟩
  have hterm : ∀ a : Fin (numCorners dim),
      (if a.val.testBit i then upper else lower) * shapeDerivative x a d =
        ∏ e : Fin dim, f e (a.val.testBit e) := fun a => by
    simp only [hf, shapeDerivative, prodFin_eq_prod, factor, prod_mul_distrib]
    rw [prod_ite_eq' univ i, if_pos (mem_univ i)]
  rw [sum_congr rfl fun a _ => hterm a, sum_corners]
  by_cases hid : i = d
  · have hfactor : ∀ e, f e false + f e true = if e = i then upper - lower else 1 := fun e => by
      by_cases he : e = i
      · simp [hf, he, hid, sub_eq_neg_add]
      · simp [hf, he, ← hid]
    rw [if_pos hid, prod_congr rfl fun e _ => hfactor e, prod_ite_eq' univ i, if_pos (mem_univ i)]
  · have hfactor : f d false + f d true = 0 := by
      simp [hf, Ne.symm hid]
    rw [if_neg hid, prod_eq_zero (mem_univ d) hfactor]

/-- The derivatives of the shape functions in direction `d` add up to zero. -/
theorem sum_shapeDerivative (x : Fin dim → α) (d : Fin dim) :
    ∑ a : Fin (numCorners dim), shapeDerivative x a d = 0 := by
  have hconstant := sum_mul_shapeDerivative x d d 1 1
  simpa using hconstant

/-! ## Integration points -/

/-- The values of all shape functions at `x`. -/
def shapes (x : Fin dim → α) (a : Fin (numCorners dim)) : α := shape x a

/-- The derivatives of all shape functions at `x`, on the reference cell. -/
def reference (x : Fin dim → α) : Matrix (Fin dim) (Fin (numCorners dim)) α :=
  .of fun d a => shapeDerivative x a d

/-- The derivatives of the coordinates at `x`. The corners are the columns of `X`. -/
def jacobian (X : Matrix (Fin dim) (Fin (numCorners dim)) α) (x : Fin dim → α) :
    Matrix (Fin dim) (Fin dim) α :=
  X * (reference x)ᵀ

/-- The gradients of all shape functions at `x`, on the cell with the corners `X`. -/
noncomputable def gradients (X : Matrix (Fin dim) (Fin (numCorners dim)) α) (x : Fin dim → α) :
    Matrix (Fin dim) (Fin (numCorners dim)) α :=
  (jacobian X x)⁻¹ᵀ * reference x

theorem reference_mulVec_one (x : Fin dim → α) : reference x *ᵥ 1 = 0 := by
  funext d
  rw [Matrix.mulVec, dotProduct_one]
  exact sum_shapeDerivative x d

theorem gradients_mulVec_one (X : Matrix (Fin dim) (Fin (numCorners dim)) α) (x : Fin dim → α) :
    gradients X x *ᵥ 1 = 0 := by
  rw [gradients, ← Matrix.mulVec_mulVec, reference_mulVec_one, Matrix.mulVec_zero]

/-- The gradients of the coordinates, where the Jacobian at `x` is regular. -/
theorem gradients_mul_transpose {X : Matrix (Fin dim) (Fin (numCorners dim)) α} {x : Fin dim → α}
    (hdet : (jacobian X x).det ≠ 0) : gradients X x * Xᵀ = 1 := by
  have hinverse : jacobian X x * (jacobian X x)⁻¹ = 1 :=
    Matrix.mul_nonsing_inv _ (isUnit_iff_ne_zero.mpr hdet)
  have hjacobian : reference x * Xᵀ = (jacobian X x)ᵀ := by
    rw [jacobian, Matrix.transpose_mul, Matrix.transpose_transpose]
  rw [gradients, Matrix.mul_assoc, hjacobian, ← Matrix.transpose_mul, hinverse,
    Matrix.transpose_one]

/-- The corners of the cell between `lower` and `upper`, with edges along the axes. -/
def boxCorners (lower upper : Fin dim → α) : Matrix (Fin dim) (Fin (numCorners dim)) α :=
  .of fun i a => if a.val.testBit i then upper i else lower i

theorem det_jacobian_boxCorners (lower upper x : Fin dim → α) :
    (jacobian (boxCorners lower upper) x).det = ∏ i, (upper i - lower i) := by
  have hdiagonal : jacobian (boxCorners lower upper) x =
      Matrix.diagonal fun i => upper i - lower i := by
    ext i d
    rw [jacobian, mul_apply, Matrix.diagonal_apply]
    exact sum_mul_shapeDerivative x i d (lower i) (upper i)
  rw [hdiagonal, det_diagonal]

variable [LinearOrder α]

/-- The share of the integration point `x` in the volume of the cell with the corners `X`. -/
def weight (X : Matrix (Fin dim) (Fin (numCorners dim)) α) (x : Fin dim → α) : α :=
  (1 / (1 + 1)) ^ dim * |(jacobian X x).det|

/-- The share of the integration point `x` in the matrix of the cell with the corners `X`. -/
noncomputable def pointEntries (k : H1Kernel α) (X : Matrix (Fin dim) (Fin (numCorners dim)) α)
    (x : Fin dim → α) : Matrix (Fin (numCorners dim)) (Fin (numCorners dim)) α :=
  (k.diffusion * weight X x) • ((gradients X x)ᵀ * gradients X x) +
    (k.mass * weight X x) • vecMulVec (shapes x) (shapes x)

section

variable (k : H1Kernel α) (X : Matrix (Fin dim) (Fin (numCorners dim)) α) (x : Fin dim → α)

theorem transpose_pointEntries : (k.pointEntries X x)ᵀ = k.pointEntries X x := by
  simp [pointEntries, Matrix.transpose_mul, Matrix.transpose_vecMulVec]

/-- The shares of `x`, added up row by row. The diffusion does not see constants. -/
theorem pointEntries_mulVec_one :
    k.pointEntries X x *ᵥ 1 = (k.mass * weight X x) • shapes x := by
  have hshapes : shapes x ⬝ᵥ 1 = 1 := by
    rw [dotProduct_one]
    exact sum_shape x
  rw [pointEntries, Matrix.add_mulVec, Matrix.smul_mulVec, Matrix.smul_mulVec,
    ← Matrix.mulVec_mulVec, gradients_mulVec_one, Matrix.mulVec_zero, smul_zero, zero_add,
    Matrix.vecMulVec_mulVec, hshapes]
  simp

/-- The energies of the coordinates, as far as `x` has a share in them. -/
theorem mul_pointEntries_mul (hdet : (jacobian X x).det ≠ 0) (hmass : k.mass = 0) :
    X * k.pointEntries X x * Xᵀ = (k.diffusion * weight X x) • 1 := by
  have hleft : X * (gradients X x)ᵀ = 1 := by
    rw [← Matrix.transpose_transpose X, ← Matrix.transpose_mul, Matrix.transpose_transpose,
      gradients_mul_transpose hdet, Matrix.transpose_one]
  rw [pointEntries, hmass, zero_mul, zero_smul, add_zero, Matrix.mul_smul, Matrix.smul_mul,
    ← Matrix.mul_assoc, hleft, Matrix.one_mul, gradients_mul_transpose hdet]

end

/-! ## Cells -/

/-- The volume of the cell with the corners `X`, as `rule` measures it. -/
def cellVolume (rule : TwoPoint α) (X : Matrix (Fin dim) (Fin (numCorners dim)) α) : α :=
  ∑ q ∈ range (numCorners dim), weight X (point rule q)

/-- No Jacobian of the cell with the corners `X` is singular at an integration point of `rule`. -/
def Regular (rule : TwoPoint α) (X : Matrix (Fin dim) (Fin (numCorners dim)) α) : Prop :=
  ∀ q < numCorners dim, (jacobian X (point rule q)).det ≠ 0

/-- The entries of the matrix of the cell with the corners `X`. -/
noncomputable def entries (k : H1Kernel α) (X : Matrix (Fin dim) (Fin (numCorners dim)) α) :
    Matrix (Fin (numCorners dim)) (Fin (numCorners dim)) α :=
  ∑ q ∈ range (numCorners dim), k.pointEntries X (point k.rule q)

section

variable (k : H1Kernel α) (X : Matrix (Fin dim) (Fin (numCorners dim)) α)

theorem transpose_entries : (k.entries X)ᵀ = k.entries X := by
  simp only [entries, transpose_sum, transpose_pointEntries]

theorem entries_mulVec_one (hmass : k.mass = 0) : k.entries X *ᵥ 1 = 0 := by
  simp only [entries, Matrix.sum_mulVec, pointEntries_mulVec_one, hmass, zero_mul, zero_smul,
    sum_const_zero]

/-- The entries of `k.entries X` add up to the mass of the cell. -/
theorem one_dotProduct_entries : 1 ⬝ᵥ (k.entries X *ᵥ 1) = k.mass * cellVolume k.rule X := by
  have hshapes : ∀ x : Fin dim → α, 1 ⬝ᵥ shapes x = 1 := fun x => by
    rw [one_dotProduct]
    exact sum_shape x
  simp only [entries, Matrix.sum_mulVec, pointEntries_mulVec_one, dotProduct_sum, dotProduct_smul,
    hshapes, smul_eq_mul, mul_one, cellVolume, mul_sum]

theorem mul_entries_mul (hregular : Regular k.rule X) (hmass : k.mass = 0) :
    X * k.entries X * Xᵀ = (k.diffusion * cellVolume k.rule X) • 1 := by
  rw [entries, Matrix.mul_sum, Matrix.sum_mul, cellVolume, mul_sum, sum_smul]
  exact sum_congr rfl fun q hq =>
    k.mul_pointEntries_mul X _ (hregular q (mem_range.mp hq)) hmass

/-- The energy of coordinate `d` on a regular cell, without mass. -/
theorem row_dotProduct_entries (hregular : Regular k.rule X) (hmass : k.mass = 0) (d : Fin dim) :
    X d ⬝ᵥ (k.entries X *ᵥ X d) = k.diffusion * cellVolume k.rule X := calc
  X d ⬝ᵥ (k.entries X *ᵥ X d) = (X * (k.entries X * Xᵀ)) d d := by
    rw [mul_apply']
    rfl
  _ = ((k.diffusion * cellVolume k.rule X) • (1 : Matrix (Fin dim) (Fin dim) α)) d d := by
    rw [← Matrix.mul_assoc, k.mul_entries_mul X hregular hmass]
  _ = k.diffusion * cellVolume k.rule X := by
    rw [Matrix.smul_apply, one_apply_eq, smul_eq_mul, mul_one]

end

section

variable [IsStrictOrderedRing α]

theorem magnitude_eq_abs (x : α) : magnitude x = |x| := by
  unfold magnitude
  split
  · rw [abs_of_neg ‹_›]
  · rw [abs_of_nonneg (not_lt.mp ‹_›)]

variable [BEq α] [LawfulBEq α] {k : H1Kernel α} {corners : Dense dim (numCorners dim) α}

/-- What the integration point `x` contributes. It has to have a regular Jacobian. -/
theorem pointMatrix_eq (x : Fin dim → α) :
    k.pointMatrix corners x = if (jacobian corners.toMatrix x).det = 0 then
      .error (.kernelSetup .singularJacobian)
    else .ok fun a b =>
      ((∑ d, gradients corners.toMatrix x d a * gradients corners.toMatrix x d b) *
        (k.diffusion * weight corners.toMatrix x),
        shapes x a * shapes x b * (k.mass * weight corners.toMatrix x)) := by
  obtain ⟨J, hJ⟩ : ∃ J : Dense dim dim α, J = Dense.ofFn fun i j =>
    sumFin (numCorners dim) fun a => corners[i][a] *
      (Dense.ofFn fun d (a : Fin (numCorners dim)) => shapeDerivative x a d)[j][a] := ⟨_, rfl⟩
  have hjacobian : J.toMatrix = jacobian corners.toMatrix x := by
    ext i j
    rw [hJ, Dense.toMatrix_ofFn, Matrix.of_apply, sumFin_eq_sum]
    exact sum_congr rfl fun a _ => by rw [Dense.getElem_ofFn]; rfl
  have hweight : (prodFin dim fun _ => 1 / (1 + 1)) * magnitude (jacobian corners.toMatrix x).det =
      weight corners.toMatrix x := by
    rw [prodFin_eq_prod, prod_const, card_univ, Fintype.card_fin, magnitude_eq_abs, weight]
  unfold pointMatrix
  simp only [← hJ, Dense.inverse?_eq, Dense.det_eq_det, hjacobian, hweight]
  by_cases hdet : (jacobian corners.toMatrix x).det = 0
  · rw [if_pos hdet, if_pos hdet]
  · rw [if_neg hdet, if_neg hdet]
    refine congrArg Except.ok (funext fun a => funext fun b => Prod.ext ?_ ?_)
    · simp only [sumFin_eq_sum, Dense.getElem_ofFn]
      rfl
    · simp [shapes]

/-- The matrix of a cell with regular Jacobians is made, and has `k.entries` as its entries. -/
theorem exists_cellMatrix (hregular : Regular k.rule corners.toMatrix) :
    ∃ M, k.cellMatrix corners = .ok M ∧ M.toMatrix = k.entries corners.toMatrix := by
  obtain ⟨step, hstep⟩ : ∃ step : Dense (numCorners dim) (numCorners dim) α → Nat →
      Dense (numCorners dim) (numCorners dim) α, step = fun M q => Dense.ofFn fun a b =>
        M[a][b] + k.pointEntries corners.toMatrix (point k.rule q) a b := ⟨_, rfl⟩
  have hpoint : ∀ M, ∀ q ∈ List.range (numCorners dim),
      (do let part ← k.pointMatrix corners (point k.rule q)
          pure (Dense.ofFn fun a b => M[a][b] + (part a b).1 + (part a b).2)) =
        (.ok (step M q) : Except Error (Dense (numCorners dim) (numCorners dim) α)) := by
    intro M q hq
    rw [pointMatrix_eq, if_neg (hregular q (List.mem_range.mp hq)), hstep]
    refine congrArg (Except.ok ∘ Dense.ofFn) (funext fun a => funext fun b => ?_)
    simp only [pointEntries, Matrix.add_apply, Matrix.smul_apply, mul_apply, transpose_apply,
      vecMulVec_apply, smul_eq_mul]
    ring
  refine ⟨_, foldlM_eq_ok_foldl hpoint _, ?_⟩
  have hadd : ∀ M q, (step M q).toMatrix =
      M.toMatrix + k.pointEntries corners.toMatrix (point k.rule q) := fun M q => by
    rw [hstep, Dense.toMatrix_ofFn]
    rfl
  rw [Dense.toMatrix_foldl hadd, Dense.toMatrix_ofFn]
  exact zero_add _

/-- The matrix `M` of a cell is made where no Jacobian is singular. -/
theorem cellMatrix_eq_ok_iff {M : Dense (numCorners dim) (numCorners dim) α} :
    k.cellMatrix corners = .ok M ↔
      Regular k.rule corners.toMatrix ∧ M.toMatrix = k.entries corners.toMatrix := by
  constructor
  · intro h
    have hregular : Regular k.rule corners.toMatrix := by
      intro q hq hdet
      -- whether a point fails does not depend on what is added up before it
      have hparts := foldlM_eq_map_mapM (fun q => k.pointMatrix corners (point k.rule q))
        (fun M part => Dense.ofFn fun a b => M[a][b] + (part a b).1 + (part a b).2)
        (Dense.ofFn fun _ _ => 0) (List.range (numCorners dim))
      rw [← cellMatrix, h] at hparts
      cases hmap : (List.range (numCorners dim)).mapM fun q =>
          k.pointMatrix corners (point k.rule q) with
      | error e =>
        rw [hmap] at hparts
        cases hparts
      | ok parts =>
        obtain ⟨part, hpart⟩ := exists_of_mapM_eq_ok hmap (List.mem_range.mpr hq)
        rw [pointMatrix_eq, if_pos hdet] at hpart
        cases hpart
    obtain ⟨N, hN, hentries⟩ := exists_cellMatrix hregular
    obtain rfl := Except.ok.inj (hN.symm.trans h)
    exact ⟨hregular, hentries⟩
  · rintro ⟨hregular, hM⟩
    obtain ⟨N, hN, hentries⟩ := exists_cellMatrix hregular
    rw [hN, Dense.toMatrix_injective (hentries.trans hM.symm)]

end

/-! ## Boxes -/

variable [IsStrictOrderedRing α]

section

variable {lower upper : Fin dim → α} (h : ∀ i, lower i < upper i) (rule : TwoPoint α)
include h

theorem regular_boxCorners : Regular rule (boxCorners lower upper) := fun _ _ => by
  rw [det_jacobian_boxCorners]
  exact prod_ne_zero_iff.mpr fun i _ => (sub_pos.mpr (h i)).ne'

/-- A `rule` measures a box exactly. -/
theorem cellVolume_boxCorners :
    cellVolume rule (boxCorners lower upper) = ∏ i, (upper i - lower i) := by
  have hpos : 0 < ∏ i, (upper i - lower i) := prod_pos fun i _ => sub_pos.mpr (h i)
  have hcorners : ((numCorners dim : Nat) : α) = 2 ^ dim := by
    rw [numCorners, Grid.volume, Nat.pow_eq, Nat.cast_pow, Nat.cast_ofNat]
  have htwo : (2 : α) ^ dim * (1 / (1 + 1)) ^ dim = 1 := by
    rw [one_add_one_eq_two, ← mul_pow, mul_one_div_cancel two_ne_zero, one_pow]
  simp only [cellVolume, weight, det_jacobian_boxCorners, abs_of_pos hpos, sum_const, card_range,
    nsmul_eq_mul, hcorners]
  rw [← mul_assoc, htwo, one_mul]

end

end H1Kernel

end FemAssembly
