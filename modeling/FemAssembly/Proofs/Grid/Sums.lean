import FemAssembly.Proofs.Grid.Coordinates
import Mathlib

/-!
# Sums over a grid

A sum over all points of products of one factor for each direction is the product of sums over one
coordinate.

* `Grid.sum_prod_coord`, `Grid.sum_sum_prod_coord`: sums over the points of one grid, and over the
  pairs of points of two grids.
* `Grid.sum_prod_testBit`: sums over the corners of a cell.
* `Grid.sum_near`: the number of pairs of neighbours.
-/

namespace FemAssembly

namespace Grid

open Finset

variable {R : Type*} [CommSemiring R] {dim : Nat}

theorem sum_prod_coord (base : Nat) (f : Fin dim → Nat → R) :
    ∑ n ∈ range (volume base dim), ∏ d : Fin dim, f d (coord base n d) =
      ∏ d, ∑ x ∈ range base, f d x := by
  have hpos : ∀ {n}, n ∈ range (volume base dim) → ∀ d : Fin dim, 0 < base := fun hn d =>
    base_pos (Nat.zero_lt_of_lt d.isLt) (mem_range.mp hn)
  have hbelow : ∀ {p : Fin dim → Nat}, p ∈ Fintype.piFinset (fun _ => range base) →
      ∀ d < dim, (if h : d < dim then p ⟨d, h⟩ else 0) < base := fun hp d hd => by
    rw [dif_pos hd]
    exact mem_range.mp (Fintype.mem_piFinset.mp hp ⟨d, hd⟩)
  rw [prod_univ_sum]
  refine sum_nbij' (fun n d => coord base n d)
    (fun p => point dim base fun d => if h : d < dim then p ⟨d, h⟩ else 0) ?_ ?_ ?_ ?_ ?_
  · intro n hn
    exact Fintype.mem_piFinset.mpr fun d => mem_range.mpr (coord_lt (hpos hn d) n d)
  · intro p hp
    exact mem_range.mpr (point_lt (hbelow hp))
  · intro n hn
    rw [← point_coord (mem_range.mp hn)]
    refine point_congr fun d hd => ?_
    rw [dif_pos hd, point_coord (mem_range.mp hn)]
  · intro p hp
    funext d
    rw [coord_point (hbelow hp) d.isLt, dif_pos d.isLt]
  · intro n _
    rfl

theorem sum_sum_prod_coord (base base' : Nat) (f : Fin dim → Nat → Nat → R) :
    ∑ n ∈ range (volume base dim), ∑ m ∈ range (volume base' dim),
        ∏ d : Fin dim, f d (coord base n d) (coord base' m d) =
      ∏ d, ∑ x ∈ range base, ∑ y ∈ range base', f d x y := by
  rw [← sum_prod_coord]
  exact sum_congr rfl fun n _ => sum_prod_coord base' fun d => f d (coord base n d)

/-- The corners of a cell are the points of a grid with two points in each direction: bit `d` of `a`
is its coordinate in direction `d`. -/
theorem testBit_eq (a d : Nat) : a.testBit d = decide (coord 2 a d = 1) :=
  Nat.testBit_eq_decide_div_mod_eq

theorem sum_prod_testBit (f : Fin dim → Bool → R) :
    ∑ a ∈ range (numCorners dim), ∏ d : Fin dim, f d (a.testBit d) =
      ∏ d, (f d false + f d true) := by
  simp only [testBit_eq]
  rw [numCorners, sum_prod_coord 2 fun d x => f d (decide (x = 1))]
  simp [sum_range_succ]

/-- In one direction, of `points + 1` points each has itself and at most two others as neighbours;
the ends have one neighbour less. -/
theorem sum_near_line (points : Nat) :
    (∑ x ∈ range (points + 1), ∑ y ∈ range (points + 1),
      if x ≤ y + 1 ∧ y ≤ x + 1 then 1 else 0) = 3 * points + 1 := by
  induction points with
  | zero => rfl
  | succ points ih =>
    -- a new last point has the old last point as its only other neighbour
    have hcolumn : (∑ x ∈ range (points + 1), if x ≤ points + 1 + 1 ∧ points + 1 ≤ x + 1 then 1
        else 0) = 1 := by
      rw [sum_eq_single points (fun x hx hne => if_neg (by grind)) (by simp)]
      exact if_pos (by omega)
    have hrow : (∑ y ∈ range (points + 1), if points + 1 ≤ y + 1 ∧ y ≤ points + 1 + 1 then 1
        else 0) = 1 := by
      rw [sum_eq_single points (fun y hy hne => if_neg (by grind)) (by simp)]
      exact if_pos (by omega)
    rw [sum_range_succ, sum_range_succ _ (points + 1), hrow]
    simp only [sum_range_succ _ (points + 1)]
    rw [sum_add_distrib, ih, hcolumn]
    simp
    omega

theorem sum_near (dim points : Nat) :
    (∑ n ∈ range (volume (points + 1) dim), ∑ m ∈ range (volume (points + 1) dim),
      if Near dim (points + 1) n m then 1 else 0) = (3 * points + 1) ^ dim := by
  have hprod : ∀ n m, (if Near dim (points + 1) n m then 1 else 0) = ∏ d : Fin dim,
      if coord (points + 1) n d ≤ coord (points + 1) m d + 1 ∧
        coord (points + 1) m d ≤ coord (points + 1) n d + 1 then 1 else 0 := fun n m => by
    split
    · rename_i hnear
      exact (prod_eq_one fun (d : Fin dim) _ => if_pos (hnear d d.isLt)).symm
    · rename_i hfar
      obtain ⟨d, hd, hcoord⟩ : ∃ d, ∃ hd : d < dim, _ := by simpa only [Near, not_forall] using hfar
      exact (prod_eq_zero (mem_univ ⟨d, hd⟩) (if_neg hcoord)).symm
  simp only [hprod]
  rw [sum_sum_prod_coord (points + 1) (points + 1) fun (_ : Fin dim) x y =>
    if x ≤ y + 1 ∧ y ≤ x + 1 then 1 else 0]
  simp only [sum_near_line, prod_const, card_univ, Fintype.card_fin]

end Grid

end FemAssembly
