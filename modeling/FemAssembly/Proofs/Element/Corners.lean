import FemAssembly.Element.H1
import FemAssembly.Proofs.Template.Stencil

/-!
# Corners, nodes and places

The corners of the cells of an element are its nodes. The kernel goes by coordinates, and never asks
the stencil; but two corners of a cell are neighbours among the nodes, and the entry of a cell
matrix for them goes to the place where the stencil has the node of the second corner in the row of
the first.

* `H1Kernel.cornerNode_eq`, `H1Kernel.cornerCandidate_eq`: the numberings, direction by direction.
* `H1Kernel.stencilColumn_cornerNode`: the candidate of a corner leads to the other corner.
* `H1Kernel.cornerPlace`: where the entry of two corners goes. `H1Kernel.cornerPlace_eq_iff`: the
  corners whose entry goes to a given place.
-/

namespace FemAssembly

open Grid (coord volume numCorners)

namespace H1Kernel

variable {dim order cell row k : Nat}

theorem cornerNode_eq (dim order cell a : Nat) : cornerNode dim order cell a =
    Grid.point dim (order + 1) fun d => coord order cell d + coord 2 a d := by
  rw [cornerNode, Grid.zipWith_coords]
  rfl

theorem cornerCandidate_eq (dim a b : Nat) : cornerCandidate dim a b =
    Grid.point dim 3 fun d => 1 + coord 2 b d - coord 2 a d := by
  rw [cornerCandidate, Grid.zipWith_coords]
  rfl

theorem cornerCoord_lt (hcell : cell < volume order dim) {d : Nat} (hd : d < dim) (a : Nat) :
    coord order cell d + coord 2 a d < order + 1 := by
  have := Grid.coord_lt (Grid.base_pos (Nat.zero_lt_of_lt hd) hcell) cell d
  have := Grid.coord_lt Nat.two_pos a d
  omega

theorem cornerNode_lt (hcell : cell < volume order dim) (a : Nat) :
    cornerNode dim order cell a < volume (order + 1) dim := by
  rw [cornerNode_eq]
  exact Grid.point_lt fun d hd => cornerCoord_lt hcell hd a

theorem coord_cornerNode (hcell : cell < volume order dim) {d : Nat} (hd : d < dim) (a : Nat) :
    coord (order + 1) (cornerNode dim order cell a) d = coord order cell d + coord 2 a d := by
  rw [cornerNode_eq]
  exact Grid.coord_point (fun d hd => cornerCoord_lt hcell hd a) hd

theorem candidateCoord_lt (a b d : Nat) : 1 + coord 2 b d - coord 2 a d < 3 := by
  have := Grid.coord_lt Nat.two_pos b d
  omega

theorem cornerCandidate_lt (dim a b : Nat) : cornerCandidate dim a b < volume 3 dim := by
  rw [cornerCandidate_eq]
  exact Grid.point_lt fun d _ => candidateCoord_lt a b d

theorem coord_cornerCandidate (a b : Nat) {d : Nat} (hd : d < dim) :
    coord 3 (cornerCandidate dim a b) d = 1 + coord 2 b d - coord 2 a d := by
  rw [cornerCandidate_eq]
  exact Grid.coord_point (fun d _ => candidateCoord_lt a b d) hd

/-- The candidate of corner `b` leads from the node of corner `a` to that of corner `b`. -/
theorem stencilColumn_cornerNode (hcell : cell < volume order dim) (a b : Nat) :
    Template.stencilColumn dim order (cornerNode dim order cell a) (cornerCandidate dim a b) =
      some (cornerNode dim order cell b) := by
  refine Template.stencilColumn_eq_some_iff.mpr ⟨cornerNode_lt hcell b, fun d hd => ?_⟩
  have := Grid.coord_lt Nat.two_pos a d
  rw [coord_cornerNode hcell hd, coord_cornerNode hcell hd, coord_cornerCandidate a b hd]
  omega

/-- The corners `a` and `b` of a cell are different nodes, if they are different. -/
theorem eq_of_cornerNode_eq (hcell : cell < volume order dim) {a b : Fin (numCorners dim)}
    (h : cornerNode dim order cell a = cornerNode dim order cell b) : a = b := by
  refine Fin.ext (Grid.eq_of_coord_eq a.isLt b.isLt fun d hd => ?_)
  have hcoord := congrArg (coord (order + 1) · d) h
  simp only [coord_cornerNode hcell hd] at hcoord
  omega

/-! ## Places -/

/-- The place of the pair of the corners `a` and `b` of cell `cell` in the stencil of the element.
-/
def cornerPlace (dim order width cell : Nat) (a b : Fin (numCorners dim)) : Nat :=
  cornerCandidate dim a b + width * cornerNode dim order cell a

theorem cornerPlace_lt {dim order cell : Nat} (hcell : cell < volume order dim)
    (a b : Fin (numCorners dim)) : cornerPlace dim order (volume 3 dim) cell a b <
      volume 3 dim * volume (order + 1) dim := by
  have hcandidate := cornerCandidate_lt dim a b
  have hnode := Nat.mul_le_mul_left (volume 3 dim) (Nat.succ_le_of_lt (cornerNode_lt hcell a))
  rw [Nat.mul_succ] at hnode
  rw [cornerPlace]
  omega

/-- The entry of the corners `a` and `b` goes to the candidate `k` that leads from the first to the
second, in the row of the first, and to no other place. -/
theorem cornerPlace_eq_iff (hcell : cell < volume order dim) (hk : k < volume 3 dim)
    {a b : Fin (numCorners dim)} :
    cornerPlace dim order (volume 3 dim) cell a b = k + volume 3 dim * row ↔
      cornerNode dim order cell a = row ∧
        Template.stencilColumn dim order row k = some (cornerNode dim order cell b) := by
  have hcandidate := cornerCandidate_lt dim a b
  have hcolumn := stencilColumn_cornerNode hcell a b
  constructor
  · intro heq
    obtain rfl : cornerCandidate dim a b = k := by
      have hmod := congrArg (· % volume 3 dim) heq
      simpa only [cornerPlace, Nat.add_mul_mod_self_left, Nat.mod_eq_of_lt, hcandidate, hk]
        using hmod
    obtain rfl : cornerNode dim order cell a = row :=
      Nat.eq_of_mul_eq_mul_left (Nat.zero_lt_of_lt hk) (Nat.add_left_cancel heq)
    exact ⟨rfl, hcolumn⟩
  · rintro ⟨rfl, h⟩
    rw [cornerPlace, Template.eq_of_stencilColumn_eq_some hcandidate hk hcolumn h]

end H1Kernel

end FemAssembly
