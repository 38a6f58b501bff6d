import FemAssembly.Proofs.Grid.Sums
import FemAssembly.Proofs.Template.Stencil

/-!
# The tensor stencil in closed form

A candidate of the tensor stencil is an offset, one digit for each direction. The opposite candidate
is the opposite offset: where a candidate of a node leads to a neighbour, the opposite candidate of
the neighbour leads back.

* `Template.stencilColumn_reflect`: the way back.
* `Template.numPresent_eq`: the number of present candidates is that of the pairs of neighbours.
* `Template.tensorStencil_exact`: where the stencil is made, and what it holds.
-/

namespace FemAssembly

namespace Template

open Finset
open Grid (coord volume Near)

variable {t : Template} {dim order row k column : Nat}

theorem isSome_stencilColumn_iff : (stencilColumn dim order row k).isSome ↔ ∀ d < dim,
    1 ≤ coord (order + 1) row d + coord 3 k d ∧
      coord (order + 1) row d + coord 3 k d ≤ order + 1 := by
  rw [stencilColumn_eq]
  split
  · exact iff_of_true rfl (by assumption)
  · exact iff_of_false nofun (by assumption)

/-- If candidate `k` of `row` is the neighbour `column`, then the opposite candidate of `column`
leads back to `row`. -/
theorem stencilColumn_reflect (hrow : row < volume (order + 1) dim) (hk : k < volume 3 dim)
    (h : stencilColumn dim order row k = some column) :
    stencilColumn dim order column (volume 3 dim - 1 - k) = some row := by
  obtain ⟨-, hcoord⟩ := stencilColumn_eq_some_iff.mp h
  refine stencilColumn_eq_some_iff.mpr ⟨hrow, fun d hd => ?_⟩
  have := hcoord d hd
  have := Grid.coord_lt (show 0 < 3 by decide) k d
  rw [Grid.coord_reflect hk hd]
  omega

namespace IsStencil

variable (h : t.IsStencil dim order)
include h

theorem findSlot_reflect (hrow : row < t.slots) (hk : k < t.width)
    (hcolumn : stencilColumn dim order row k = some column) :
    t.findSlot column row = .ok (some (t.width - 1 - k)) := by
  have hlt : column < volume (order + 1) dim := (stencilColumn_eq_some_iff.mp hcolumn).1
  have hlisted : t.listed column row = some (volume 3 dim - 1 - k) := by
    have hpos : 0 < volume 3 dim := Grid.volume_pos (by decide) dim
    exact (h.listed_eq_some_iff hlt).mpr ⟨by omega,
      stencilColumn_reflect (h.slots_eq ▸ hrow) (h.width_eq ▸ hk) hcolumn⟩
  rw [findSlot_eq_ok (h.slots_eq ▸ hlt), hlisted, h.width_eq]

/-- A row has a present candidate for each of its neighbours `column`. -/
theorem countP_rowOf (hrow : row < t.slots) :
    (rowOf t.width t.mapping row).countP Option.isSome =
      ∑ column ∈ range (volume (order + 1) dim),
        if Near dim (order + 1) row column then 1 else 0 := by
  have hnodup : ((rowOf t.width t.mapping row).filterMap id).Nodup := t.nodup row hrow
  have hneighbours : ((rowOf t.width t.mapping row).filterMap id).toFinset =
      {column ∈ range (volume (order + 1) dim) | Near dim (order + 1) row column} := by
    ext column
    rw [List.mem_toFinset, mem_filter, mem_range, ← h.lists_iff (h.slots_eq ▸ hrow), Lists]
    simp
  rw [← card_filter, ← hneighbours, List.toFinset_card_of_nodup hnodup,
    List.length_filterMap_eq_countP]
  rfl

end IsStencil

theorem numPresent_eq (h : tensorStencil dim order = .ok t) :
    t.numPresent = (3 * order + 1) ^ dim := by
  have hstencil := isStencil_of_tensorStencil h
  obtain ⟨-, -, hmapping⟩ := of_ofMapping_eq_ok (tensorStencil_eq_ok_iff.mp h).2.2
  calc t.numPresent
      = ∑ row ∈ range (volume (order + 1) dim),
          ((List.range (volume 3 dim)).map (stencilColumn dim order row)).countP Option.isSome := by
        rw [numPresent, hmapping, stencilTable, List.countP_toArray, List.countP_flatMap]
        rfl
    _ = ∑ row ∈ range (volume (order + 1) dim), ∑ column ∈ range (volume (order + 1) dim),
          if Near dim (order + 1) row column then 1 else 0 := by
        refine sum_congr rfl fun row hrow => ?_
        have hlt : row < volume (order + 1) dim := mem_range.mp hrow
        rw [← hstencil.row_eq row hlt]
        exact hstencil.countP_rowOf (hstencil.slots_eq ▸ hlt)
    _ = (3 * order + 1) ^ dim := Grid.sum_near dim order

/-- The template `tensorStencil dim order` is made where its sizes fit, and its table is then
accepted as it is. Candidate `k` of `row` is present where the coordinates of `row`, moved by the
offset `k`, stay inside the grid, and it names the node with these coordinates. The opposite
candidate of that node names `row`. In each direction all points but the two at the ends have three
candidates, and these have two. -/
theorem tensorStencil_exact (dim order : Nat) :
    ((∃ t, tensorStencil dim order = .ok t) ↔ order + 1 < Word.bound ∧
      (order + 1) ^ dim * 3 ^ dim * 16 < Word.signedBound) ∧
    ∀ t, tensorStencil dim order = .ok t →
      t.slots = (order + 1) ^ dim ∧ t.width = 3 ^ dim ∧
      ofMapping t.slots t.width t.mapping = .ok t ∧
      (∀ row < t.slots, ∀ k < t.width, ∃ candidate, t.candidate row k = .ok candidate ∧
        (candidate.isSome ↔ ∀ d < dim,
          (0 : Int) ≤ coord (order + 1) row d + coord 3 k d - 1 ∧
          (coord (order + 1) row d + coord 3 k d - 1 : Int) ≤ order) ∧
        ∀ column, candidate = some column → column < t.slots ∧
          (∀ d < dim, (coord (order + 1) column d : Int) =
            coord (order + 1) row d + coord 3 k d - 1) ∧
          t.findSlot column row = .ok (some (3 ^ dim - 1 - k))) ∧
      t.numPresent = (3 * (order + 1) - 2) ^ dim := by
  refine ⟨⟨?_, fun h => exists_tensorStencil_of_lt h.1 h.2⟩, fun t ht => ?_⟩
  · rintro ⟨t, ht⟩
    obtain ⟨hpoints, hfits, -⟩ := tensorStencil_eq_ok_iff.mp ht
    exact ⟨hpoints, hfits⟩
  have h := isStencil_of_tensorStencil ht
  have hmade := (tensorStencil_eq_ok_iff.mp ht).2.2
  obtain ⟨-, -, hmapping⟩ := of_ofMapping_eq_ok hmade
  refine ⟨h.slots_eq, h.width_eq, ?_, fun row hrow k hk => ?_, ?_⟩
  · rw [h.slots_eq, h.width_eq, hmapping]
    exact hmade
  · refine ⟨_, h.candidate_eq_ok hrow hk, ?_, fun column hcolumn => ?_⟩
    · rw [isSome_stencilColumn_iff]
      exact forall₂_congr fun d _ => by omega
    · obtain ⟨hlt, hcoord⟩ := stencilColumn_eq_some_iff.mp hcolumn
      have hback := h.findSlot_reflect hrow hk hcolumn
      rw [h.width_eq] at hback
      refine ⟨h.slots_eq ▸ hlt, fun d hd => ?_, hback⟩
      have := hcoord d hd
      omega
  · rw [numPresent_eq ht]
    congr 1

/-- The stencil of a quadrilateral of order two. Its middle node has all nine neighbours, its first
node has candidates `4 5 7 8`, and the opposite of candidate `5` is `3`. -/
theorem tensorStencil_exact_quadrilateral :
    ∃ t, tensorStencil 2 2 = .ok t ∧ t.slots = 9 ∧ t.width = 9 ∧ t.numPresent = 49 ∧
      t.candidate 0 5 = .ok (some 1) ∧ t.findSlot 1 0 = .ok (some 3) := by
  obtain ⟨hmakes, hexact⟩ := tensorStencil_exact 2 2
  obtain ⟨t, ht⟩ := hmakes.mpr ⟨by decide, by decide⟩
  obtain ⟨hslots, hwidth, -, hcandidates, hpresent⟩ := hexact t ht
  obtain ⟨candidate, hcandidate, hsome, hcolumn⟩ :=
    hcandidates 0 (by rw [hslots]; decide) 5 (by rw [hwidth]; decide)
  obtain ⟨column, rfl⟩ := Option.isSome_iff_exists.mp (hsome.mpr (by decide))
  obtain ⟨hlt, hcoord, hfound⟩ := hcolumn column rfl
  have hnode : column = 1 := by
    have hfirst : coord 3 column 0 = 1 := Int.ofNat.inj (hcoord 0 (by decide))
    have hsecond : coord 3 column 1 = 0 := Int.ofNat.inj (hcoord 1 (by decide))
    rw [hslots] at hlt
    refine Grid.eq_of_coord_eq hlt (by decide) fun d hd => ?_
    interval_cases d
    · exact hfirst
    · exact hsecond
  subst hnode
  exact ⟨t, ht, hslots, hwidth, hpresent, hcandidate, hfound⟩

end Template

end FemAssembly
