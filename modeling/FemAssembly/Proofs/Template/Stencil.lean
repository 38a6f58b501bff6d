import FemAssembly.Proofs.Grid.Coordinates
import FemAssembly.Proofs.Sequence.Results
import FemAssembly.Proofs.Template.Lookup
import FemAssembly.Template.Stencil

/-!
# The stencil of a grid

The tensor stencil couples the nodes of an element that are neighbours in its grid. A candidate is
an offset, so a neighbour is found at one candidate only.

* `Template.stencilColumn_eq_some_iff`: the neighbour at an offset, direction by direction.
* `Template.IsStencil`: the templates of tensor stencils. `IsStencil.lists_iff` says that they list
  the neighbours.
* `Template.tensorStencil_eq_ok_iff`, `Template.isStencil_of_tensorStencil`: what is made.
* `Template.exists_tensorStencil_of_lt`, `Template.exists_tensorStencil_iff`: where it can be made.
-/

namespace FemAssembly

/-- A power that is a word is returned by `pow`, and nothing else. -/
theorem Word.pow_eq_ok_iff {base exponent n : Nat} :
    pow base exponent = .ok n ↔
      Grid.volume base exponent < bound ∧ n = Grid.volume base exponent := by
  unfold pow
  split
  · exact fit_eq_ok_iff
  · rename_i hlarge
    split
    · -- zero and one are their own powers
      have hpow : Grid.volume base exponent = base := by
        have hbase : base = 0 ∨ base = 1 := by omega
        rcases hbase with rfl | rfl
        · exact Nat.zero_pow (by omega)
        · exact Nat.one_pow exponent
      have hlt : base < bound := by
        unfold bound
        omega
      rw [hpow]
      exact ⟨fun h => ⟨hlt, (Except.ok.inj h).symm⟩, fun h => h.2 ▸ rfl⟩
    · rename_i hbase
      have hmono : Nat.pow 2 64 ≤ Grid.volume base exponent :=
        Nat.le_trans (Nat.pow_le_pow_left (by omega) 64)
          (Nat.pow_le_pow_right (by omega) (by omega))
      exact ⟨nofun, fun h => absurd (Nat.lt_of_le_of_lt hmono h.1) (by decide)⟩

namespace Template

open Grid (coord point volume Near)

variable {t : Template} {dim order row k column : Nat}

/-- The neighbour of `row` at offset `k`, direction by direction. -/
theorem stencilColumn_eq (dim order row k : Nat) : stencilColumn dim order row k =
    if ∀ d < dim, 1 ≤ coord (order + 1) row d + coord 3 k d ∧
        coord (order + 1) row d + coord 3 k d ≤ order + 1 then
      some (point dim (order + 1) fun d => coord (order + 1) row d + coord 3 k d - 1)
    else none := by
  simp [stencilColumn, Grid.zipWith_coords, point, Function.comp_def]

theorem stencilColumn_eq_some_iff : stencilColumn dim order row k = some column ↔
    column < volume (order + 1) dim ∧
      ∀ d < dim, coord (order + 1) column d + 1 = coord (order + 1) row d + coord 3 k d := by
  rw [stencilColumn_eq]
  constructor
  · intro h
    split at h
    · rename_i hinside
      obtain rfl := Option.some.inj h
      have hlt : ∀ d < dim, coord (order + 1) row d + coord 3 k d - 1 < order + 1 := fun d hd => by
        have := hinside d hd
        omega
      refine ⟨Grid.point_lt hlt, fun d hd => ?_⟩
      have := hinside d hd
      rw [Grid.coord_point hlt hd]
      omega
    · cases h
  · rintro ⟨hcolumn, hcoord⟩
    have hinside : ∀ d < dim, 1 ≤ coord (order + 1) row d + coord 3 k d ∧
        coord (order + 1) row d + coord 3 k d ≤ order + 1 := fun d hd => by
      have := hcoord d hd
      have : coord (order + 1) column d < order + 1 := Grid.coord_lt (Nat.succ_pos order) column d
      omega
    rw [if_pos hinside, Option.some.injEq]
    refine (Grid.point_congr fun d hd => ?_).trans (Grid.point_coord hcolumn)
    have := hcoord d hd
    omega

/-- Two offsets `k` and `k'` of `row` do not lead to the same neighbour. -/
theorem eq_of_stencilColumn_eq_some {k' : Nat} (hk : k < volume 3 dim) (hk' : k' < volume 3 dim)
    (h : stencilColumn dim order row k = some column)
    (h' : stencilColumn dim order row k' = some column) : k = k' := by
  refine Grid.eq_of_coord_eq hk hk' fun d hd => ?_
  have := (stencilColumn_eq_some_iff.mp h).2 d hd
  have := (stencilColumn_eq_some_iff.mp h').2 d hd
  omega

/-- Every neighbour `column` of `row` is found at an offset `k`, and what is found at an offset is a
neighbour. -/
theorem exists_stencilColumn_iff :
    (∃ k < volume 3 dim, stencilColumn dim order row k = some column) ↔
      column < volume (order + 1) dim ∧ Near dim (order + 1) row column := by
  constructor
  · rintro ⟨k, -, h⟩
    obtain ⟨hcolumn, hcoord⟩ := stencilColumn_eq_some_iff.mp h
    refine ⟨hcolumn, fun d hd => ?_⟩
    have := hcoord d hd
    have := Grid.coord_lt (show 0 < 3 by decide) k d
    omega
  · rintro ⟨hcolumn, hnear⟩
    have hoffset : ∀ d < dim, coord (order + 1) column d + 1 - coord (order + 1) row d < 3 :=
      fun d hd => by
        have := hnear d hd
        omega
    refine ⟨_, Grid.point_lt hoffset, stencilColumn_eq_some_iff.mpr ⟨hcolumn, fun d hd => ?_⟩⟩
    have := hnear d hd
    rw [Grid.coord_point hoffset hd]
    omega

/-! ## The template -/

/-- The template `t` is the tensor stencil of a grid with `order + 1` points in each of `dim`
directions. -/
structure IsStencil (t : Template) (dim order : Nat) : Prop where
  slots_eq : t.slots = volume (order + 1) dim
  width_eq : t.width = volume 3 dim
  row_eq : ∀ i < volume (order + 1) dim,
    rowOf t.width t.mapping i = (List.range (volume 3 dim)).map (stencilColumn dim order i)

namespace IsStencil

theorem names_iff (h : t.IsStencil dim order) (hrow : row < volume (order + 1) dim) :
    (rowOf t.width t.mapping row)[k]? = some (some column) ↔
      k < volume 3 dim ∧ stencilColumn dim order row k = some column := by
  rw [h.row_eq row hrow, List.getElem?_map]
  by_cases hk : k < volume 3 dim
  · simp [hk]
  · simp [hk]

theorem candidate_eq_ok (h : t.IsStencil dim order) (hrow : row < t.slots) (hk : k < t.width) :
    t.candidate row k = .ok (stencilColumn dim order row k) := by
  rw [candidate_eq hk, h.row_eq row (h.slots_eq ▸ hrow), List.getElem?_map,
    List.getElem?_range (h.width_eq ▸ hk)]
  rfl

/-- A row of `t` lists its neighbours. -/
theorem lists_iff (h : t.IsStencil dim order) (hrow : row < volume (order + 1) dim) :
    t.Lists row column ↔
      column < volume (order + 1) dim ∧ Near dim (order + 1) row column := by
  rw [lists_iff_exists, ← exists_stencilColumn_iff]
  exact exists_congr fun k => h.names_iff hrow

theorem listed_eq_some_iff (h : t.IsStencil dim order) (hrow : row < volume (order + 1) dim) :
    t.listed row column = some k ↔
      k < volume 3 dim ∧ stencilColumn dim order row k = some column :=
  (Template.listed_eq_some_iff (h.slots_eq ▸ hrow)).trans (h.names_iff hrow)

end IsStencil

/-- The table of the stencil, with `stencilColumn dim order row k` for candidate `k` of `row`. -/
def stencilTable (dim order : Nat) : Array (Option Nat) :=
  ((List.range (volume (order + 1) dim)).flatMap fun row =>
    (List.range (volume 3 dim)).map fun k => stencilColumn dim order row k).toArray

theorem rowOf_stencilTable (hrow : row < volume (order + 1) dim) :
    rowOf (volume 3 dim) (stencilTable dim order) row =
      (List.range (volume 3 dim)).map (stencilColumn dim order row) :=
  rowOf_flatMap (fun _ => by simp) hrow

/-- The stencil is made where its table fits into an array, and `t` has that table. -/
theorem tensorStencil_eq_ok_iff : tensorStencil dim order = .ok t ↔ order + 1 < Word.bound ∧
    volume (order + 1) dim * volume 3 dim * 16 < Word.signedBound ∧
    ofMapping (volume (order + 1) dim) (volume 3 dim) (stencilTable dim order) = .ok t := by
  constructor
  · intro h
    obtain ⟨points, hpoints, h⟩ := bind_eq_ok_iff.mp h
    obtain ⟨hword, rfl⟩ := Word.fit_eq_ok_iff.mp hpoints
    obtain ⟨slots, hslots, h⟩ := bind_eq_ok_iff.mp h
    obtain ⟨-, rfl⟩ := Word.pow_eq_ok_iff.mp hslots
    obtain ⟨width, hwidth, h⟩ := bind_eq_ok_iff.mp h
    obtain ⟨-, rfl⟩ := Word.pow_eq_ok_iff.mp hwidth
    obtain ⟨entries, hentries, h⟩ := bind_eq_ok_iff.mp h
    obtain ⟨-, rfl⟩ := Word.fit_eq_ok_iff.mp hentries
    obtain ⟨_, hreserve, h⟩ := bind_eq_ok_iff.mp h
    exact ⟨hword, Word.reserve_eq_ok_iff.mp hreserve, h⟩
  · rintro ⟨hpoints, hfits, h⟩
    have hentries : volume (order + 1) dim * volume 3 dim < Word.bound := Word.lt_bound (by omega)
    have hslots : volume (order + 1) dim < Word.bound := Nat.lt_of_le_of_lt
      (Nat.le_mul_of_pos_right _ (Grid.volume_pos (by decide) dim)) hentries
    have hwidth : volume 3 dim < Word.bound := Nat.lt_of_le_of_lt
      (Nat.le_mul_of_pos_left _ (Grid.volume_pos (Nat.succ_pos order) dim)) hentries
    exact bind_eq_ok_iff.mpr ⟨_, Word.add_eq_ok hpoints,
      bind_eq_ok_iff.mpr ⟨_, Word.pow_eq_ok_iff.mpr ⟨hslots, rfl⟩,
      bind_eq_ok_iff.mpr ⟨_, Word.pow_eq_ok_iff.mpr ⟨hwidth, rfl⟩,
      bind_eq_ok_iff.mpr ⟨_, Word.mul_eq_ok hentries,
      bind_eq_ok_iff.mpr ⟨_, Word.reserve_eq_ok hfits, h⟩⟩⟩⟩⟩

theorem isStencil_of_tensorStencil (h : tensorStencil dim order = .ok t) :
    t.IsStencil dim order := by
  obtain ⟨hslots, hwidth, hmapping⟩ := of_ofMapping_eq_ok (tensorStencil_eq_ok_iff.mp h).2.2
  refine ⟨hslots, hwidth, fun i hi => ?_⟩
  rw [hwidth, hmapping]
  exact rowOf_stencilTable hi

/-- No `row` of the table lists a neighbour twice. -/
theorem nodup_rowOf_stencilTable (hrow : row < volume (order + 1) dim) :
    ((rowOf (volume 3 dim) (stencilTable dim order) row).filterMap id).Nodup := by
  rw [rowOf_stencilTable hrow, List.filterMap_map]
  apply List.pairwise_filterMap.mpr
  apply List.nodup_range.imp_of_mem
  rintro k k' hk hk' hne column hcolumn _ hcolumn' rfl
  exact hne (eq_of_stencilColumn_eq_some (List.mem_range.mp hk) (List.mem_range.mp hk')
    hcolumn hcolumn')

theorem ofMapping_ne_outOfRange {width slots : Nat} {mapping : Array (Option Nat)} :
    ofMapping width slots mapping ≠ .error (.fault .outOfRange) := by
  refine bind_ne_error (Word.fit_ne_error (by decide)) fun _ _ h => ?_
  split at h
  · split at h
    · cases h
    · split at h <;> cases h
  · cases h

/-- A stencil fails as too large, and never as an access outside of an array. -/
theorem tensorStencil_ne_outOfRange : tensorStencil dim order ≠ .error (.fault .outOfRange) := by
  have hkind : Error.fault .outOfRange ≠ .fault .overflow := by decide
  exact bind_ne_error (Word.fit_ne_error hkind) fun _ _ =>
    bind_ne_error (Word.pow_ne_error hkind) fun _ _ =>
    bind_ne_error (Word.pow_ne_error hkind) fun _ _ =>
    bind_ne_error (Word.fit_ne_error hkind) fun _ _ =>
    bind_ne_error (Word.reserve_ne_error hkind) fun _ _ => ofMapping_ne_outOfRange

/-- The stencil of a grid is made where its table fits into an array. -/
theorem exists_tensorStencil_of_lt (hpoints : order + 1 < Word.bound)
    (hfits : volume (order + 1) dim * volume 3 dim * 16 < Word.signedBound) :
    ∃ t, tensorStencil dim order = .ok t := by
  have hentries : volume (order + 1) dim * volume 3 dim < Word.bound := Word.lt_bound (by omega)
  have hcolumn : ∀ column, some column ∈ stencilTable dim order →
      column < volume (order + 1) dim := by
    intro column hmem
    obtain ⟨row, -, hmem⟩ := List.mem_flatMap.mp (List.mem_toArray.mp hmem)
    obtain ⟨k, -, hk⟩ := List.mem_map.mp hmem
    exact (stencilColumn_eq_some_iff.mp hk).1
  have hsize : (stencilTable dim order).size = volume (order + 1) dim * volume 3 dim := by
    simp [stencilTable, List.length_flatMap, List.map_const']
  obtain ⟨t, ht, -⟩ := exists_ofMapping hentries hsize hcolumn fun _ => nodup_rowOf_stencilTable
  exact ⟨t, tensorStencil_eq_ok_iff.mpr ⟨hpoints, hfits, ht⟩⟩

/-- With one direction or more, a table that fits has a word for the number of its points. -/
theorem exists_tensorStencil_iff (hdim : 0 < dim) : (∃ t, tensorStencil dim order = .ok t) ↔
    volume (order + 1) dim * volume 3 dim * 16 < Word.signedBound := by
  constructor
  · rintro ⟨t, ht⟩
    exact (tensorStencil_eq_ok_iff.mp ht).2.1
  · intro hfits
    have hentries : volume (order + 1) dim * volume 3 dim < Word.bound := Word.lt_bound (by omega)
    have hpoints : order + 1 < Word.bound := Nat.lt_of_le_of_lt (Grid.le_volume hdim _)
      (Nat.lt_of_le_of_lt (Nat.le_mul_of_pos_right _ (Grid.volume_pos (by decide) dim)) hentries)
    exact exists_tensorStencil_of_lt hpoints hfits

end Template

end FemAssembly
