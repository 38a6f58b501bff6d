/-!
# Chunks

A list cut into pieces of one width, of which only the last may be shorter.

* `chunks`: the pieces, in order.
* `flatten_chunks`: the pieces make up the list.
* `length_of_mem_chunks`: where the width divides the length, every piece has the width.
-/

namespace FemAssembly

variable {α : Type _}

/-- The pieces of `width` elements of `list`. A `width` of zero gives no pieces. -/
def chunks (width : Nat) (list : List α) : List (List α) :=
  if h : width = 0 ∨ list = [] then []
  else
    have : (list.drop width).length < list.length := by
      have : 0 < list.length := List.length_pos_iff.mpr (by simp_all)
      simp only [List.length_drop]
      omega
    list.take width :: chunks width (list.drop width)
termination_by list.length

@[simp] theorem chunks_nil (width : Nat) : chunks width ([] : List α) = [] := by
  unfold chunks
  simp

theorem chunks_eq_cons {width : Nat} {list : List α} (hw : 0 < width) (hl : list ≠ []) :
    chunks width list = list.take width :: chunks width (list.drop width) := by
  rw [chunks]
  simp [hl, Nat.pos_iff_ne_zero.mp hw]

theorem flatten_chunks {width : Nat} (hw : 0 < width) (list : List α) :
    (chunks width list).flatten = list := by
  induction h : list.length using Nat.strongRecOn generalizing list with
  | ind n ih =>
    by_cases hl : list = []
    · simp [hl]
    · have : 0 < list.length := List.length_pos_iff.mpr hl
      rw [chunks_eq_cons hw hl, List.flatten_cons,
        ih (list.drop width).length (by simp only [List.length_drop]; omega) _ rfl,
        List.take_append_drop]

theorem length_of_mem_chunks {width : Nat} {list piece : List α} (hd : width ∣ list.length)
    (hp : piece ∈ chunks width list) : piece.length = width := by
  induction h : list.length using Nat.strongRecOn generalizing list with
  | ind n ih =>
    by_cases hl : list = []
    · simp [hl] at hp
    · have hpos : 0 < list.length := List.length_pos_iff.mpr hl
      have hw : 0 < width := Nat.pos_of_dvd_of_pos hd hpos
      have hle : width ≤ list.length := Nat.le_of_dvd hpos hd
      rw [chunks_eq_cons hw hl] at hp
      rcases List.mem_cons.mp hp with rfl | hp
      · simp [hle]
      · refine ih (list.drop width).length (by simp only [List.length_drop]; omega) ?_ hp rfl
        rw [List.length_drop]
        exact Nat.dvd_sub hd (Nat.dvd_refl width)

end FemAssembly
