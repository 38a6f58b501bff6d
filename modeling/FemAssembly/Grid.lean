/-!
# Grids

The points of a grid with `base` points in each of `dim` directions are numbered so that the first
coordinate runs fastest: the number of a point has its coordinates as digits, lowest first.

* `Grid.volume`: the number of points; `Grid.numCorners`: the number of corners of a cell.
* `Grid.coords`: the coordinates of a point.
* `Grid.index`: the number of a point. `Grid.strided`: the same, added up with one stride for each
  direction (`Grid.strided_eq_index`).
* `Grid.index_coords`: the number of the coordinates of point `n` is `n`.
-/

namespace FemAssembly

namespace Grid

/-- The number of points with `base` coordinates in each of `dim` directions. -/
def volume (base dim : Nat) : Nat := Nat.pow base dim

/-- The number of corners of a cell: `2 ^ dim`. -/
def numCorners (dim : Nat) : Nat := volume 2 dim

/-- The coordinates of point `n`, `dim` of them, with the first one least significant. -/
def coords (dim base n : Nat) : List Nat :=
  match dim with
  | 0 => []
  | dim + 1 => n % base :: coords dim base (n / base)

/-- The number of the point with the given coordinates: the inverse of `coords`. -/
def index (base : Nat) : List Nat → Nat
  | [] => 0
  | c :: rest => c + base * index base rest

/-- The number of the point with the coordinates `coords`, added up while the stride grows by `base`
from direction to direction. -/
def strided (base : Nat) (coords : List Nat) : Nat :=
  (coords.foldl (fun sum c => (sum.1 + c * sum.2, sum.2 * base)) (0, 1)).1

theorem strided_eq_index (base : Nat) (coords : List Nat) :
    strided base coords = index base coords := by
  have hfrom : ∀ (coords : List Nat) (sum : Nat × Nat),
      (coords.foldl (fun sum c => (sum.1 + c * sum.2, sum.2 * base)) sum).1 =
        sum.1 + sum.2 * index base coords := by
    intro coords
    induction coords with
    | nil => exact fun _ => rfl
    | cons c rest ih =>
      intro sum
      rw [List.foldl_cons, ih, index, Nat.mul_add, Nat.add_assoc, Nat.mul_assoc, Nat.mul_comm c]
  rw [strided, hfrom, Nat.zero_add, Nat.one_mul]

@[simp] theorem length_coords (dim base n : Nat) : (coords dim base n).length = dim := by
  induction dim generalizing n with
  | zero => rfl
  | succ dim ih => simp [coords, ih]

@[simp] theorem volume_zero (base : Nat) : volume base 0 = 1 := rfl

theorem volume_succ (base dim : Nat) : volume base (dim + 1) = volume base dim * base := rfl

theorem index_coords {dim base n : Nat} (h : n < volume base dim) :
    index base (coords dim base n) = n := by
  induction dim generalizing n with
  | zero =>
    rw [volume_zero, Nat.lt_one_iff] at h
    rw [h, coords, index]
  | succ dim ih =>
    rw [volume_succ] at h
    have hb : 0 < base := Nat.pos_of_ne_zero fun hb => by simp [hb] at h
    have : n / base < volume base dim := (Nat.div_lt_iff_lt_mul hb).mpr h
    rw [coords, index, ih this, Nat.mod_add_div]

theorem lt_of_mem_coords {dim base n c : Nat} (hb : 0 < base) (h : c ∈ coords dim base n) :
    c < base := by
  induction dim generalizing n with
  | zero => simp [coords] at h
  | succ dim ih =>
    rcases List.mem_cons.mp h with rfl | h
    · exact Nat.mod_lt _ hb
    · exact ih h

end Grid

end FemAssembly
