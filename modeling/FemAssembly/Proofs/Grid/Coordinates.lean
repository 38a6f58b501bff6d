import FemAssembly.Grid

/-!
# Points of a grid by their coordinates

The points of a grid and the choices of one coordinate for each direction correspond to each other.
So what is said about a point can be said direction by direction.

* `Grid.coord`: one coordinate of a point; `Grid.coords_eq_map`: the list of all of them.
* `Grid.coords_index`: the number of a list of coordinates has these coordinates.
* `Grid.point`: the point with given coordinates.
* `Grid.coord_point`, `Grid.point_coord`: these undo each other, and `Grid.eq_of_coord_eq` says that
  a point is determined by its coordinates.
* `Grid.coord_reflect`: the coordinates of the opposite point.
* `Grid.Near`: points whose coordinates differ by at most one in every direction.
-/

namespace FemAssembly

namespace Grid

variable {dim base n m d : Nat}

/-- The coordinate of point `n` in direction `d`. -/
def coord (base n d : Nat) : Nat := n / volume base d % base

/-- The point of the grid with coordinate `x d` in direction `d`. -/
def point (dim base : Nat) (x : Nat → Nat) : Nat := index base ((List.range dim).map x)

/-- The coordinates in `list`, all below `base`, give a point below `volume base list.length`. -/
theorem index_lt {list : List Nat} (h : ∀ c ∈ list, c < base) :
    index base list < volume base list.length := by
  induction list with
  | nil => exact Nat.one_pos
  | cons c rest ih =>
    obtain ⟨hfirst, hrest⟩ := List.forall_mem_cons.mp h
    have hle := Nat.mul_le_mul_left base (Nat.succ_le_of_lt (ih hrest))
    rw [Nat.mul_succ] at hle
    rw [index, List.length_cons, volume_succ, Nat.mul_comm (volume base rest.length)]
    omega

/-- The coordinates of the point `index base list` are those in `list`. -/
theorem coords_index {list : List Nat} (h : ∀ c ∈ list, c < base) :
    coords list.length base (index base list) = list := by
  induction list with
  | nil => rfl
  | cons c rest ih =>
    obtain ⟨hfirst, hrest⟩ := List.forall_mem_cons.mp h
    rw [index, List.length_cons, coords, Nat.add_mul_mod_self_left, Nat.mod_eq_of_lt hfirst,
      Nat.add_mul_div_left _ _ (Nat.zero_lt_of_lt hfirst), Nat.div_eq_of_lt hfirst, Nat.zero_add,
      ih hrest]

theorem coord_lt (hbase : 0 < base) (n d : Nat) : coord base n d < base := Nat.mod_lt _ hbase

theorem coord_zero (base n : Nat) : coord base n 0 = n % base := by
  rw [coord, volume_zero, Nat.div_one]

/-- The coordinates of `n` after the first one are those of the quotient `n / base`. -/
theorem coord_succ (base n d : Nat) : coord base n (d + 1) = coord base (n / base) d := by
  rw [coord, coord, volume_succ, Nat.mul_comm, Nat.div_div_eq_div_mul]

theorem coords_eq_map (dim base n : Nat) :
    coords dim base n = (List.range dim).map (coord base n) := by
  induction dim generalizing n with
  | zero => rfl
  | succ dim ih =>
    rw [coords, ih, List.range_succ_eq_map, List.map_cons, coord_zero, List.map_map]
    simp only [Function.comp_def, coord_succ]

/-- The coordinates of `n` and of `m`, put together by `f` direction by direction. -/
theorem zipWith_coords {β : Type} (f : Nat → Nat → β) (dim base base' n m : Nat) :
    List.zipWith f (coords dim base n) (coords dim base' m) =
      (List.range dim).map fun d => f (coord base n d) (coord base' m d) := by
  rw [coords_eq_map, coords_eq_map, List.zipWith_map, List.zipWith_self]

theorem point_succ (dim base : Nat) (x : Nat → Nat) :
    point (dim + 1) base x = x 0 + base * point dim base fun d => x (d + 1) := by
  rw [point, List.range_succ_eq_map, List.map_cons, index, List.map_map]
  rfl

theorem point_congr {x y : Nat → Nat} (h : ∀ d < dim, x d = y d) :
    point dim base x = point dim base y := by
  rw [point, point, List.map_congr_left fun d hd => h d (List.mem_range.mp hd)]

theorem point_lt {x : Nat → Nat} (h : ∀ d < dim, x d < base) :
    point dim base x < volume base dim := by
  have hlt := @index_lt base ((List.range dim).map x) fun c hc => by
    obtain ⟨d, hd, rfl⟩ := List.mem_map.mp hc
    exact h d (List.mem_range.mp hd)
  rwa [List.length_map, List.length_range] at hlt

theorem coord_point {x : Nat → Nat} (h : ∀ d < dim, x d < base) (hd : d < dim) :
    coord base (point dim base x) d = x d := by
  induction dim generalizing x d with
  | zero => cases hd
  | succ dim ih =>
    have hfirst : x 0 < base := h 0 (Nat.succ_pos dim)
    rw [point_succ]
    cases d with
    | zero => rw [coord_zero, Nat.add_mul_mod_self_left, Nat.mod_eq_of_lt hfirst]
    | succ d =>
      rw [coord_succ, Nat.add_mul_div_left _ _ (Nat.zero_lt_of_lt hfirst),
        Nat.div_eq_of_lt hfirst, Nat.zero_add]
      exact ih (fun d hd => h (d + 1) (Nat.succ_lt_succ hd)) (Nat.lt_of_succ_lt_succ hd)

theorem point_coord (h : n < volume base dim) : point dim base (coord base n) = n := by
  rw [point, ← coords_eq_map, index_coords h]

/-- A point is determined by its coordinates: `n = m` if they agree in every direction `d`. -/
theorem eq_of_coord_eq (hn : n < volume base dim) (hm : m < volume base dim)
    (h : ∀ d < dim, coord base n d = coord base m d) : n = m := by
  rw [← point_coord hn, ← point_coord hm, point_congr h]

theorem base_pos (hdim : 0 < dim) (h : n < volume base dim) : 0 < base := by
  cases dim with
  | zero => cases hdim
  | succ dim =>
    rw [volume_succ] at h
    exact Nat.pos_of_ne_zero fun hbase => by simp [hbase] at h

theorem volume_pos (hbase : 0 < base) (dim : Nat) : 0 < volume base dim := Nat.pow_pos hbase

theorem volume_one (base : Nat) : volume base 1 = base := Nat.pow_one base

theorem le_volume (hdim : 0 < dim) (base : Nat) : base ≤ volume base dim :=
  Nat.le_pow hdim

/-- The point opposite to `n` has the coordinates counted from the other end. -/
theorem coord_reflect (hn : n < volume base dim) (hd : d < dim) :
    coord base (volume base dim - 1 - n) d = base - 1 - coord base n d := by
  induction dim generalizing n d with
  | zero => cases hd
  | succ dim ih =>
    have hbase : 0 < base := base_pos (Nat.succ_pos dim) hn
    have hmod : n % base < base := Nat.mod_lt n hbase
    have hquotient : n / base < volume base dim := (Nat.div_lt_iff_lt_mul hbase).mpr hn
    -- the opposite point, split into its first coordinate and the rest
    have hsplit : volume base (dim + 1) - 1 - n =
        base - 1 - n % base + base * (volume base dim - 1 - n / base) := by
      have hdivmod := Nat.div_add_mod n base
      have hwhole : base * (volume base dim - 1 - n / base) + base * (n / base) + base =
          base * volume base dim := by
        rw [← Nat.mul_add, ← Nat.mul_succ]
        congr 1
        omega
      rw [volume_succ, Nat.mul_comm (volume base dim)]
      omega
    have hfirst : base - 1 - n % base < base := by omega
    rw [hsplit]
    cases d with
    | zero => rw [coord_zero, coord_zero, Nat.add_mul_mod_self_left, Nat.mod_eq_of_lt hfirst]
    | succ d =>
      rw [coord_succ, coord_succ, Nat.add_mul_div_left _ _ hbase, Nat.div_eq_of_lt hfirst,
        Nat.zero_add]
      exact ih hquotient (Nat.lt_of_succ_lt_succ hd)

/-! ## Neighbours -/

/-- The coordinates of `n` and `m` differ by at most one in every direction. -/
def Near (dim base n m : Nat) : Prop :=
  ∀ d < dim, coord base n d ≤ coord base m d + 1 ∧ coord base m d ≤ coord base n d + 1

instance (dim base n m : Nat) : Decidable (Near dim base n m) :=
  inferInstanceAs (Decidable (∀ d < dim, _))

theorem near_comm : Near dim base n m ↔ Near dim base m n :=
  forall₂_congr fun _ _ => And.comm

theorem near_refl (dim base n : Nat) : Near dim base n n :=
  fun _ _ => ⟨Nat.le_succ _, Nat.le_succ _⟩

theorem near_one (hn : n < base) (hm : m < base) : Near 1 base n m ↔ n ≤ m + 1 ∧ m ≤ n + 1 := by
  have hcoord : ∀ {x}, x < base → coord base x 0 = x := fun hx => by
    rw [coord_zero, Nat.mod_eq_of_lt hx]
  constructor
  · intro h
    simpa only [hcoord hn, hcoord hm] using h 0 Nat.one_pos
  · intro h d hd
    obtain rfl := Nat.lt_one_iff.mp hd
    rwa [hcoord hn, hcoord hm]

end Grid

end FemAssembly
