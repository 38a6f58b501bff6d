import FemAssembly.Element.Values
import FemAssembly.Element.Vertices
import FemAssembly.Proofs.Sequence.Results
import FemAssembly.Proofs.Template.Lookup

/-!
# Values by elements

The values of a kernel are cut into elements, filled in element by element and put together again.

* `ElementValues.SameShape`: values for the same candidates.
* `ElementValues.of_zeros_eq_ok`, `ElementValues.exists_zeros`: the values to start from.
* `place_eq_iff`: a place in a table determines its row. `ElementValues.position_lt`: the
  coefficients have positions in the list.
* `ElementValues.of_ofData_eq_ok`, `ElementValues.exists_ofData`: the values of a list.
* `ElementValues.get_eq_of_flatMap`: values that are given element by element.
* `VertexCoordinates.vertex_ne_outOfRange`: the vertices of an element can be read.
-/

namespace FemAssembly

variable {α : Type}

theorem chunks_replicate {width : Nat} (hwidth : 0 < width) (pieces : Nat) (x : α) :
    chunks width (List.replicate (width * pieces) x) =
      List.replicate pieces (List.replicate width x) := by
  induction pieces with
  | zero => simp
  | succ pieces ih =>
    have hne : List.replicate (width * (pieces + 1)) x ≠ [] := by
      rw [ne_eq, List.replicate_eq_nil_iff]
      exact Nat.ne_of_gt (Nat.mul_pos hwidth (Nat.succ_pos pieces))
    have hle : width ≤ width * (pieces + 1) := Nat.le_mul_of_pos_right _ (Nat.succ_pos pieces)
    rw [chunks_eq_cons hwidth hne, List.take_replicate, List.drop_replicate, Nat.min_eq_left hle,
      Nat.mul_succ, Nat.add_sub_cancel, ih, List.replicate_succ]

theorem foldl_append_toArray {β : Type} (f : β → List α) (list : List β) :
    (list.map fun b => (f b).toArray).foldl (· ++ ·) #[] = (list.flatMap f).toArray := by
  have hfrom : ∀ start : List α, (list.map fun b => (f b).toArray).foldl (· ++ ·) start.toArray =
      (start ++ list.flatMap f).toArray := by
    induction list with
    | nil => simp
    | cons b list ih =>
      intro start
      rw [List.map_cons, List.foldl_cons, List.append_toArray, ih, List.flatMap_cons,
        List.append_assoc]
  exact hfrom []

/-- Places in a table whose rows have `width` entries: entry `k` of `row` has a place of its own. -/
theorem place_eq_iff {width k k' row row' : Nat} (hk : k < width) (hk' : k' < width) :
    k + width * row = k' + width * row' ↔ k = k' ∧ row = row' := by
  constructor
  · intro h
    obtain rfl : k = k' := by
      have hmod := congrArg (· % width) h
      simpa only [Nat.add_mul_mod_self_left, Nat.mod_eq_of_lt hk, Nat.mod_eq_of_lt hk'] using hmod
    exact ⟨rfl, Nat.eq_of_mul_eq_mul_left (Nat.zero_lt_of_lt hk) (Nat.add_left_cancel h)⟩
  · rintro ⟨rfl, rfl⟩
    rfl

namespace ElementValues

/-- The values `v` and `w` have one coefficient each for the same candidates. -/
def SameShape (v w : ElementValues α) : Prop :=
  w.width = v.width ∧ w.slots = v.slots ∧ w.numElements = v.numElements

variable {width slots numElements : Nat} {v : ElementValues α}

theorem of_zeros_eq_ok [Zero α] (h : zeros width slots numElements = .ok v) :
    width * slots * numElements * 8 < Word.signedBound ∧ v.width = width ∧ v.slots = slots ∧
      v.numElements = numElements ∧ v.data = Array.replicate (width * slots * numElements) 0 := by
  obtain ⟨_, hperElement, h⟩ := bind_eq_ok_iff.mp h
  obtain ⟨-, rfl⟩ := Word.fit_eq_ok_iff.mp hperElement
  obtain ⟨_, hsize, h⟩ := bind_eq_ok_iff.mp h
  obtain ⟨-, rfl⟩ := Word.fit_eq_ok_iff.mp hsize
  obtain ⟨_, hreserve, h⟩ := bind_eq_ok_iff.mp h
  obtain rfl := Except.ok.inj h
  exact ⟨Word.reserve_eq_ok_iff.mp hreserve, rfl, rfl, rfl, rfl⟩

/-- The elements of values `v` that are all zero. -/
theorem elements_of_zeros [Zero α] (hpositive : 0 < width * slots)
    (h : zeros width slots numElements = .ok v) :
    width * slots * numElements * 8 < Word.signedBound ∧
      v.elements = List.replicate numElements (List.replicate (width * slots) 0) := by
  obtain ⟨hfits, rfl, rfl, -, hdata⟩ := of_zeros_eq_ok h
  refine ⟨hfits, ?_⟩
  rw [elements, hdata, Array.toList_replicate, Nat.max_eq_left hpositive]
  exact chunks_replicate hpositive numElements 0

/-- Too many values, `width * slots * numElements` of them, do not fit into an array. -/
theorem zeros_eq_overflow [Zero α] (h : ¬ width * slots * numElements * 8 < Word.signedBound) :
    (zeros width slots numElements : Except Error (ElementValues α)) =
      .error (.fault .overflow) := by
  unfold zeros
  by_cases hperElement : width * slots < Word.bound
  · rw [bind_of_eq_ok (Word.mul_eq_ok hperElement)]
    by_cases hsize : width * slots * numElements < Word.bound
    · rw [bind_of_eq_ok (Word.mul_eq_ok hsize), Word.reserve, if_neg h]
      rfl
    · rw [Word.mul, Word.fit, if_neg hsize]
      rfl
  · rw [Word.mul, Word.fit, if_neg hperElement]
    rfl

theorem exists_zeros [Zero α] (hperElement : width * slots < Word.bound)
    (h : width * slots * numElements * 8 < Word.signedBound) :
    ∃ v : ElementValues α, zeros width slots numElements = .ok v := by
  have hsize : width * slots * numElements < Word.bound := Word.lt_bound (by omega)
  exact ⟨_, bind_eq_ok_iff.mpr ⟨_, Word.mul_eq_ok hperElement, bind_eq_ok_iff.mpr
    ⟨_, Word.mul_eq_ok hsize, bind_eq_ok_iff.mpr ⟨_, Word.reserve_eq_ok h, rfl⟩⟩⟩⟩

theorem of_ofData_eq_ok {data : Array α} (h : ofData width slots numElements data = .ok v) :
    v.width = width ∧ v.slots = slots ∧ v.numElements = numElements ∧ v.data = data := by
  obtain ⟨_, -, h⟩ := bind_eq_ok_iff.mp h
  obtain ⟨_, -, h⟩ := bind_eq_ok_iff.mp h
  split at h
  · cases h
    exact ⟨rfl, rfl, rfl, rfl⟩
  · cases h

theorem exists_ofData {data : Array α} (hperElement : width * slots < Word.bound)
    (hsize : width * slots * numElements < Word.bound)
    (hdata : data.size = width * slots * numElements) :
    ∃ v, ofData width slots numElements data = .ok v := by
  unfold ofData
  simp only [Word.mul_eq_ok hperElement, Word.mul_eq_ok hsize, bind, Except.bind]
  rw [dif_pos hdata]
  exact ⟨_, rfl⟩

/-- The coefficients of the first `n` elements of `v` come first. -/
theorem position_lt {k row element n : Nat}
    (hk : k < v.width) (hrow : row < v.slots) (he : element < n) :
    v.position k row element < v.width * v.slots * n := by
  have hslot : row + v.slots * element < v.slots * n := by
    have := Nat.mul_le_mul_left v.slots (Nat.succ_le_of_lt he)
    rw [Nat.mul_succ] at this
    omega
  have := Nat.mul_le_mul_left v.width (Nat.succ_le_of_lt hslot)
  rw [Nat.mul_succ, ← Nat.mul_assoc] at this
  rw [position]
  omega

/-- Values that are given element by element, by `f`, read at their positions. -/
theorem get_eq_of_flatMap {n : Nat} {f : Nat → List α}
    (hlength : ∀ e, (f e).length = v.width * v.slots)
    (hdata : v.data = ((List.range n).flatMap f).toArray) {k row e : Nat} (hk : k < v.width)
    (hrow : row < v.slots) (he : e < n) :
    v.get k row e = Word.orFault (f e)[k + v.width * row]? := by
  have hplace : k + v.width * row < v.width * v.slots := by
    have := Nat.mul_le_mul_left v.width (Nat.succ_le_of_lt hrow)
    rw [Nat.mul_succ] at this
    omega
  have hposition : v.position k row e = v.width * v.slots * e + (k + v.width * row) := by
    rw [position, Nat.mul_add, Nat.mul_assoc]
    omega
  rw [get, hposition, hdata, List.getElem?_toArray, getElem?_flatMap hlength he hplace]

/-- The values `zeros` fail to be made as a size overflows, and never as an access outside of an
array. -/
theorem zeros_ne_outOfRange [Zero α] :
    (zeros width slots numElements : Except Error (ElementValues α)) ≠
      .error (.fault .outOfRange) :=
  bind_ne_error (Word.fit_ne_error nofun) fun _ _ => bind_ne_error (Word.fit_ne_error nofun)
    fun _ _ => bind_ne_error (Word.reserve_ne_error nofun) fun _ _ => nofun

theorem ofData_ne_outOfRange {data : Array α} :
    ofData width slots numElements data ≠ .error (.fault .outOfRange) := by
  refine bind_ne_error (Word.fit_ne_error nofun) fun _ _ =>
    bind_ne_error (Word.fit_ne_error nofun) fun _ _ => ?_
  split <;> nofun

end ElementValues

/-- The vertices of element `e` are in the list of all of them. -/
theorem VertexCoordinates.vertex_ne_outOfRange (c : VertexCoordinates α) {e i : Nat}
    (he : e < c.numElements) (hi : i < c.perElement) :
    c.vertex e i ≠ .error (.fault .outOfRange) := by
  have hnumber : i + c.perElement * e + 1 ≤ c.perElement * c.numElements := by
    have := Nat.mul_le_mul_left c.perElement (Nat.succ_le_of_lt he)
    rw [Nat.mul_succ] at this
    omega
  have hfits : c.dim * (i + c.perElement * e) + c.dim ≤ c.data.size := by
    rw [c.size_eq, Nat.mul_assoc, ← Nat.mul_succ]
    exact Nat.mul_le_mul_left c.dim hnumber
  refine bind_ne_error (Word.fit_ne_error nofun) fun skipped hskipped =>
    bind_ne_error (Word.fit_ne_error nofun) fun number hnumber =>
    bind_ne_error (Word.fit_ne_error nofun) fun first hfirst => ?_
  obtain ⟨-, rfl⟩ := Word.fit_eq_ok_iff.mp hskipped
  obtain ⟨-, rfl⟩ := Word.fit_eq_ok_iff.mp hnumber
  obtain ⟨-, rfl⟩ := Word.fit_eq_ok_iff.mp hfirst
  rw [if_pos hfits]
  nofun

end FemAssembly
