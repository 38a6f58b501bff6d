import FemAssembly.Proofs.Assembly.Operator
import FemAssembly.Proofs.Restriction.Transpose
import Mathlib

/-!
# Gather and scatter are adjoint

The gather walks the gather map, and the scatter walks the lists of the degrees of freedom (DOFs),
which hold orientations of their own. The lists hold every slot once, at its DOF and with its
orientation, so as linear maps the two are transposes of each other: what a slot vector sees of the
gathered values is what the values see of the scattered slot vector.

* `innerProduct`: the inner product of two vectors.
* `Restriction.innerProduct_gather`, `Restriction.innerProduct_scatter`: both sides as one sum over
  the slots of all elements.
* `Restriction.gatherValues_adjoint_scatterAdd`: the two operations are adjoint, whatever the
  scatter adds to.
-/

namespace FemAssembly

open Finset

variable {α γ : Type}

/-- The inner product of the vectors `x` and `y` of one length. -/
def innerProduct [AddCommMonoid α] [Mul α] (x y : Array α) : α :=
  ∑ i ∈ range x.size, x.getD i 0 * y.getD i 0

/-- In an inner product, the orientation of `s` may move from the factor `x` to the factor `y`. -/
theorem SignedIndex.orient_mul [Ring α] (s : SignedIndex) (x y : α) :
    s.orient x * y = x * s.orient y := by
  unfold orient
  split
  · rw [neg_mul, mul_neg]
  · rfl

namespace Restriction

variable (r : Restriction)

/-- The sum of `f` over the positions of the gather map, by elements and slots. -/
theorem sum_positions [AddCommMonoid γ] (f : Nat → γ) :
    ∑ position ∈ range r.gather.size, f position =
      ∑ e ∈ range r.numElements, ∑ i ∈ range r.slots, f (r.slots * e + i) := by
  rw [r.size_eq]
  induction r.numElements with
  | zero => rfl
  | succ n ih => rw [Nat.mul_succ, sum_range_add, ih, sum_range_succ]

variable [CommRing α]

/-- What `slotValues` sees of the gathered `values` of the DOFs. -/
theorem innerProduct_gather (values slotValues : Array α) :
    innerProduct (r.gather.map fun s => s.orient (values.getD s.index 0)) slotValues =
      ∑ e ∈ range r.numElements, ∑ i ∈ range r.slots, values.getD (r.dof e i).index 0 *
        (r.dof e i).orient (slotValues.getD (r.slots * e + i) 0) := by
  unfold innerProduct
  rw [Array.size_map, r.sum_positions]
  refine sum_congr rfl fun e he => sum_congr rfl fun i hi => ?_
  rw [getD_gather values (mem_range.mp he) (mem_range.mp hi), SignedIndex.orient_mul]

/-- What `values` of the DOFs see of the scattered `slotValues`: each slot counts at its own DOF,
and at no other one. -/
theorem innerProduct_scatter {values : Array α} (hvalues : values.size = r.numDofs)
    (slotValues : Array α) :
    (∑ dof ∈ range values.size, values.getD dof 0 *
      ∑ e ∈ range r.numElements, ∑ i ∈ range r.slots, if (r.dof e i).index = dof then
        (r.dof e i).orient (slotValues.getD (r.slots * e + i) 0) else 0) =
      ∑ e ∈ range r.numElements, ∑ i ∈ range r.slots, values.getD (r.dof e i).index 0 *
        (r.dof e i).orient (slotValues.getD (r.slots * e + i) 0) := by
  simp only [mul_sum]
  rw [sum_comm]
  refine sum_congr rfl fun e he => ?_
  rw [sum_comm]
  refine sum_congr rfl fun i hi => ?_
  have hdof : (r.dof e i).index ∈ range values.size := by
    rw [hvalues, mem_range]
    exact dof_index_lt (mem_range.mp he) (mem_range.mp hi)
  simp only [mul_ite, mul_zero]
  rw [sum_ite_eq, if_pos hdof]

/-- Gathering `values` into any `buffer` and scattering `slotValues` onto any `initial` vector
succeed, and the change that the scatter makes is the transpose of the gather. -/
theorem gatherValues_adjoint_scatterAdd {values initial slotValues buffer : Array α}
    (hvalues : values.size = r.numDofs) (hinitial : initial.size = r.numDofs)
    (hslotValues : slotValues.size = r.gather.size) (hbuffer : buffer.size = r.gather.size) :
    ∃ gathered scattered, r.gatherValues values buffer = .ok gathered ∧
      r.scatterAdd slotValues initial = .ok scattered ∧
      gathered.size = r.gather.size ∧ scattered.size = r.numDofs ∧
      innerProduct gathered slotValues =
        innerProduct values (Array.zipWith (· - ·) scattered initial) := by
  refine ⟨_, _, gatherValues_eq_ok hvalues hbuffer, scatterAdd_eq_ok hinitial hslotValues,
    Array.size_map, by rw [Array.size_mapIdx, hinitial], ?_⟩
  rw [r.innerProduct_gather, ← r.innerProduct_scatter hvalues]
  unfold innerProduct
  refine sum_congr rfl fun dof hdof => ?_
  have hlt : dof < initial.size := by
    rw [hinitial, ← hvalues]
    exact mem_range.mp hdof
  -- the initial value cancels, and what the scatter added is left
  congr 1
  simp [Array.getD, hlt]

/-- The DOF `1` is referenced by three slots, once reversed, the DOF `0` by one reversed slot, and
the DOF `2` by none. -/
def folded : Restriction where
  numDofs := 3
  slots := 2
  gather := foldedGather
  incident := incidenceTable 3 foldedGather
  slots_dvd := by decide
  index_lt := by decide
  size_lt := by decide
  incident_eq := rfl

theorem gatherValues_adjoint_scatterAdd_folded :
    (ofGatherMap 3 2 foldedGather).result = .ok folded ∧
    ∃ gathered scattered : Array Int,
      folded.gatherValues #[5, 7, 11] #[0, 0, 0, 0] = .ok gathered ∧
      folded.scatterAdd #[1, 10, 100, 1000] #[2, 3, 4] = .ok scattered ∧
      gathered = #[7, -5, 7, -7] ∧ scattered = #[-8, -896, 4] ∧
      innerProduct gathered #[1, 10, 100, 1000] = -6343 ∧
      innerProduct #[5, 7, 11] (Array.zipWith (· - ·) scattered #[2, 3, 4]) = -6343 := by
  obtain ⟨gathered, scattered, hgathered, hscattered, -, -, hinner⟩ :=
    folded.gatherValues_adjoint_scatterAdd
      (show (#[5, 7, 11] : Array Int).size = 3 from rfl) (show #[2, 3, 4].size = 3 from rfl)
      (show #[1, 10, 100, 1000].size = 4 from rfl) (show #[0, 0, 0, 0].size = 4 from rfl)
  have hgathered' : gathered = #[7, -5, 7, -7] := by
    rw [gatherValues_eq_ok (α := Int) (show #[5, 7, 11].size = folded.numDofs from rfl)
      (show #[0, 0, 0, 0].size = folded.gather.size from rfl)] at hgathered
    rw [← Except.ok.inj hgathered]
    decide +kernel
  have hscattered' : scattered = #[-8, -896, 4] := Except.ok.inj (hscattered.symm.trans rfl)
  have hleft : innerProduct gathered #[1, 10, 100, 1000] = -6343 := by
    rw [hgathered']
    decide +kernel
  exact ⟨rfl, gathered, scattered, hgathered, hscattered, hgathered', hscattered', hleft,
    hinner.symm.trans hleft⟩

end Restriction

end FemAssembly
