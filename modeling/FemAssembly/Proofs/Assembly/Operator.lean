import FemAssembly.Proofs.Assembly.Correctness
import FemAssembly.Proofs.Assembly.ExactSum
import FemAssembly.Proofs.Sparse.Sums
import FemAssembly.Restriction.Vectors

/-!
# The operator without a matrix

A vector can be multiplied without any global matrix: its values are gathered for the slots of the
elements, every element multiplies its part by its local matrix, and the products are added up at
the degrees of freedom (DOFs). The gather and the scatter see one orientation per slot, and assembly
sees one relative sign per pair. In exact arithmetic both ways give the same vector.

* `Assembler.applyElements`, `Assembler.applyWithoutMatrix`: the operator on slot values, and on
  values of DOFs.
* `Restriction.gatherValues_eq_ok`, `Assembler.applyElements_eq_ok`, `Restriction.scatterAdd_eq_ok`:
  the three stages.
* `Assembler.Assembled.entry_eq_sum`: the matrix by position, as a sum over elements and slots.
* `Assembler.apply_eq_applyWithoutMatrix`: the matrix and the operator agree.
-/

namespace FemAssembly

open Finset

variable {α γ : Type}

namespace SignedIndex

theorem orient_sum [AddCommGroup γ] {ι : Type} (s : SignedIndex) (indices : Finset ι) (f : ι → γ) :
    s.orient (∑ i ∈ indices, f i) = ∑ i ∈ indices, s.orient (f i) := by
  unfold orient
  split
  · exact (sum_neg_distrib f).symm
  · rfl

theorem orient_withIndex [Neg γ] (s : SignedIndex) {index : Nat} (h : index < Word.signedBound)
    (value : γ) : (s.withIndex index).orient value = s.orient value := by
  rw [orient, orient, isReversed_withIndex s h]

/-- The orientations of `s` and `t`, one after the other, are their relative sign. -/
theorem orient_mul_orient [Ring α] (s t : SignedIndex) (coefficient x : α) :
    s.orient (coefficient * t.orient x) = s.relativeSign t * coefficient * x := by
  unfold orient relativeSign sameOrientation
  cases s.isReversed <;> cases t.isReversed <;> simp

end SignedIndex

/-- The sum of `f` over the candidates of row `i`, by the slots `j` that they name. -/
theorem Template.sum_presentColumns [AddCommMonoid γ] {t : Template} {i : Nat} (hi : i < t.slots)
    (f : Nat → Nat → γ) :
    ((presentColumns (rowOf t.width t.mapping i)).map fun x => f x.1 x.2).sum =
      ∑ j ∈ range t.slots, if t.Lists i j then f ((t.listed i j).getD 0) j else 0 := by
  have hnodup : (presentColumns (rowOf t.width t.mapping i)).Nodup :=
    (pairwise_presentColumns _).imp fun hlt heq => Nat.ne_of_lt hlt (congrArg Prod.fst heq)
  have hk : ∀ {k j : Nat}, (rowOf t.width t.mapping i)[k]? = some (some j) →
      (t.listed i j).getD 0 = k := fun h => by rw [(listed_eq_some_iff hi).mpr h, Option.getD_some]
  rw [← List.sum_toFinset _ hnodup, ← sum_filter]
  refine sum_nbij' Prod.snd (fun j => ((t.listed i j).getD 0, j)) ?_ ?_ ?_ ?_ ?_
  · rintro ⟨k, j⟩ hmem
    have hnames := mem_presentColumns.mp (List.mem_toFinset.mp hmem)
    exact mem_filter.mpr
      ⟨mem_range.mpr (column_lt_of_getElem? hnames), lists_iff_exists.mpr ⟨k, hnames⟩⟩
  · intro j hmem
    obtain ⟨k, hnames⟩ := lists_iff_exists.mp (mem_filter.mp hmem).2
    exact List.mem_toFinset.mpr (mem_presentColumns.mpr ((hk hnames).symm ▸ hnames))
  · rintro ⟨k, j⟩ hmem
    have hnames := mem_presentColumns.mp (List.mem_toFinset.mp hmem)
    exact Prod.ext (hk hnames) rfl
  · exact fun _ _ => rfl
  · rintro ⟨k, j⟩ hmem
    have hnames := mem_presentColumns.mp (List.mem_toFinset.mp hmem)
    exact congrArg (f · j) (hk hnames).symm

namespace Restriction

variable {r : Restriction}

/-- The sum of `f` over the references of `dof`, by elements and slots. -/
theorem sum_references [AddCommMonoid γ] (dof : Nat) (f : Nat → Nat → γ) :
    ((r.references dof).map fun x => f x.1 x.2).sum =
      ∑ e ∈ range r.numElements, ∑ i ∈ range r.slots,
        if (r.dof e i).index = dof then f e i else 0 := by
  have hset : (r.references dof).toFinset = (range r.numElements ×ˢ range r.slots).filter
      fun x => (r.dof x.1 x.2).index = dof := by
    ext ⟨e, i⟩
    simp [mem_references, ReferencesAt, and_assoc]
  rw [← List.sum_toFinset _ (nodup_references dof), hset, sum_filter, sum_product]

theorem checkLengths_eq_ok {x y : Array α} (hx : x.size = r.numDofs)
    (hy : y.size = r.gather.size) : r.checkLengths x y = .ok () := by
  rw [checkLengths, if_neg (not_not.mpr hx), if_neg (not_not.mpr hy)]

/-- What the gather of `x` leaves in a slot vector, whatever was in the `buffer`. -/
theorem gatherValues_eq_ok [Zero α] [Neg α] {x buffer : Array α} (hx : x.size = r.numDofs)
    (hbuffer : buffer.size = r.gather.size) :
    r.gatherValues x buffer = .ok (r.gather.map fun s => s.orient (x.getD s.index 0)) := by
  simp only [gatherValues, checkLengths_eq_ok hx hbuffer]
  rfl

/-- Slot `i` of element `e` sees the value of its DOF in `x` with its orientation. -/
theorem getD_gather [Zero α] [Neg α] (x : Array α) {e i : Nat} (he : e < r.numElements)
    (hi : i < r.slots) :
    (r.gather.map fun s => s.orient (x.getD s.index 0)).getD (r.slots * e + i) 0 =
      (r.dof e i).orient (x.getD (r.dof e i).index 0) := by
  have h := position_lt he hi
  simp [dof, h]

/-- What the scatter of `slotValues` adds to the value of each DOF in `y`. -/
theorem scatterAdd_eq_ok [AddCommGroup α] {slotValues y : Array α} (hy : y.size = r.numDofs)
    (hslots : slotValues.size = r.gather.size) :
    r.scatterAdd slotValues y = .ok (y.mapIdx fun dof value => value +
      ∑ e ∈ range r.numElements, ∑ i ∈ range r.slots, if (r.dof e i).index = dof then
        (r.dof e i).orient (slotValues.getD (r.slots * e + i) 0) else 0) := by
  simp only [scatterAdd, checkLengths_eq_ok hy hslots]
  refine congrArg Except.ok (Array.ext (by simp) fun dof hdof _ => ?_)
  have hlt : dof < r.numDofs := by simpa [hy] using hdof
  simp only [Array.getElem_mapIdx]
  congr 1
  rw [Array.getD_eq_getD_getElem?, incident_getElem? hlt, Option.getD_some, slotSum,
    List.foldl_toArray, List.foldl_map, ← sum_references, List.sum_eq_foldl, List.foldl_map]
  apply List.foldl_ext
  rintro sum ⟨e, i⟩ hmem
  obtain ⟨he, hi, -⟩ := mem_references.mp hmem
  have hposition := position_lt_signedBound he hi
  rw [SignedIndex.index_withIndex _ hposition, SignedIndex.orient_withIndex _ hposition]

end Restriction

namespace Assembler

variable {a : Assembler α}

section

variable [Zero α] [Neg α] [Add α] [Mul α]

/-- Row `i` of the local matrix of element `e`, multiplied by the values of its slots. -/
def elementRow (a : Assembler α) (slotValues : Array α) (e i : Nat) : Except Error α := do
  let columns ← a.template.rowColumns i
  columns.foldlM (fun sum (k, j) => do
    let value ← a.values.get k i e
    pure (sum + value * slotValues.getD (a.restriction.slots * e + j) 0)) 0

/-- The products of the local matrices of all elements with the `slotValues`. -/
def applyElements (a : Assembler α) (slotValues : Array α) : Except Error (Array α) := do
  let products ← (List.range a.restriction.gather.size).mapM fun position =>
    a.elementRow slotValues (position / a.restriction.slots) (position % a.restriction.slots)
  pure products.toArray

/-- The product of the operator with the vector `x`. The slot values go through `buffer`. -/
def applyWithoutMatrix (a : Assembler α) (x buffer : Array α) : Except Error (Array α) := do
  let slotValues ← a.restriction.gatherValues x buffer
  let products ← a.applyElements slotValues
  a.restriction.scatterAdd products (Array.replicate a.numDofs 0)

end

variable [Ring α]

/-- Row `i` of the local matrix of element `e`, multiplied by the values of its slots, as a sum over
all slots. -/
def slotProduct (a : Assembler α) (slotValues : Array α) (e i : Nat) : α :=
  ∑ j ∈ range a.restriction.slots, if a.template.Lists i j then
    a.valueAt ((a.template.listed i j).getD 0) i e *
      slotValues.getD (a.restriction.slots * e + j) 0
  else 0

theorem elementRow_eq_ok (slotValues : Array α) {e i : Nat} (he : e < a.restriction.numElements)
    (hi : i < a.restriction.slots) :
    a.elementRow slotValues e i = .ok (a.slotProduct slotValues e i) := by
  have hrow : i < a.template.slots := a.template_slots ▸ hi
  have hstep : ∀ sum, ∀ x ∈ presentColumns (Template.rowOf a.template.width a.template.mapping i),
      (do let value ← a.values.get x.1 i e
          pure (sum + value * slotValues.getD (a.restriction.slots * e + x.2) 0)) =
        (.ok (sum + a.valueAt x.1 i e * slotValues.getD (a.restriction.slots * e + x.2) 0) :
          Except Error α) := by
    intro sum x hmem
    rw [get_eq_ok (Template.lt_width_of_getElem? (mem_presentColumns.mp hmem)) hi he]
    rfl
  simp only [elementRow, Template.rowColumns_eq_ok hrow]
  refine (foldlM_eq_ok_foldl hstep 0).trans (congrArg Except.ok ?_)
  rw [← List.foldl_map, ← List.sum_eq_foldl]
  refine (Template.sum_presentColumns hrow fun k j =>
    a.valueAt k i e * slotValues.getD (a.restriction.slots * e + j) 0).trans ?_
  rw [a.template_slots]
  rfl

/-- The `position` of a slot in a slot vector, taken apart. -/
theorem exists_slot_of_lt {r : Restriction} {position : Nat} (h : position < r.gather.size) :
    position / r.slots < r.numElements ∧ position % r.slots < r.slots ∧
      r.slots * (position / r.slots) + position % r.slots = position := by
  have hpos : 0 < r.slots := by
    by_contra hzero
    have := r.size_eq
    simp only [Nat.eq_zero_of_not_pos hzero, Nat.zero_mul] at this
    omega
  exact ⟨Nat.div_lt_of_lt_mul (r.size_eq ▸ h), Nat.mod_lt _ hpos, Nat.div_add_mod _ _⟩

theorem applyElements_eq_ok (slotValues : Array α) :
    ∃ products, a.applyElements slotValues = .ok products ∧
      products.size = a.restriction.gather.size ∧
      ∀ e i, e < a.restriction.numElements → i < a.restriction.slots →
        products.getD (a.restriction.slots * e + i) 0 = a.slotProduct slotValues e i := by
  have hrows : (List.range a.restriction.gather.size).mapM (fun position =>
      a.elementRow slotValues (position / a.restriction.slots) (position % a.restriction.slots)) =
      .ok ((List.range a.restriction.gather.size).map fun position =>
        a.slotProduct slotValues (position / a.restriction.slots)
          (position % a.restriction.slots)) :=
    mapM_eq_ok_map fun position hmem => by
      obtain ⟨he, hi, -⟩ := exists_slot_of_lt (List.mem_range.mp hmem)
      exact a.elementRow_eq_ok slotValues he hi
  refine ⟨_, by rw [applyElements, hrows]; rfl, by simp, fun e i he hi => ?_⟩
  have hposition := Restriction.position_lt he hi
  have hpos : 0 < a.restriction.slots := by omega
  rw [Array.getD_eq_getD_getElem?, List.getElem?_toArray, List.getElem?_map,
    List.getElem?_range hposition, Option.map_some, Option.getD_some, Nat.mul_add_div hpos,
    Nat.div_eq_of_lt hi, Nat.mul_add_mod, Nat.mod_eq_of_lt hi, Nat.add_zero]

/-- In exact arithmetic the matrix `A` of a coherent template is known by position, also where
nothing is stored. -/
theorem Assembled.entry_eq_sum {A : SparseMatrix α} (h : a.Assembled A) (hcoherent : a.Coherent)
    (row column : Nat) :
    A.entry row column = ∑ e ∈ range a.restriction.numElements, ∑ i ∈ range a.restriction.slots,
      ∑ j ∈ range a.restriction.slots,
        if a.Couples e i j row column then a.contribution e i j else 0 := by
  rw [SparseMatrix.entry]
  cases hget : A.get? row column with
  | some value =>
    rw [Option.getD_some, h.value_eq_sum zero_add hget, sum_couplings]
  | none =>
    have hnone : ∀ e i j, ¬ a.Couples e i j row column := fun e i j hcouples => by
      have hsome := (h.isSome_get?_iff hcoherent row column).mpr ⟨e, i, j, hcouples⟩
      simp [hget] at hsome
    simp [hnone]

/-- Row `row` of the matrix `A` times the vector `x`, element by element: the column of a coupling
is the DOF of its second slot. -/
theorem Assembled.sum_entry_mul {A : SparseMatrix α} (h : a.Assembled A) (hcoherent : a.Coherent)
    {x slotValues : Array α}
    (hslots : ∀ e i, e < a.restriction.numElements → i < a.restriction.slots →
      slotValues.getD (a.restriction.slots * e + i) 0 =
        (a.restriction.dof e i).orient (x.getD (a.restriction.dof e i).index 0)) (row : Nat) :
    ∑ c ∈ range a.numDofs, A.entry row c * x.getD c 0 =
      ∑ e ∈ range a.restriction.numElements, ∑ i ∈ range a.restriction.slots,
        if (a.restriction.dof e i).index = row then
          (a.restriction.dof e i).orient (a.slotProduct slotValues e i) else 0 := by
  simp only [h.entry_eq_sum hcoherent, sum_mul]
  rw [sum_comm]
  refine sum_congr rfl fun e he => ?_
  rw [sum_comm]
  refine sum_congr rfl fun i hi => ?_
  rw [mem_range] at he hi
  rw [sum_comm]
  by_cases hrow : (a.restriction.dof e i).index = row
  · rw [if_pos hrow, slotProduct, SignedIndex.orient_sum]
    refine sum_congr rfl fun j hj => ?_
    rw [mem_range] at hj
    have hcouples : ∀ c, a.Couples e i j row c ↔
        c = (a.restriction.dof e j).index ∧ a.template.Lists i j := fun c =>
      ⟨fun hc => ⟨hc.2.1.2.2.symm, hc.2.2⟩, fun hc => ⟨⟨he, hi, hrow⟩, ⟨he, hj, hc.1.symm⟩, hc.2⟩⟩
    by_cases hlists : a.template.Lists i j
    · have hlt := mem_range.mpr (Restriction.dof_index_lt he hj)
      simp only [hcouples, hlists, and_true, ite_mul, zero_mul, ↓reduceIte, hslots e j he hj,
        SignedIndex.orient_mul_orient, contribution]
      exact (sum_ite_eq' _ _ _).trans (if_pos hlt)
    · simp [hcouples, hlists, SignedIndex.orient]
  · rw [if_neg hrow]
    refine sum_eq_zero fun j _ => sum_eq_zero fun c _ => ?_
    rw [if_neg fun hcouples => hrow hcouples.1.2.2, zero_mul]

/-- With `DistinctDofs` and a template that is `Coherent`, assembly of `a` succeeds with some `A`,
multiplying `x` without a matrix succeeds whatever was in the `buffer`, and in exact arithmetic both
products are the same vector. -/
theorem apply_eq_applyWithoutMatrix (a : Assembler α) (hdistinct : a.restriction.DistinctDofs)
    (hcoherent : a.Coherent) {x buffer : Array α} (hx : x.size = a.numDofs)
    (hbuffer : buffer.size = a.restriction.gather.size) :
    ∃ A, a.assembleWithoutEssential.result = .ok A ∧
      a.applyWithoutMatrix x buffer = .ok (A.apply x) := by
  obtain ⟨A, hA⟩ := exists_result_eq_ok (hcoherent.valued hdistinct)
    (visitsOnce_of_distinctDofs hdistinct)
  have h := assembled_of_result_eq_ok hA
  obtain ⟨products, hproducts, hsize, hvalues⟩ := a.applyElements_eq_ok
    (a.restriction.gather.map fun s => s.orient (x.getD s.index 0))
  refine ⟨A, hA, ?_⟩
  simp only [applyWithoutMatrix, Restriction.gatherValues_eq_ok hx hbuffer, bind, Except.bind,
    hproducts]
  rw [Restriction.scatterAdd_eq_ok (by simp [numDofs]) hsize]
  refine congrArg Except.ok (Array.ext ?_ fun row hrow hrow' => ?_)
  · simp [SparseMatrix.size_apply, h.nrows_eq]
  rw [SparseMatrix.getElem_apply, h.ncols_eq,
    h.sum_entry_mul hcoherent fun e i => Restriction.getD_gather x]
  simp only [Array.getElem_mapIdx, Array.getElem_replicate, zero_add]
  refine sum_congr rfl fun e he => sum_congr rfl fun i hi => ?_
  rw [hvalues e i (mem_range.mp he) (mem_range.mp hi)]

/-- The matrix of `chain` takes a unit vector to its first column. -/
theorem apply_eq_applyWithoutMatrix_chain :
    ∃ A, chain.assembleWithoutEssential.result = .ok A ∧ A.apply #[1, 0, 0] = #[1, -1, 0] := by
  obtain ⟨A, hA, hproduct⟩ := apply_eq_applyWithoutMatrix chain (by decide +kernel)
    (coherent_of_dense rfl) (show (#[1, 0, 0] : Array Int).size = chain.numDofs from rfl)
    (show (#[7, 7, 7, 7] : Array Int).size = chain.restriction.gather.size from rfl)
  have hvalue : chain.applyWithoutMatrix #[1, 0, 0] #[7, 7, 7, 7] = .ok #[1, -1, 0] := by
    decide +kernel
  exact ⟨A, hA, Except.ok.inj (hproduct.symm.trans hvalue)⟩

end Assembler

end FemAssembly
