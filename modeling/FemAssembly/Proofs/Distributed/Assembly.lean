import FemAssembly.Distributed.Assembly
import FemAssembly.Proofs.Assembly.Operator
import FemAssembly.Proofs.Distributed.Choice
import FemAssembly.Proofs.Distributed.Dirichlet

/-!
# Distributed assembly

A mesh can be cut into parts, one for each rank, in which every rank numbers its degrees of freedom
(DOFs) as it likes. The ranks assemble their parts and put them together, and what they get is the
matrix of the whole mesh.

* `Collective.assembleDistributed`: what the ranks get from their parts.
* `Assembler.Share`, `Numbers`: the part of a rank, and the prolongation of its numbering.
* `Assembler.Share.entry_localProduct`: the product of a part, as a sum over its elements.
* `Assembler.Decomposition`: a mesh that is cut into parts.
* `Assembler.Decomposition.exists_whole`: what the ranks hold before and after elimination.
* `Assembler.distributed_eq_serial`: the ranks together hold the matrix of the mesh.
* `Assembler.Decomposition.eliminated_eq_serial`: elimination over ranks is serial elimination, with
  ones on the diagonal.
-/

namespace FemAssembly

open Finset

/-! ## All ranks -/

section

variable {α β σ : Type} [Ring α] [BEq α] [LawfulBEq α] [Plain β UInt8] [LawfulPlain β UInt8]
  [Plain β Nat] [LawfulIndices β] [Plain β α] [LawfulPlain β α] {starts : Array Nat} {size : Nat}

/-- The ranks assemble their parts to `block rank`, add up their products and eliminate their
`essential` rows. -/
theorem Collective.assembleDistributed (hstarts : RowStarts starts size)
    (hreserve : (globalSize starts + 1) * 8 < Word.signedBound) {part : Nat → Assembler α}
    {block : Nat → SparseMatrix α} {layout : Nat → Layout α} (essential : Nat → List Nat)
    (hblock : ∀ rank < size, (part rank).assembleWithoutEssential.result = .ok (block rank))
    (hlayout : ∀ rank < size, (layout rank).rowStarts = starts)
    (hP : ∀ rank < size, ((layout rank).effective rank).nrows = (block rank).nrows ∧
      ((layout rank).effective rank).ncols = globalSize starts ∧
      (block rank).nrows = (block rank).ncols)
    (hessential : ∀ rank < size, ∀ row ∈ essential rank,
      row < starts.getD (rank + 1) 0 - starts.getD rank 0) :
    ∃ whole, Parts starts size whole ∧
      HoldsSum starts size (fun rank =>
        DistributedMatrix.localProduct (block rank) ((layout rank).effective rank)) whole ∧
      Collective size (fun rank => ((part rank).assembleDistributed ⟨rank, size⟩ (layout rank)
          (essential rank) : RankProgram β σ (DistributedMatrix α)))
        fun rank => (whole rank).afterElimination starts essential (essential rank)
          (part rank).options.columnElimination := by
  obtain ⟨whole, hwhole, hparts, hsum⟩ := Collective.fromLocalBlock (β := β) (σ := σ) hstarts
    hlayout (Word.le_bound_of_fits hreserve) (fun _ => false) hP fun _ => hreserve
  refine ⟨whole, hparts, hsum, ?_⟩
  have heliminate := Collective.eliminate (β := β) (σ := σ) essential
    (fun rank => (part rank).options.columnElimination) hstarts hparts
    fun rank hrank row hrow => by
      rw [hparts.numLocalRows_eq hrank]
      exact hessential rank hrank row hrow
  have hfinish := Passes.bind (k := fun rank matrix => do
      RankProgram.noteEvent (.distributed rank size matrix.numLocalRows matrix.globalSize
        matrix.diagonal.nnz matrix.offDiagonal.nnz)
      pure matrix) heliminate
    (Passes.of_silent fun rank _ => (RankProgram.Exchanges.note _).bind_of_silent (.pure _))
  have hmatrix := Passes.bind (k := fun rank whole => do
      let matrix ← whole.eliminate (essential rank) (part rank).options.columnElimination
      RankProgram.noteEvent (.distributed rank size matrix.numLocalRows matrix.globalSize
        matrix.diagonal.nnz matrix.offDiagonal.nnz)
      pure matrix) hwhole hfinish
  exact Passes.bind (k := fun rank block => do
      let whole ← DistributedMatrix.fromLocalBlock ⟨rank, size⟩ (layout rank) block false
      let matrix ← whole.eliminate (essential rank) (part rank).options.columnElimination
      RankProgram.noteEvent (.distributed rank size matrix.numLocalRows matrix.globalSize
        matrix.diagonal.nnz matrix.offDiagonal.nnz)
      pure matrix)
    (Passes.of_silent fun rank hrank => .ofNoted (hblock rank hrank)) hmatrix

end

/-! ## Parts of a mesh -/

/-- The matrix `P` is the prolongation of a numbering: row `i` has a one at column `number i`, and
zeros elsewhere. -/
structure Numbers {α : Type} [Zero α] [One α] (P : SparseMatrix α) (nrows ncols : Nat)
    (number : Nat → Nat) : Prop where
  nrows_eq : P.nrows = nrows
  ncols_eq : P.ncols = ncols
  entry_eq : ∀ i < nrows, ∀ c, P.entry i c = if number i = c then 1 else 0

/-- Nothing but the ones of a numbering is stored in `P`. -/
def StoresOnes {α : Type} (P : SparseMatrix α) (number : Nat → Nat) : Prop :=
  ∀ i < P.nrows, ∀ c, (P.get? i c).isSome ↔ number i = c

section

variable {α : Type} {nrows ncols : Nat} {number : Nat → Nat} (h : ∀ i < nrows, number i < ncols)
include h

theorem numbers_numbering [MonoidWithZero α] [Add α] :
    Numbers (numbering nrows ncols number : SparseMatrix α) nrows ncols number := by
  refine ⟨by simp [numbering], by simp [numbering], fun i hi c => ?_⟩
  rw [SparseMatrix.entry, get?_numbering h]
  by_cases hc : number i = c
  · simp [hi, hc]
  · simp [hc, Ne.symm hc]

theorem storesOnes_numbering [One α] [Add α] :
    StoresOnes (numbering nrows ncols number : SparseMatrix α) number := by
  intro i hi c
  have hi : i < nrows := by simpa [numbering] using hi
  rw [get?_numbering h]
  by_cases hc : number i = c
  · simp [hi, hc]
  · simp [hc, Ne.symm hc]

end

namespace Assembler

variable {α : Type} {a b : Assembler α} {elements : List Nat} {number : Nat → Nat}

/-- The assembler `b` has some `elements` of `a`, in their order. Its DOF `i` is the DOF `number i`
of `a`. -/
structure Share (a b : Assembler α) (elements : List Nat) (number : Nat → Nat) : Prop where
  template_eq : b.template = a.template
  numElements_eq : b.restriction.numElements = elements.length
  element_lt : ∀ e ∈ elements, e < a.restriction.numElements
  dof_eq : ∀ k e, elements[k]? = some e → ∀ i < a.restriction.slots,
    number (b.restriction.dof k i).index = (a.restriction.dof e i).index ∧
      (b.restriction.dof k i).isReversed = (a.restriction.dof e i).isReversed
  values_eq : ∀ k e, elements[k]? = some e → ∀ i < a.restriction.slots, ∀ l < a.template.width,
    b.values.get l i k = a.values.get l i e

namespace Share

variable (h : Share a b elements number)
include h

theorem slots_eq : b.restriction.slots = a.restriction.slots := by
  rw [← b.template_slots, ← a.template_slots, h.template_eq]

theorem exists_element {k : Nat} (hk : k < b.restriction.numElements) :
    ∃ e, elements[k]? = some e ∧ e < a.restriction.numElements := by
  rw [h.numElements_eq] at hk
  exact ⟨elements[k], List.getElem?_eq_getElem hk, h.element_lt _ (List.getElem_mem hk)⟩

theorem lt_numElements {k e : Nat} (hk : elements[k]? = some e) :
    k < b.restriction.numElements ∧ e < a.restriction.numElements :=
  ⟨h.numElements_eq ▸ (List.getElem?_eq_some_iff.mp hk).1, h.element_lt e (List.mem_of_getElem? hk)⟩

/-- Slot `i` of element `k` of the part references a DOF where the same slot of element `e` of the
whole references its number. -/
theorem referencesAt {k e i dof : Nat} (hk : elements[k]? = some e)
    (href : b.restriction.ReferencesAt k i dof) : a.restriction.ReferencesAt e i (number dof) := by
  obtain ⟨-, hi, rfl⟩ := href
  rw [h.slots_eq] at hi
  exact ⟨(h.lt_numElements hk).2, hi, (h.dof_eq k e hk i hi).1.symm⟩

theorem referencesAt_of_whole {k e i dof : Nat} (hk : elements[k]? = some e)
    (href : a.restriction.ReferencesAt e i dof) :
    b.restriction.ReferencesAt k i (b.restriction.dof k i).index ∧
      number (b.restriction.dof k i).index = dof := by
  obtain ⟨-, hi, rfl⟩ := href
  exact ⟨⟨(h.lt_numElements hk).1, h.slots_eq ▸ hi, rfl⟩, (h.dof_eq k e hk i hi).1⟩

theorem couples {k e i j row column : Nat} (hk : elements[k]? = some e)
    (hcouples : b.Couples k i j row column) : a.Couples e i j (number row) (number column) :=
  ⟨h.referencesAt hk hcouples.1, h.referencesAt hk hcouples.2.1, h.template_eq ▸ hcouples.2.2⟩

/-- A part `b` inherits from `a` that no element references a DOF twice. -/
theorem distinctDofs (hdistinct : a.restriction.DistinctDofs) : b.restriction.DistinctDofs := by
  intro k i j dof hi hj
  obtain ⟨e, hk, -⟩ := h.exists_element hi.1
  exact hdistinct e i j _ (h.referencesAt hk hi) (h.referencesAt hk hj)

/-- A part `b` inherits coherence from `a`. -/
theorem coherent (hdistinct : a.restriction.DistinctDofs) (hcoherent : a.Coherent) :
    b.Coherent := by
  have hpart : ∀ row column k k', b.restriction.References k row →
      b.restriction.References k column → b.restriction.References k' row →
      b.restriction.References k' column → b.Asserts k row column → b.Asserts k' row column := by
    rintro row column k k' ⟨s, hs⟩ ⟨t, ht⟩ ⟨i, hi⟩ ⟨j, hj⟩ ⟨s', t', hcouples⟩
    obtain ⟨e, hk, -⟩ := h.exists_element hs.1
    obtain ⟨e', hk', -⟩ := h.exists_element hi.1
    obtain ⟨i', j', hcouples'⟩ := (hcoherent (number row) (number column) e e'
      ⟨s, h.referencesAt hk hs⟩ ⟨t, h.referencesAt hk ht⟩ ⟨i, h.referencesAt hk' hi⟩
      ⟨j, h.referencesAt hk' hj⟩).mp ⟨s', t', h.couples hk hcouples⟩
    obtain rfl := hdistinct _ _ _ _ (h.referencesAt hk' hi) hcouples'.1
    obtain rfl := hdistinct _ _ _ _ (h.referencesAt hk' hj) hcouples'.2.1
    exact ⟨i, j, hi, hj, h.template_eq ▸ hcouples'.2.2⟩
  exact fun row column k k' hrow hcolumn hrow' hcolumn' =>
    ⟨hpart row column k k' hrow hcolumn hrow' hcolumn',
      hpart row column k' k hrow' hcolumn' hrow hcolumn⟩

/-- Element `k` of the part has the contributions of element `e` of the whole. -/
theorem contribution_eq [Zero α] [One α] [Neg α] [Mul α] {k e i j : Nat}
    (hk : elements[k]? = some e) (hi : i < a.restriction.slots) (hj : j < a.restriction.slots)
    (hlists : a.template.Lists i j) :
    b.contribution k i j = a.contribution e i j := by
  obtain ⟨l, hnames⟩ := Template.lists_iff_exists.mp hlists
  have hwidth := Template.lt_width_of_getElem? hnames
  have hl := (Template.listed_eq_some_iff (a.template_slots ▸ hi)).mpr hnames
  have hvalue : b.valueAt l i k = a.valueAt l i e := by
    have hget := h.values_eq k e hk i hi l hwidth
    rw [b.get_eq_ok (h.template_eq ▸ hwidth) (h.slots_eq ▸ hi) (h.lt_numElements hk).1,
      a.get_eq_ok hwidth hi (h.lt_numElements hk).2] at hget
    exact Except.ok.inj hget
  have hsign : ((b.restriction.dof k i).relativeSign (b.restriction.dof k j) : α) =
      (a.restriction.dof e i).relativeSign (a.restriction.dof e j) := by
    unfold SignedIndex.relativeSign SignedIndex.sameOrientation
    rw [(h.dof_eq k e hk i hi).2, (h.dof_eq k e hk j hj).2]
  rw [contribution, contribution, hsign, h.template_eq, hl, Option.getD_some, hvalue]

end Share

/-! ## Products of parts -/

variable [Ring α]

/-- What element `e` adds to the pair of `row` and `column`. -/
def elementSum (a : Assembler α) (row column e : Nat) : α :=
  ∑ i ∈ range a.restriction.slots, ∑ j ∈ range a.restriction.slots,
    if a.Couples e i j row column then a.contribution e i j else 0

/-- A sum over a third index set `K` can be taken last. -/
theorem sum_rotate {γ ι : Type} [AddCommMonoid γ] (I J K : Finset ι) (f : ι → ι → ι → γ) :
    ∑ i ∈ I, ∑ j ∈ J, ∑ k ∈ K, f i j k = ∑ k ∈ K, ∑ i ∈ I, ∑ j ∈ J, f i j k :=
  (sum_congr rfl fun _ _ => sum_comm).trans sum_comm

/-- Entries of the matrix `A` at positions chosen by `p` and `q`, as a sum over elements and slots.
-/
theorem Assembled.sum_entry_ite {A : SparseMatrix α} (hA : a.Assembled A) (hcoherent : a.Coherent)
    (p q : Nat → Prop) [DecidablePred p] [DecidablePred q] :
    ∑ i ∈ range a.numDofs, ∑ j ∈ range a.numDofs, (if p i ∧ q j then A.entry i j else 0) =
      ∑ e ∈ range a.restriction.numElements, ∑ s ∈ range a.restriction.slots,
        ∑ t ∈ range a.restriction.slots, if a.template.Lists s t ∧
          p (a.restriction.dof e s).index ∧ q (a.restriction.dof e t).index then
          a.contribution e s t else 0 := by
  have hterm : ∀ i j, (if p i ∧ q j then A.entry i j else 0) =
      ∑ e ∈ range a.restriction.numElements, ∑ s ∈ range a.restriction.slots,
        ∑ t ∈ range a.restriction.slots,
          if (p i ∧ q j) ∧ a.Couples e s t i j then a.contribution e s t else 0 := by
    intro i j
    by_cases h : p i ∧ q j
    · simp only [h, and_self, true_and, if_true, hA.entry_eq_sum hcoherent]
    · simp only [h, false_and, if_false, sum_const_zero]
  simp only [hterm]
  rw [sum_rotate]
  refine sum_congr rfl fun e he => ?_
  rw [sum_rotate]
  refine sum_congr rfl fun s hs => ?_
  rw [sum_rotate]
  refine sum_congr rfl fun t ht => ?_
  -- the slots are those of one row and one column
  rw [mem_range] at he hs ht
  have hrow : (a.restriction.dof e s).index ∈ range a.numDofs :=
    mem_range.mpr (Restriction.dof_index_lt he hs)
  have hcolumn : (a.restriction.dof e t).index ∈ range a.numDofs :=
    mem_range.mpr (Restriction.dof_index_lt he ht)
  have hsplit : ∀ i j, (if (p i ∧ q j) ∧ a.Couples e s t i j then a.contribution e s t else 0) =
      if i = (a.restriction.dof e s).index then if j = (a.restriction.dof e t).index then
        if a.template.Lists s t ∧ p (a.restriction.dof e s).index ∧
          q (a.restriction.dof e t).index then a.contribution e s t else 0 else 0 else 0 := by
    intro i j
    have hcouples : a.Couples e s t i j ↔ i = (a.restriction.dof e s).index ∧
        j = (a.restriction.dof e t).index ∧ a.template.Lists s t :=
      ⟨fun h => ⟨h.1.2.2.symm, h.2.1.2.2.symm, h.2.2⟩,
        fun h => ⟨⟨he, hs, h.1.symm⟩, ⟨he, ht, h.2.1.symm⟩, h.2.2⟩⟩
    rw [← ite_and, ← ite_and]
    refine if_congr ?_ rfl rfl
    rw [hcouples]
    constructor
    · rintro ⟨⟨hp, hq⟩, rfl, rfl, hlists⟩
      exact ⟨⟨rfl, rfl⟩, hlists, hp, hq⟩
    · rintro ⟨⟨rfl, rfl⟩, hlists, hp, hq⟩
      exact ⟨⟨hp, hq⟩, rfl, rfl, hlists⟩
  simp only [hsplit, sum_ite_irrel, sum_const_zero, sum_ite_eq', hrow, hcolumn, if_true]

/-- The product of the matrix `A` of a part is the sum of what its `elements` add. -/
theorem Share.entry_localProduct (h : Share a b elements number) {A P : SparseMatrix α}
    (hA : b.Assembled A) (hcoherent : b.Coherent) {N : Nat} (hP : Numbers P b.numDofs N number)
    (row column : Nat) :
    (DistributedMatrix.localProduct A P).entry row column =
      (elements.map (a.elementSum row column)).sum := by
  have hproduct : (DistributedMatrix.localProduct A P).entry row column =
      ∑ i ∈ range b.numDofs, ∑ j ∈ range b.numDofs,
        if number i = row ∧ number j = column then A.entry i j else 0 := by
    rw [DistributedMatrix.entry_localProduct, hP.nrows_eq, hA.ncols_eq]
    refine sum_congr rfl fun i hi => ?_
    rw [hP.entry_eq i (mem_range.mp hi), ite_mul, one_mul, zero_mul]
    by_cases hrow : number i = row
    · simp only [hrow, true_and, if_true]
      refine sum_congr rfl fun j hj => ?_
      rw [hP.entry_eq j (mem_range.mp hj), mul_ite, mul_one, mul_zero]
    · simp only [hrow, false_and, if_false, sum_const_zero]
  have helement : ∀ k, (hk : k < elements.length) → (∑ s ∈ range b.restriction.slots,
      ∑ t ∈ range b.restriction.slots, if b.template.Lists s t ∧
        number (b.restriction.dof k s).index = row ∧
        number (b.restriction.dof k t).index = column then b.contribution k s t else 0) =
      a.elementSum row column elements[k] := by
    intro k hk
    have hk' := List.getElem?_eq_getElem hk
    rw [elementSum, h.slots_eq]
    refine sum_congr rfl fun s hs => sum_congr rfl fun t ht => ?_
    rw [mem_range] at hs ht
    have hrow := (h.dof_eq k _ hk' s hs).1
    have hcolumn := (h.dof_eq k _ hk' t ht).1
    have he := (h.lt_numElements hk').2
    have hcouples : a.Couples elements[k] s t row column ↔ b.template.Lists s t ∧
        number (b.restriction.dof k s).index = row ∧
        number (b.restriction.dof k t).index = column := by
      rw [hrow, hcolumn, h.template_eq]
      exact ⟨fun hc => ⟨hc.2.2, hc.1.2.2, hc.2.1.2.2⟩,
        fun hc => ⟨⟨he, hs, hc.2.1⟩, ⟨he, ht, hc.2.2⟩, hc.1⟩⟩
    by_cases hc : a.Couples elements[k] s t row column
    · rw [if_pos hc, if_pos (hcouples.mp hc), h.contribution_eq hk' hs ht hc.2.2]
    · rw [if_neg hc, if_neg fun hlists => hc (hcouples.mpr hlists)]
  rw [hproduct, hA.sum_entry_ite hcoherent, h.numElements_eq, sum_range,
    ← Fin.sum_univ_fun_getElem]
  exact sum_congr rfl fun k _ => helement k k.isLt

/-- The product of the matrix `A` of a part stores what its `elements` name, where the prolongation
`P` stores ones only. -/
theorem Share.isSome_get?_localProduct (h : Share a b elements number) {A P : SparseMatrix α}
    (hA : b.Assembled A) (hcoherent : b.Coherent) (hnrows : P.nrows = b.numDofs)
    (hones : StoresOnes P number) (row column : Nat) :
    ((DistributedMatrix.localProduct A P).get? row column).isSome ↔
      ∃ e ∈ elements, a.Asserts e row column := by
  have hstored : ∀ {i c}, i < b.numDofs → ((P.get? i c).isSome ↔ number i = c) := fun hi =>
    hones _ (hnrows ▸ hi) _
  rw [DistributedMatrix.isSome_get?_localProduct]
  constructor
  · rintro ⟨i, j, hi, hsome, hj⟩
    obtain ⟨k, s, t, hcouples⟩ := (hA.isSome_get?_iff hcoherent i j).mp hsome
    obtain ⟨e, hk, -⟩ := h.exists_element hcouples.1.1
    have hcouples' := h.couples hk hcouples
    rw [(hstored hcouples.1.dof_lt).mp hi, (hstored hcouples.2.1.dof_lt).mp hj] at hcouples'
    exact ⟨e, List.mem_of_getElem? hk, s, t, hcouples'⟩
  · rintro ⟨e, he, s, t, hcouples⟩
    obtain ⟨k, hk⟩ := List.getElem?_of_mem he
    obtain ⟨hs, hrow⟩ := h.referencesAt_of_whole hk hcouples.1
    obtain ⟨ht, hcolumn⟩ := h.referencesAt_of_whole hk hcouples.2.1
    exact ⟨_, _, (hstored hs.dof_lt).mpr hrow, (hA.isSome_get?_iff hcoherent _ _).mpr
      ⟨k, s, t, hs, ht, h.template_eq ▸ hcouples.2.2⟩, (hstored ht.dof_lt).mpr hcolumn⟩

/-! ## Whole meshes -/

/-- The elements of `rank`, in their order. -/
def elementsOf (a : Assembler α) (rankOf : Nat → Nat) (rank : Nat) : List Nat :=
  (List.range a.restriction.numElements).filter fun e => rankOf e == rank

/-- Elements of `a` and rows are shared out to `size` ranks, by `rankOf` and `starts`. Every rank
has the assembler `part rank` of its elements, in a numbering of its own, and the prolongation of
this numbering. -/
structure Decomposition (a : Assembler α) (starts : Array Nat) (size : Nat) (rankOf : Nat → Nat)
    (part : Nat → Assembler α) (number : Nat → Nat → Nat) (layout : Nat → Layout α) : Prop where
  rankOf_lt : ∀ e < a.restriction.numElements, rankOf e < size
  share : ∀ rank < size, a.Share (part rank) (a.elementsOf rankOf rank) (number rank)
  starts_eq_ok : checkRowStarts starts size = .ok ()
  globalSize_eq : globalSize starts = a.numDofs
  rowStarts_eq : ∀ rank < size, (layout rank).rowStarts = starts
  numbers : ∀ rank < size,
    Numbers ((layout rank).effective rank) (part rank).numDofs a.numDofs (number rank)

/-- What the elements of all ranks add to the pair of `row` and `column` is what all elements add.
-/
theorem sum_elementsOf {rankOf : Nat → Nat} {size : Nat}
    (hrank : ∀ e < a.restriction.numElements, rankOf e < size) (row column : Nat) :
    ∑ rank ∈ range size, ((a.elementsOf rankOf rank).map (a.elementSum row column)).sum =
      ∑ e ∈ range a.restriction.numElements, a.elementSum row column e := by
  have hlist : ∀ rank, ((a.elementsOf rankOf rank).map (a.elementSum row column)).sum =
      ∑ e ∈ range a.restriction.numElements,
        if rankOf e = rank then a.elementSum row column e else 0 := by
    intro rank
    rw [elementsOf, sum_map_filter, ← List.sum_toFinset _ List.nodup_range, List.toFinset_range]
    simp only [beq_iff_eq]
  simp only [hlist]
  rw [sum_comm]
  refine sum_congr rfl fun e he => ?_
  rw [sum_ite_eq, if_pos (mem_range.mpr (hrank e (mem_range.mp he)))]

/-- The products of all ranks store what the elements of `a` name. -/
theorem Decomposition.exists_asserts_iff {starts : Array Nat} {size : Nat} {rankOf : Nat → Nat}
    {part : Nat → Assembler α} {number : Nat → Nat → Nat} {layout : Nat → Layout α}
    (h : a.Decomposition starts size rankOf part number layout) {block : Nat → SparseMatrix α}
    (hassembled : ∀ rank < size, (part rank).Assembled (block rank))
    (hpart : ∀ rank < size, (part rank).Coherent)
    (hones : ∀ rank < size, StoresOnes ((layout rank).effective rank) (number rank))
    (row column : Nat) :
    (∃ rank < size, ((DistributedMatrix.localProduct (block rank)
      ((layout rank).effective rank)).get? row column).isSome) ↔ ∃ e, a.Asserts e row column := by
  have hproduct := fun rank hrank => (h.share rank hrank).isSome_get?_localProduct
    (hassembled rank hrank) (hpart rank hrank) (h.numbers rank hrank).nrows_eq (hones rank hrank)
    row column
  constructor
  · rintro ⟨rank, hrank, hsome⟩
    obtain ⟨e, -, hasserts⟩ := (hproduct rank hrank).mp hsome
    exact ⟨e, hasserts⟩
  · rintro ⟨e, hasserts⟩
    obtain ⟨_, _, hcouples⟩ := id hasserts
    have he := hcouples.1.1
    refine ⟨rankOf e, h.rankOf_lt e he, (hproduct _ (h.rankOf_lt e he)).mpr ⟨e, ?_, hasserts⟩⟩
    simp [elementsOf, he]

/-- Two optional values `o` and `o'` are equal where both are there or none is, and their values are
equal. -/
theorem option_eq_of_getD_eq {γ : Type} [Zero γ] {o o' : Option γ} (hsome : o.isSome ↔ o'.isSome)
    (hvalue : o.getD 0 = o'.getD 0) : o = o' := by
  cases o <;> cases o' <;> simp_all

variable [BEq α] [LawfulBEq α] {β σ : Type} [Plain β UInt8] [LawfulPlain β UInt8] [Plain β Nat]
  [LawfulIndices β] [Plain β α] [LawfulPlain β α]

/-- The ranks add up the matrix of the whole mesh of `a`, and then they eliminate their `essential`
rows. -/
theorem Decomposition.exists_whole {starts : Array Nat} {size : Nat} {rankOf : Nat → Nat}
    {part : Nat → Assembler α} {number : Nat → Nat → Nat} {layout : Nat → Layout α}
    (h : a.Decomposition starts size rankOf part number layout)
    (hreserve : (a.numDofs + 1) * 8 < Word.signedBound) (hdistinct : a.restriction.DistinctDofs)
    (hcoherent : a.Coherent) (essential : Nat → List Nat)
    (hessential : ∀ rank < size, ∀ row ∈ essential rank,
      row < starts.getD (rank + 1) 0 - starts.getD rank 0) :
    ∃ A whole, a.assembleWithoutEssential.result = .ok A ∧ Parts starts size whole ∧
      Collective size (fun rank => ((part rank).assembleDistributed ⟨rank, size⟩ (layout rank)
          (essential rank) : RankProgram β σ (DistributedMatrix α)))
        (fun rank => (whole rank).afterElimination starts essential (essential rank)
          (part rank).options.columnElimination) ∧
      (∀ rank < size, ∀ row, Owns starts rank row → ∀ column,
        ((whole rank).globalGet? (row - starts.getD rank 0) column).getD 0 = A.entry row column) ∧
      ((∀ rank < size, StoresOnes ((layout rank).effective rank) (number rank)) →
        ∀ rank < size, ∀ row, Owns starts rank row → ∀ column,
          (whole rank).globalGet? (row - starts.getD rank 0) column = A.get? row column) := by
  have hassemble : ∀ b : Assembler α, b.restriction.DistinctDofs → b.Coherent →
      ∃ A, b.assembleWithoutEssential.result = .ok A := fun b hdistinct hcoherent =>
    exists_result_eq_ok (hcoherent.valued hdistinct) (visitsOnce_of_distinctDofs hdistinct)
  have hpart : ∀ rank < size, (part rank).Coherent := fun rank hrank =>
    (h.share rank hrank).coherent hdistinct hcoherent
  have hblocks := fun rank hrank =>
    hassemble (part rank) ((h.share rank hrank).distinctDofs hdistinct) (hpart rank hrank)
  have : Nonempty (SparseMatrix α) := ⟨.zero 0 0⟩
  choose! block hblock using hblocks
  have hassembled := fun rank hrank => assembled_of_result_eq_ok (hblock rank hrank)
  obtain ⟨A, hA⟩ := hassemble a hdistinct hcoherent
  have hwhole := assembled_of_result_eq_ok hA
  obtain ⟨whole, hparts, hsum, hrun⟩ := Collective.assembleDistributed (β := β) (σ := σ)
    (checkRowStarts_eq_ok_iff.mp h.starts_eq_ok) (h.globalSize_eq ▸ hreserve) essential hblock
    h.rowStarts_eq
    (fun rank hrank => ⟨(h.numbers rank hrank).nrows_eq.trans (hassembled rank hrank).nrows_eq.symm,
      (h.numbers rank hrank).ncols_eq.trans h.globalSize_eq.symm,
      (hassembled rank hrank).nrows_eq.trans (hassembled rank hrank).ncols_eq.symm⟩)
    hessential
  have hvalue : ∀ rank < size, ∀ row, Owns starts rank row → ∀ column,
      ((whole rank).globalGet? (row - starts.getD rank 0) column).getD 0 = A.entry row column := by
    intro rank hrank row howns column
    rw [hsum.value rank hrank row howns column, hwhole.entry_eq_sum hcoherent]
    refine (sum_congr rfl fun peer hpeer => ?_).trans (a.sum_elementsOf h.rankOf_lt row column)
    have hpeer := mem_range.mp hpeer
    exact (h.share peer hpeer).entry_localProduct (hassembled peer hpeer) (hpart peer hpeer)
      (h.numbers peer hpeer) row column
  refine ⟨A, whole, hA, hparts, hrun, hvalue, fun hones rank hrank row howns column => ?_⟩
  have hstored : ((whole rank).globalGet? (row - starts.getD rank 0) column).isSome ↔
      (A.get? row column).isSome := by
    rw [hsum.stored rank hrank row howns column, hwhole.isSome_get?_iff hcoherent]
    exact h.exists_asserts_iff hassembled hpart hones row column
  exact option_eq_of_getD_eq hstored (hvalue rank hrank row howns column)

/-- However the mesh of `a`, with `DistinctDofs` and a template that is `Coherent`, is shared out to
`size` ranks by a `Decomposition`, all interleavings of their programs end, and in exact arithmetic
the ranks then hold the matrix `A` of the whole mesh. Where the prolongations in `layout` store no
zeros, `StoresOnes`, the patterns are equal, too. -/
theorem distributed_eq_serial (a : Assembler α)
    (hbuilt : (Restriction.ofGatherMap a.numDofs a.restriction.slots a.restriction.gather).result =
      .ok a.restriction)
    (hdistinct : a.restriction.DistinctDofs) (hcoherent : a.Coherent) {starts : Array Nat}
    {size : Nat} {rankOf : Nat → Nat} {part : Nat → Assembler α} {number : Nat → Nat → Nat}
    {layout : Nat → Layout α} (h : a.Decomposition starts size rankOf part number layout) :
    ∃ A M, a.assembleWithoutEssential.result = .ok A ∧
      Completes size (fun rank => ((part rank).assembleDistributed ⟨rank, size⟩ (layout rank) [] :
        RankProgram β σ (DistributedMatrix α))) M ∧
      (∀ rank < size,
        (M rank).toLocalRows.nrows = starts.getD (rank + 1) 0 - starts.getD rank 0 ∧
        (M rank).toLocalRows.ncols = a.numDofs) ∧
      (∀ rank < size, ∀ row, Owns starts rank row → ∀ column,
        (M rank).toLocalRows.entry (row - starts.getD rank 0) column = A.entry row column) ∧
      ((∀ rank < size, StoresOnes ((layout rank).effective rank) (number rank)) →
        stackedRows size M = A.rows.toList) := by
  have hstarts := checkRowStarts_eq_ok_iff.mp h.starts_eq_ok
  obtain ⟨A, whole, hA, hparts, hrun, hvalue, hget⟩ := h.exists_whole (β := β) (σ := σ)
    (Restriction.of_ofGatherMap_eq_ok hbuilt).2.2.2 hdistinct hcoherent (fun _ => [])
    fun _ _ _ hrow => nomatch hrow
  have hfinal := hparts.eliminate (fun _ => []) fun rank => (part rank).options.columnElimination
  have hkept : ∀ rank (hrank : rank < size) row (_ : Owns starts rank row) column, _ :=
    fun rank hrank row howns column => hparts.globalGet?_eliminate_nil
      (fun rank => (part rank).options.columnElimination) hstarts hrank howns column
  refine ⟨A, _, hA, hrun.completes, fun rank hrank => ⟨?_, ?_⟩, ?_, fun hones => ?_⟩
  · rw [Parts.nrows_toLocalRows]
    exact hfinal.numLocalRows_eq hrank
  · rw [Parts.ncols_toLocalRows]
    exact (hfinal.globalSize_eq hrank).trans h.globalSize_eq
  · intro rank hrank row howns column
    rw [SparseMatrix.entry, hfinal.get?_toLocalRows hstarts hrank, hkept rank hrank row howns,
      hvalue rank hrank row howns]
  · have hnrows := (assembled_of_result_eq_ok hA).nrows_eq.trans h.globalSize_eq.symm
    refine hfinal.stackedRows_eq hstarts hnrows fun rank hrank row howns column => ?_
    rw [hkept rank hrank row howns, hget hones rank hrank row howns]

/-! ## Elimination -/

/-- On a mesh with a symmetric pattern, the ranks that eliminate the essential `dofs` that they own
get the rows of serial elimination, with ones on the diagonal. -/
theorem Decomposition.eliminated_eq_serial {starts : Array Nat} {size : Nat} {rankOf : Nat → Nat}
    {part : Nat → Assembler α} {number : Nat → Nat → Nat} {layout : Nat → Layout α}
    (h : a.Decomposition starts size rankOf part number layout)
    (hreserve : (a.numDofs + 1) * 8 < Word.signedBound) (hdistinct : a.restriction.DistinctDofs)
    (hcoherent : a.Coherent)
    (hsymmetric : ∀ e row column, a.Asserts e row column → a.Asserts e column row)
    (hones : ∀ rank < size, StoresOnes ((layout rank).effective rank) (number rank))
    {dofs : List Nat} (hdofs : ∀ dof ∈ dofs, dof < a.numDofs) {essential : Nat → List Nat}
    (hessential : EssentialRows starts size dofs essential) :
    ∃ A M, (a.assemble dofs).result = .ok A ∧
      (∀ row column, (A.get? row column).isSome ↔ ∃ e, a.Asserts e row column) ∧
      Completes size (fun rank => ((part rank).assembleDistributed ⟨rank, size⟩ (layout rank)
        (essential rank) : RankProgram β σ (DistributedMatrix α))) M ∧
      stackedRows size M = (A.unitDiagonal dofs).rows.toList := by
  have hstarts := checkRowStarts_eq_ok_iff.mp h.starts_eq_ok
  obtain ⟨A, whole, hA, hparts, hrun, -, hget⟩ := h.exists_whole (β := β) (σ := σ) hreserve
    hdistinct hcoherent essential fun rank hrank row hrow => by
      have := ((hessential rank hrank row).mp hrow).1.2
      omega
  have hassembled := assembled_of_result_eq_ok hA
  have hshape := SparseMatrix.sameShape_foldl_decoupleRow dofs A
  have hfinal := hparts.eliminate essential fun rank => (part rank).options.columnElimination
  refine ⟨_, _, result_assemble hA (hassembled.ncols_eq.trans_le hassembled.nrows_eq.ge)
    (hassembled.nrows_eq ▸ hdofs), fun row column => ?_, hrun.completes,
    hfinal.stackedRows_eq hstarts ?_ ?_⟩
  · rw [SparseMatrix.get?_foldl_decoupleRow, Option.isSome_map,
      hassembled.isSome_get?_iff hcoherent]
  · rw [SparseMatrix.nrows_unitDiagonal, hshape.1, hassembled.nrows_eq, h.globalSize_eq]
  · intro rank hrank row howns column
    have hkept := hparts.globalGet?_eliminate essential
      (fun rank => (part rank).options.columnElimination) hstarts hrank howns column
    rw [hkept, hget hones rank hrank row howns,
      SparseMatrix.get?_unitDiagonal, SparseMatrix.get?_foldl_decoupleRow, Option.map_map]
    cases hentry : A.get? row column with
    | none => rfl
    | some value =>
      -- the transposed entry is stored, whoever owns its row
      have hmirror : (A.get? column row).isSome := by
        obtain ⟨e, hasserts⟩ := (hassembled.isSome_get?_iff hcoherent row column).mp
          (hentry ▸ rfl)
        exact (hassembled.isSome_get?_iff hcoherent column row).mpr
          ⟨e, hsymmetric e row column hasserts⟩
      have hmirrored : (!decide (Owns starts rank column) ||
          ((whole rank).globalGet? (column - starts.getD rank 0) row).isSome) = true := by
        by_cases hcolumn : Owns starts rank column
        · rw [hget hones rank hrank column hcolumn, hmirror, Bool.or_true]
        · simp [hcolumn]
      have hlt := SparseMatrix.lt_of_get?_eq_some hentry
      rw [hassembled.nrows_eq, hassembled.ncols_eq, ← h.globalSize_eq] at hlt
      simp only [Option.map_some, Function.comp_apply, hmirrored, hmirror, eliminated,
        isEssential_eq_contains hstarts hessential hlt.1,
        isEssential_eq_contains hstarts hessential hlt.2]
      grind

/-! ## A chain on two ranks -/

/-- The assembler `chain` in two parts: the first rank has the second element, whose DOFs it numbers
from the far end, and the second rank has the first element. -/
def chainPart (rank : Nat) : Assembler Int :=
  if rank = 0 then {
    kind := .h1
    restriction := {
      numDofs := 2
      slots := 2
      gather := #[.positive 1, .positive 0]
      incident := incidenceTable 2 #[.positive 1, .positive 0]
      slots_dvd := by decide
      index_lt := by decide
      size_lt := by decide
      incident_eq := rfl }
    template := chain.template
    values := { width := 2, slots := 2, numElements := 1, data := #[2, -2, -2, 2], size_eq := rfl }
    options := {}
    degree_le := rfl
    template_slots := chain.template_slots
    values_slots := rfl
    values_width := rfl
    values_elements := rfl }
  else {
    kind := .h1
    restriction := {
      numDofs := 2
      slots := 2
      gather := #[.positive 0, .positive 1]
      incident := incidenceTable 2 #[.positive 0, .positive 1]
      slots_dvd := by decide
      index_lt := by decide
      size_lt := by decide
      incident_eq := rfl }
    template := chain.template
    values := { width := 2, slots := 2, numElements := 1, data := #[1, -1, -1, 1], size_eq := rfl }
    options := {}
    degree_le := rfl
    template_slots := chain.template_slots
    values_slots := rfl
    values_width := rfl
    values_elements := rfl }

/-- The DOFs of the two parts of `chain`. -/
def chainNumber (rank i : Nat) : Nat := if rank = 0 then 2 - i else i

/-- The first rank owns one row of `chain`, and the second one owns two. -/
def chainLayout (rank : Nat) : Layout Int where
  rowStarts := #[0, 1, 3]
  prolongation := some (numbering 2 3 (chainNumber rank))

theorem decomposition_chain :
    chain.Decomposition #[0, 1, 3] 2 (1 - ·) chainPart chainNumber chainLayout where
  rankOf_lt := by decide
  share rank hrank := by
    have hfirst : chain.elementsOf (1 - ·) 0 = [1] := by decide +kernel
    have hsecond : chain.elementsOf (1 - ·) 1 = [0] := by decide +kernel
    have hsingle : ∀ {e' k e : Nat}, [e'][k]? = some e → k = 0 ∧ e' = e := by
      intro e' k e hk
      cases k <;> simp_all
    interval_cases rank
    · rw [hfirst]
      refine ⟨rfl, rfl, by decide, fun k e hk => ?_, fun k e hk => ?_⟩
      all_goals
        obtain ⟨rfl, rfl⟩ := hsingle hk
        decide +kernel
    · rw [hsecond]
      refine ⟨rfl, rfl, by decide, fun k e hk => ?_, fun k e hk => ?_⟩
      all_goals
        obtain ⟨rfl, rfl⟩ := hsingle hk
        decide +kernel
  starts_eq_ok := by decide +kernel
  globalSize_eq := by decide
  rowStarts_eq _ _ := rfl
  numbers rank hrank := by
    interval_cases rank <;> exact numbers_numbering (by decide)

/-- Two ranks hold the matrix of `chain`. -/
theorem distributed_eq_serial_chain : ∃ A M, chain.assembleWithoutEssential.result = .ok A ∧
    Completes 2 (fun rank => ((chainPart rank).assembleDistributed ⟨rank, 2⟩ (chainLayout rank) [] :
      RankProgram (Cell Int) Unit (DistributedMatrix Int))) M ∧
    stackedRows 2 M = A.rows.toList := by
  obtain ⟨A, M, hA, hM, -, -, hrows⟩ := distributed_eq_serial (β := Cell Int) (σ := Unit) chain
    (by decide +kernel) (by decide +kernel) (coherent_of_dense rfl) decomposition_chain
  refine ⟨A, M, hA, hM, hrows fun rank hrank => ?_⟩
  interval_cases rank <;> exact storesOnes_numbering (by decide)

end Assembler

end FemAssembly
