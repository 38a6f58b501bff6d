import FemAssembly.Proofs.Assembly.Elimination
import FemAssembly.Proofs.Assembly.Failures

/-!
# What the outcome depends on

Whether assembly fails, how it fails, and which positions its matrix stores, is decided by the
degrees of freedom (DOFs) that the slots reference and by the template. Neither the orientations of
the slots nor the values have an influence, whatever kind of values they are.

* `Restriction.SameDofs`: the slots of two restrictions reference the same DOFs.
  `Restriction.exists_ofGatherMap_of_map_index`: with other orientations, a gather map is accepted,
  too.
* `Assembler.Writes`: an element names a pair and has to write it.
  `Assembler.visitsOnce_iff` and `Assembler.Assembled.isSome_get?_iff_exists_writes` say by it which
  pairs are visited twice and which are stored.
* `SameOutcome`: the same kind of failure, or matrices with the same pattern. `Assembler.MayGive`:
  the outcomes of all executions.
* `Assembler.SameStructure.sameOutcome`: the outcomes of two assemblers with the same DOFs and one
  template.
* `Assembler.SameStructure.get?_eq_map`: in exact arithmetic, the values of their matrices.
-/

namespace FemAssembly

/-! ## Restrictions -/

namespace Restriction

/-- The slots of `r` and `r'` reference the same DOFs, in whatever orientations. -/
structure SameDofs (r r' : Restriction) : Prop where
  numDofs_eq : r'.numDofs = r.numDofs
  slots_eq : r'.slots = r.slots
  numElements_eq : r'.numElements = r.numElements
  index_eq : ∀ e i, (r'.dof e i).index = (r.dof e i).index

namespace SameDofs

variable {r r' : Restriction}

theorem refl (r : Restriction) : r.SameDofs r := ⟨rfl, rfl, rfl, fun _ _ => rfl⟩

variable (h : r.SameDofs r')
include h

theorem referencesAt_iff {e i dof : Nat} : r'.ReferencesAt e i dof ↔ r.ReferencesAt e i dof := by
  rw [ReferencesAt, h.numElements_eq, h.slots_eq, h.index_eq]
  rfl

theorem references_iff {e dof : Nat} : r'.References e dof ↔ r.References e dof :=
  exists_congr fun _ => h.referencesAt_iff

theorem slotsOf_eq (e dof : Nat) : r'.slotsOf e dof = r.slotsOf e dof := by
  simp only [slotsOf, h.slots_eq, h.index_eq]

theorem references_eq (dof : Nat) : r'.references dof = r.references dof := by
  simp only [references, h.numElements_eq, h.slotsOf_eq]

theorem unshared_iff {row column : Nat} : r'.Unshared row column ↔ r.Unshared row column := by
  rw [Unshared, h.references_eq, h.references_eq]
  rfl

/-- Elections of `row` and `column` do not see orientations. -/
theorem isFirstCommon_iff {row column e : Nat} :
    r'.IsFirstCommon row column e ↔ r.IsFirstCommon row column e := by
  simp only [IsFirstCommon, h.references_iff]

theorem role_eq (e row column : Nat) : r'.role e row column = r.role e row column := by
  refine Option.ext fun ownership => ?_
  cases ownership with
  | direct => exact role_eq_direct_iff.trans (h.unshared_iff.trans role_eq_direct_iff.symm)
  | owner => rw [role_eq_owner_iff, role_eq_owner_iff, h.unshared_iff, h.isFirstCommon_iff]

end SameDofs

/-- The restrictions `r` and `r'` reference the same DOFs if their gather maps have the same
indices, for elements with the same number of slots. -/
theorem sameDofs_of_map_index {r r' : Restriction} (hnumDofs : r'.numDofs = r.numDofs)
    (hslots : r'.slots = r.slots)
    (hindices : r'.gather.map SignedIndex.index = r.gather.map SignedIndex.index) :
    r.SameDofs r' := by
  have hsize : r'.gather.size = r.gather.size := by
    rw [← Array.size_map, hindices, Array.size_map]
  refine ⟨hnumDofs, hslots, ?_, fun e i => ?_⟩
  · rw [numElements, numElements, hsize, hslots]
  · have hget := congrArg (·[r.slots * e + i]?) hindices
    simp only [Array.getElem?_map] at hget
    rw [dof, dof, Array.getD_eq_getD_getElem?, Array.getD_eq_getD_getElem?, hslots,
      ← Option.getD_map SignedIndex.index, ← Option.getD_map SignedIndex.index, hget]

/-- Nothing that is checked of `gather` sees orientations, so `gather'` with the same indices is
accepted, too. -/
theorem exists_ofGatherMap_of_map_index {numDofs slots : Nat} {gather gather' : Array SignedIndex}
    {r : Restriction} (h : (ofGatherMap numDofs slots gather).result = .ok r)
    (hindices : gather'.map SignedIndex.index = gather.map SignedIndex.index) :
    ∃ r', (ofGatherMap numDofs slots gather').result = .ok r' ∧ r'.gather = gather' ∧
      r.SameDofs r' := by
  obtain ⟨rfl, rfl, rfl, hrows⟩ := of_ofGatherMap_eq_ok h
  have hsize : gather'.size = r.gather.size := by
    rw [← Array.size_map, hindices, Array.size_map]
  have hlt : ∀ s ∈ gather', s.index < r.numDofs := by
    intro s hs
    have hmem : s.index ∈ r.gather.map SignedIndex.index := hindices ▸ Array.mem_map_of_mem hs
    obtain ⟨t, ht, hindex⟩ := Array.mem_map.mp hmem
    exact hindex ▸ r.index_lt t ht
  obtain ⟨r', hr', hnumDofs, hslots, hgather⟩ :=
    exists_ofGatherMap (hsize ▸ r.slots_dvd) hlt (hsize ▸ r.size_lt) hrows
  exact ⟨r', hr', hgather, sameDofs_of_map_index hnumDofs hslots (hgather ▸ hindices)⟩

end Restriction

/-! ## Visits and stored positions -/

namespace Assembler

variable {α : Type} {a a' : Assembler α}

/-- Element `e` names `row` and `column` through its slots `i` and `j`, and has to write the pair.
-/
def Writes (a : Assembler α) (e i j row column : Nat) : Prop :=
  a.Couples e i j row column ∧ (a.restriction.role e row column).isSome

instance (e i j row column : Nat) : Decidable (a.Writes e i j row column) :=
  inferInstanceAs (Decidable (_ ∧ _))

theorem writes_of_visitOf {visit : Visit} {slot : Nat}
    (h : VisitOf a.restriction a.template visit slot) :
    a.Writes visit.element visit.rowSlot slot visit.row.index visit.column.index :=
  ⟨couples_of_visitOf h, by rw [h.role_eq]; rfl⟩

theorem Writes.exists_visit {e i j row column : Nat} (h : a.Writes e i j row column) :
    ∃ visit, VisitOf a.restriction a.template visit j ∧ visit.element = e ∧ visit.rowSlot = i ∧
      visit.row.index = row ∧ visit.column.index = column := by
  obtain ⟨ownership, hrole⟩ := Option.isSome_iff_exists.mp h.2
  obtain ⟨visit, hvisit, he, hi, hrow, hcolumn, -⟩ := h.1.exists_visit hrole
  exact ⟨visit, hvisit, he, hi, hrow, hcolumn⟩

/-- No pair is visited twice by `a` when it is written through two slots at most once. -/
theorem visitsOnce_iff : a.VisitsOnce ↔ ∀ row column e i j i' j',
    a.Writes e i j row column → a.Writes e i' j' row column → i = i' ∧ j = j' := by
  constructor
  · intro honce row column e i j i' j' h h'
    obtain ⟨visit, hvisit, rfl, rfl, hrow, hcolumn⟩ := h.exists_visit
    obtain ⟨visit', hvisit', -, rfl, hrow', hcolumn'⟩ := h'.exists_visit
    obtain rfl := honce _ (mem_visits.mpr ⟨j, hvisit⟩) _ (mem_visits.mpr ⟨j', hvisit'⟩)
      (hrow.trans hrow'.symm) (hcolumn.trans hcolumn'.symm)
    have hslots := hvisit.names.symm.trans hvisit'.names
    simp only [Option.some.injEq] at hslots
    exact ⟨rfl, hslots⟩
  · intro hwrites visit hmem visit' hmem' hrow hcolumn
    obtain ⟨slot, hvisit⟩ := mem_visits.mp hmem
    obtain ⟨slot', hvisit'⟩ := mem_visits.mp hmem'
    have helement := hvisit.element_eq_of_pair a.template_slots hvisit' hrow hcolumn
    have h' := writes_of_visitOf hvisit'
    rw [← helement, ← hrow, ← hcolumn] at h'
    obtain ⟨hi, hj⟩ := hwrites _ _ _ _ _ _ _ (writes_of_visitOf hvisit) h'
    exact hvisit.eq_of_slots a.template_slots hvisit' helement hi hj

section

variable [Zero α] [One α] [Neg α] [Add α] [Mul α] {A : SparseMatrix α} {row column : Nat}

/-- The matrix `A` stores the pairs that are written. -/
theorem Assembled.isSome_get?_iff_exists_writes (h : a.Assembled A) :
    (A.get? row column).isSome ↔ ∃ e i j, a.Writes e i j row column := by
  constructor
  · intro hsome
    obtain ⟨value, hget⟩ := Option.isSome_iff_exists.mp hsome
    obtain ⟨visit, hmem, rfl, rfl, -⟩ := h.get?_eq_some_iff.mp hget
    obtain ⟨slot, hvisit⟩ := mem_visits.mp hmem
    exact ⟨_, _, _, writes_of_visitOf hvisit⟩
  · rintro ⟨e, i, j, hcouples, hrole⟩
    obtain ⟨ownership, hrole⟩ := Option.isSome_iff_exists.mp hrole
    exact h.isSome_get?_of_couples hcouples hrole

/-- Where adding to zero changes nothing, the value of a pair that `e` writes is the sum of all
contributions. -/
theorem Assembled.get?_of_writes (h : a.Assembled A) (hzero : ∀ x : α, 0 + x = x) {e i j : Nat}
    (hwrites : a.Writes e i j row column) :
    A.get? row column = some (a.sum (a.couplings row column)) := by
  obtain ⟨value, hget⟩ := Option.isSome_iff_exists.mp
    (h.isSome_get?_iff_exists_writes.mpr ⟨e, i, j, hwrites⟩)
  rw [hget, h.value_eq_sum hzero hget]

end

/-! ## Outcomes -/

/-- The two outcomes are matrices with the same pattern, or failures of the same kind. -/
inductive SameOutcome : Except Error (SparseMatrix α) → Except Error (SparseMatrix α) → Prop
  | ok {A B : SparseMatrix α} (hpattern : SparseMatrix.SamePattern A B) :
      SameOutcome (.ok A) (.ok B)
  | missing (i j i' j' : Nat) :
      SameOutcome (.error (.missingTemplateEntry i j)) (.error (.missingTemplateEntry i' j'))
  | duplicate : SameOutcome (.error .duplicateEntries) (.error .duplicateEntries)

variable [Zero α] [One α] [Neg α] [Add α] [Mul α]

/-- An execution of `a` may have the given `outcome`. -/
def MayGive (a : Assembler α) (outcome : Except Error (SparseMatrix α)) : Prop :=
  ∃ tasks counting filling, FemAssembly.tasks a.restriction a.template = .ok tasks ∧
    a.options.Admits tasks counting ∧ a.options.Admits tasks filling ∧
    (a.assembleUnder counting filling).result = outcome

/-- Taking the tasks of `a` one after the other is one of the executions. -/
theorem mayGive_result (a : Assembler α) : a.MayGive a.assembleWithoutEssential.result :=
  ⟨_, _, _, tasks_eq_ok a.template_slots, a.options.admits_flatten _, a.options.admits_flatten _,
    result_assembleWithoutEssential.symm⟩

/-- All executions make the matrix `A` that is made by taking the tasks one after the other. -/
theorem MayGive.result_eq_ok {A : SparseMatrix α} (h : a.MayGive (.ok A)) :
    a.assembleWithoutEssential.result = .ok A := by
  obtain ⟨tasks, counting, filling, htasks, hcounting, hfilling, hresult⟩ := h
  obtain rfl := Except.ok.inj ((tasks_eq_ok a.template_slots).symm.trans htasks)
  exact (result_assembleUnder_eq_ok_iff hcounting.perm hfilling.perm A).mp hresult

theorem MayGive.exactOutcome {outcome : Except Error (SparseMatrix α)} (h : a.MayGive outcome) :
    ExactOutcome a a.visits outcome := by
  obtain ⟨tasks, counting, filling, htasks, hcounting, hfilling, rfl⟩ := h
  obtain rfl := Except.ok.inj ((tasks_eq_ok a.template_slots).symm.trans htasks)
  exact exactOutcome_of_perm hcounting.perm hfilling.perm

/-! ## Two assemblers -/

/-- The assemblers `a` and `a'` have the same DOFs in their slots and the same template. Their
orientations, values, kinds and options may be different. -/
structure SameStructure (a a' : Assembler α) : Prop where
  dofs : a.restriction.SameDofs a'.restriction
  template_eq : a'.template = a.template

namespace SameStructure

section

omit [Zero α] [One α] [Neg α] [Add α] [Mul α]

variable (h : a.SameStructure a')
include h

theorem couples_iff {e i j row column : Nat} :
    a'.Couples e i j row column ↔ a.Couples e i j row column := by
  rw [Couples, h.dofs.referencesAt_iff, h.dofs.referencesAt_iff, h.template_eq]
  rfl

theorem asserts_iff {e row column : Nat} : a'.Asserts e row column ↔ a.Asserts e row column :=
  exists_congr fun _ => exists_congr fun _ => h.couples_iff

theorem writes_iff {e i j row column : Nat} :
    a'.Writes e i j row column ↔ a.Writes e i j row column := by
  rw [Writes, h.couples_iff, h.dofs.role_eq]
  rfl

theorem couplings_eq (row column : Nat) : a'.couplings row column = a.couplings row column := by
  simp only [couplings, sharing, h.template_eq, h.dofs.references_eq, h.dofs.slotsOf_eq]

theorem visitsOnce_iff : a'.VisitsOnce ↔ a.VisitsOnce := by
  simp only [Assembler.visitsOnce_iff, h.writes_iff]

theorem lacksEntry_iff : a'.LacksEntry ↔ a.LacksEntry := by
  have hshared : ∀ {row column first}, a.restriction.IsFirstCommon row column first →
      (a'.restriction.Shared row column ↔ a.restriction.Shared row column) := by
    intro row column first hfirst
    rw [Restriction.shared_iff hfirst.1 hfirst.2.1, ← h.dofs.unshared_iff]
    exact Restriction.shared_iff (h.dofs.references_iff.mpr hfirst.1)
      (h.dofs.references_iff.mpr hfirst.2.1)
  simp only [LacksEntry, h.dofs.referencesAt_iff, h.dofs.isFirstCommon_iff, h.asserts_iff,
    h.template_eq]
  refine exists_congr fun row => exists_congr fun column => and_congr_left ?_
  rintro ⟨⟨first, hfirst, -⟩, -⟩
  exact hshared hfirst

end

variable (h : a.SameStructure a') {A A' : SparseMatrix α}
include h

theorem isSome_get?_eq (hA : a.Assembled A) (hA' : a'.Assembled A') (row column : Nat) :
    (A'.get? row column).isSome = (A.get? row column).isSome := by
  rw [Bool.eq_iff_iff, hA.isSome_get?_iff_exists_writes, hA'.isSome_get?_iff_exists_writes]
  simp only [h.writes_iff]

theorem samePattern (hA : a.Assembled A) (hA' : a'.Assembled A') :
    SparseMatrix.SamePattern A A' := by
  have hsize : a'.numDofs = a.numDofs := h.dofs.numDofs_eq
  refine SparseMatrix.SameShape.samePattern ⟨?_, ?_⟩ fun row column =>
    (h.isSome_get?_eq hA hA' row column).symm
  · rw [hA.nrows_eq, hA'.nrows_eq, hsize]
  · rw [hA.ncols_eq, hA'.ncols_eq, hsize]

/-- Whatever their executions, `a` and `a'` have the same outcome. -/
theorem sameOutcome {outcome outcome' : Except Error (SparseMatrix α)} (hgives : a.MayGive outcome)
    (hgives' : a'.MayGive outcome') : SameOutcome outcome outcome' := by
  have hexact := hgives.exactOutcome
  have hexact' := hgives'.exactOutcome
  have hrepeats : RepeatsPair a'.visits ↔ RepeatsPair a.visits := by
    rw [repeatsPair_iff, repeatsPair_iff, h.visitsOnce_iff]
  by_cases hlacks : a.LacksEntry
  · obtain ⟨i, j, rfl⟩ := hexact.missing_iff.mpr hlacks
    obtain ⟨i', j', rfl⟩ := hexact'.missing_iff.mpr (h.lacksEntry_iff.mpr hlacks)
    exact .missing i j i' j'
  · have hlacks' : ¬ a'.LacksEntry := mt h.lacksEntry_iff.mp hlacks
    by_cases htwice : RepeatsPair a.visits
    · obtain rfl := hexact.duplicate_iff.mpr ⟨hlacks, htwice⟩
      obtain rfl := hexact'.duplicate_iff.mpr ⟨hlacks', hrepeats.mpr htwice⟩
      exact .duplicate
    · obtain ⟨A, rfl⟩ := hexact.ok_iff.mpr ⟨hlacks, htwice⟩
      obtain ⟨A', rfl⟩ := hexact'.ok_iff.mpr ⟨hlacks', mt hrepeats.mp htwice⟩
      exact .ok (h.samePattern (assembled_of_result_eq_ok hgives.result_eq_ok)
        (assembled_of_result_eq_ok hgives'.result_eq_ok))

/-- Where adding to zero changes nothing, the values of `A'` are got from those of `A` by `f`, if
the sums of the contributions are. -/
theorem get?_eq_map (hzero : ∀ x : α, 0 + x = x) (hA : a.Assembled A) (hA' : a'.Assembled A')
    {row column : Nat} {f : α → α}
    (hsum : a'.sum (a'.couplings row column) = f (a.sum (a.couplings row column))) :
    A'.get? row column = (A.get? row column).map f := by
  have hsome := h.isSome_get?_eq hA hA' row column
  cases hget : A.get? row column with
  | none =>
    rw [hget, Option.isSome_none, Option.isSome_eq_false_iff, Option.isNone_iff_eq_none] at hsome
    rw [hsome]
    rfl
  | some value =>
    rw [hget, Option.isSome_some, Option.isSome_iff_exists] at hsome
    obtain ⟨value', hget'⟩ := hsome
    rw [hget', hA'.value_eq_sum hzero hget', hsum, ← hA.value_eq_sum hzero hget]
    rfl

end SameStructure

end Assembler

end FemAssembly
