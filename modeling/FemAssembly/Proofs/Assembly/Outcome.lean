import FemAssembly.Proofs.Assembly.Passes
import FemAssembly.Proofs.Assembly.Visits
import FemAssembly.Proofs.Sparse.Unsorted

/-!
# The outcome of assembly

Assembly succeeds when every visit has a value and no pair of degrees of freedom is visited twice.
Then the matrix stores the values of the visits, and nothing else.

* `Assembler.result_ofParts_eq_ok_iff`: an assembler is made of the parts that it was given, and the
  parts of every assembler are accepted.
* `Assembler.visits`: all visits, in the order of the row slots.
* `Assembler.exists_result_eq_ok`: when assembly succeeds.
* `Assembler.Assembled`, `Assembler.assembled_of_result_eq_ok`: what is known about a matrix that
  was assembled.
-/

namespace FemAssembly

namespace Assembler

variable {α : Type}

/-- What is proved of every assembler `a` is proved of those that are made of parts, and of no
others. -/
theorem result_ofParts_eq_ok_iff {kind : Discretization} {r : Restriction} {t : Template}
    {v : ElementValues α} {options : Options} {a : Assembler α} :
    (ofParts kind r t v options).result = .ok a ↔ a.kind = kind ∧ a.restriction = r ∧
      a.template = t ∧ a.values = v ∧ a.options = options := by
  constructor
  · intro h
    unfold ofParts at h
    split at h
    · cases h
    · split at h
      · split at h
        · split at h
          · cases h
            exact ⟨rfl, rfl, rfl, rfl, rfl⟩
          · cases h
        · cases h
      · cases h
  · rintro ⟨rfl, rfl, rfl, rfl, rfl⟩
    unfold ofParts
    split
    · rename_i error herror
      rw [a.degree_le] at herror
      cases herror
    · rw [dif_pos ⟨a.template_slots, a.values_slots⟩, dif_pos a.values_width,
        dif_pos a.values_elements]
      rfl

/-- Parts `r`, `t` and `v` that fit make an assembler. -/
theorem exists_ofParts (kind : Discretization) {r : Restriction} {t : Template}
    {v : ElementValues α} {options : Options} (hdegree : r.checkDegree options.maxDegree = .ok ())
    (htemplate : t.slots = r.slots) (hslots : v.slots = r.slots) (hwidth : v.width = t.width)
    (helements : v.numElements = r.numElements) :
    ∃ a, (ofParts kind r t v options).result = .ok a :=
  ⟨⟨kind, r, t, v, options, hdegree, htemplate, hslots, hwidth, helements⟩,
    result_ofParts_eq_ok_iff.mpr ⟨rfl, rfl, rfl, rfl, rfl⟩⟩

/-! ## Visits -/

/-- All visits of `a`, in the order of the row slots. -/
def visits (a : Assembler α) : List Visit := (taskVisits a.restriction a.template).flatten

/-- No pair is visited twice by `a`. -/
def VisitsOnce (a : Assembler α) : Prop :=
  ∀ visit ∈ a.visits, ∀ visit' ∈ a.visits, visit.row.index = visit'.row.index →
    visit.column.index = visit'.column.index → visit = visit'

instance (a : Assembler α) : Decidable a.VisitsOnce :=
  inferInstanceAs (Decidable (∀ visit ∈ a.visits, ∀ visit' ∈ a.visits, _ → _ → _))

variable {a : Assembler α}

theorem mem_visits {visit : Visit} :
    visit ∈ a.visits ↔ ∃ slot, VisitOf a.restriction a.template visit slot :=
  mem_flatten_taskVisits

theorem row_lt_of_mem_visits {visit : Visit} (h : visit ∈ a.visits) :
    visit.row.index < a.numDofs := by
  obtain ⟨_, hvisit⟩ := mem_visits.mp h
  exact hvisit.row_lt

theorem column_lt_of_mem_visits {visit : Visit} (h : visit ∈ a.visits) :
    visit.column.index < a.numDofs := by
  obtain ⟨_, hvisit⟩ := mem_visits.mp h
  exact hvisit.column_lt a.template_slots

/-- The columns that are visited in every row are distinct exactly when no pair is visited twice by
`a`. -/
theorem nodup_columns_iff :
    (∀ row < a.numDofs,
      ((a.visits.filter (·.row.index = row)).map (·.column.index)).Nodup) ↔ a.VisitsOnce := by
  constructor
  · intro h visit hmem visit' hmem' hrow hcolumn
    have hne := List.pairwise_map.mp (h _ (row_lt_of_mem_visits hmem))
    refine List.Pairwise.forall_of_forall_of_flip
      (R := fun u w => u.column.index = w.column.index → u = w) (fun _ _ _ => rfl)
      (hne.imp fun hne heq => absurd heq hne) (hne.imp fun hne heq => absurd heq.symm hne)
      ?_ ?_ hcolumn
    · simpa using hmem
    · simpa [hrow] using hmem'
  · intro h row _
    have hnodup : (a.visits.filter (·.row.index = row)).Nodup := nodup_flatten_taskVisits.filter _
    apply List.pairwise_map.mpr
    apply hnodup.imp_of_mem
    intro u w hu hw hne hcolumn
    apply hne
    obtain ⟨hu, hurow⟩ : u ∈ a.visits ∧ u.row.index = row := by simpa using hu
    obtain ⟨hw, hwrow⟩ : w ∈ a.visits ∧ w.row.index = row := by simpa using hw
    exact h u hu w hw (hurow.trans hwrow.symm) hcolumn

/-! ## Results -/

variable [Zero α] [One α] [Neg α] [Add α] [Mul α]

/-- Every visit of `a` has a value. -/
def Valued (a : Assembler α) : Prop :=
  ∀ visit ∈ a.visits, ∃ value,
    entryValue a.restriction a.template a.values visit = .ok value

theorem valued_iff :
    a.Valued ↔ ∀ visit ∈ a.visits,
      (entryValue a.restriction a.template a.values visit).toBool = true := by
  refine forall_congr' fun visit => forall_congr' fun _ => ?_
  cases entryValue a.restriction a.template a.values visit <;> simp [Except.toBool]

instance : Decidable a.Valued := decidable_of_iff _ valued_iff.symm

theorem result_assembleWithoutEssential :
    a.assembleWithoutEssential.result = (a.assembleUnder a.visits a.visits).result := by
  have hslots : a.restriction.slots = a.template.slots := a.template_slots.symm
  unfold assembleWithoutEssential
  simp only [checkSlots, if_pos hslots, tasks_eq_ok a.template_slots, Noted.result_bind,
    Noted.result_liftM]
  rfl

theorem result_eq :
    a.assembleWithoutEssential.result =
      (a.visits.mapM (entryOf a.restriction a.template a.values)).bind fun entries =>
        SparseMatrix.ofUnsortedRows a.numDofs (rowsOf a.numDofs entries) := by
  rw [result_assembleWithoutEssential,
    result_assembleUnder a (.refl _) fun _ hmem => row_lt_of_mem_visits hmem]

/-- The rows of `entries` hold a column twice only where a pair is visited twice. -/
theorem distinctColumns_iff {schedule : List Visit} (hperm : schedule.Perm a.visits)
    {entries : List (Entry α)}
    (h : schedule.mapM (entryOf a.restriction a.template a.values) = .ok entries) :
    SparseMatrix.DistinctColumns (rowsOf a.numDofs entries) ↔ a.VisitsOnce := by
  rw [← nodup_columns_iff]
  have hcolumns : ∀ row, (SparseRow.columns (rowEntries entries row)).Perm
      ((a.visits.filter (·.row.index = row)).map (·.column.index)) := by
    intro row
    rw [columns_rowEntries_of_mapM h]
    exact (hperm.filter _).map _
  simp [SparseMatrix.DistinctColumns, (hcolumns _).nodup_iff]

/-- Assembly of `a` succeeds when every visit has a value and no pair is visited twice. -/
theorem exists_result_eq_ok (hvalued : a.Valued) (honce : a.VisitsOnce) :
    ∃ A, a.assembleWithoutEssential.result = .ok A := by
  obtain ⟨entries, hentries⟩ :
      ∃ entries, a.visits.mapM (entryOf a.restriction a.template a.values) = .ok entries := by
    apply exists_mapM_eq_ok
    intro visit hmem
    obtain ⟨value, hvalue⟩ := hvalued visit hmem
    exact ⟨⟨visit.row.index, visit.column.index, value⟩, entryOf_eq_ok_iff.mpr ⟨rfl, rfl, hvalue⟩⟩
  have hbelow : ∀ i (h : i < (rowsOf a.numDofs entries).size),
      (rowsOf a.numDofs entries)[i].Below a.numDofs := by
    intro i hi column hmem
    rw [getElem_rowsOf, columns_rowEntries_of_mapM hentries, List.mem_map] at hmem
    obtain ⟨visit, hvisit, rfl⟩ := hmem
    exact column_lt_of_mem_visits (List.mem_filter.mp hvisit).1
  obtain ⟨A, hA, -⟩ :=
    SparseMatrix.ofUnsortedRows_eq_ok ((distinctColumns_iff (.refl _) hentries).mpr honce) hbelow
  refine ⟨A, ?_⟩
  rw [result_eq, hentries]
  exact hA

/-- What is known about a matrix `A` that `a` assembled. -/
structure Assembled (a : Assembler α) (A : SparseMatrix α) : Prop where
  nrows_eq : A.nrows = a.numDofs
  ncols_eq : A.ncols = a.numDofs
  valued : a.Valued
  once : a.VisitsOnce
  get?_eq_some_iff : ∀ {row column : Nat} {value : α}, A.get? row column = some value ↔
    ∃ visit ∈ a.visits, visit.row.index = row ∧ visit.column.index = column ∧
      entryValue a.restriction a.template a.values visit = .ok value

theorem assembled_of_result_eq_ok {A : SparseMatrix α}
    (h : a.assembleWithoutEssential.result = .ok A) : a.Assembled A := by
  rw [result_eq] at h
  cases hentries : a.visits.mapM (entryOf a.restriction a.template a.values) with
  | error error =>
    rw [hentries] at h
    cases h
  | ok entries =>
    rw [hentries] at h
    obtain ⟨hdistinct, hncols, hrows⟩ := SparseMatrix.of_ofUnsortedRows_eq_ok h
    refine ⟨?_, hncols, ?_, (distinctColumns_iff (.refl _) hentries).mp hdistinct, ?_⟩
    · simp [SparseMatrix.nrows, hrows]
    · intro visit hmem
      obtain ⟨entry, hentry⟩ := exists_of_mapM_eq_ok hentries hmem
      exact ⟨_, (entryOf_eq_ok_iff.mp hentry).2.2⟩
    · intro row column value
      rw [SparseMatrix.get?_eq_some_iff_of_ordered hdistinct hrows]
      simp only [getElem_rowsOf, mem_rowEntries, size_rowsOf, exists_prop,
        mem_of_mapM_eq_ok hentries, entryOf_eq_ok_iff]
      constructor
      · rintro ⟨-, visit, hmem, rfl, rfl, hvalue⟩
        exact ⟨visit, hmem, rfl, rfl, hvalue⟩
      · rintro ⟨visit, hmem, rfl, rfl, hvalue⟩
        exact ⟨row_lt_of_mem_visits hmem, visit, hmem, rfl, rfl, hvalue⟩

end Assembler

end FemAssembly
