import FemAssembly.Proofs.Assembly.Schedules

/-!
# How assembly fails

Assembly has three outcomes: a matrix, a template entry that is missing, or a pair that was visited
twice. The first two are decided by the elements that share a pair, the last by elements that
reference a degree of freedom twice. Nothing else can go wrong, also not while some visits fail and
others go on.

* `Assembler.LacksEntry`: slots that share a pair are left out, and the element that writes the pair
  names it. `Assembler.valued_iff_not_lacksEntry`: this is when a visit has no value.
* `RepeatsPair`: two visits of one pair. `Assembler.repeatsPair_iff`: this is when `VisitsOnce`
  fails.
* `Assembler.partial_run`: what a run of the fill pass over some of the visits can do.
* `Assembler.exact_outcomes`: the outcome of assembly, under every schedule.
-/

namespace FemAssembly

/-- Two of `visits` are of one pair, through different row slots or candidates. -/
def RepeatsPair (visits : List Visit) : Prop :=
  ∃ visit ∈ visits, ∃ visit' ∈ visits, visit.row.index = visit'.row.index ∧
    visit.column.index = visit'.column.index ∧
    (visit.rowSlot, visit.candidate) ≠ (visit'.rowSlot, visit'.candidate)

/-- Both `row` and `column` are referenced by two slots or more. -/
def Restriction.Shared (r : Restriction) (row column : Nat) : Prop :=
  ∃ m n, r.degree row = .ok m ∧ r.degree column = .ok n ∧ 2 ≤ m ∧ 2 ≤ n

theorem Restriction.length_references_pos {r : Restriction} {element dof : Nat}
    (h : r.References element dof) : 0 < (r.references dof).length := by
  obtain ⟨slot, hslot⟩ := h
  exact List.length_pos_of_mem (mem_references.mpr hslot)

/-- The pair of `row` and `column` that some `element` references is shared unless one of its DOFs
has degree one. -/
theorem Restriction.shared_iff {r : Restriction} {element row column : Nat}
    (hrow : r.References element row) (hcolumn : r.References element column) :
    r.Shared row column ↔ ¬ r.Unshared row column := by
  have hposRow := length_references_pos hrow
  have hposColumn := length_references_pos hcolumn
  simp only [Shared, Unshared, degree_eq_ok hrow.dof_lt, degree_eq_ok hcolumn.dof_lt,
    Except.ok.injEq]
  constructor
  · rintro ⟨_, _, rfl, rfl, h2, h2'⟩
    omega
  · intro h
    exact ⟨_, _, rfl, rfl, by omega, by omega⟩

/-- The places that were reserved for `schedule` are enough for every part `made` of the visits, in
any order. -/
theorem room_of_subperm {α : Type} {made schedule : List Visit} (h : made.Subperm schedule)
    (n : Nat) :
    Room n (rowCount schedule) ([] : List (Entry α)) made := by
  intro row _
  simpa [rowEntries, rowCount] using h.countP_le _

namespace Assembler

variable {α : Type} {a : Assembler α}

/-- A shared pair is named by `first`, the least element that references it, and some slots that
reference it are left out by the template. -/
def LacksEntry (a : Assembler α) : Prop :=
  ∃ row column, a.restriction.Shared row column ∧
    (∃ first, a.restriction.IsFirstCommon row column first ∧ a.Asserts first row column) ∧
    ∃ e i j, a.restriction.ReferencesAt e i row ∧ a.restriction.ReferencesAt e j column ∧
      ¬ a.template.Lists i j

/-- A pair is visited twice by `a` exactly when two of its visits go through different slots. -/
theorem repeatsPair_iff : RepeatsPair a.visits ↔ ¬ a.VisitsOnce := by
  constructor
  · rintro ⟨visit, hmem, visit', hmem', hrow, hcolumn, hne⟩ honce
    exact hne (by rw [honce visit hmem visit' hmem' hrow hcolumn])
  · intro hnot
    simp only [VisitsOnce, Classical.not_forall] at hnot
    obtain ⟨visit, hmem, visit', hmem', hrow, hcolumn, hne⟩ := hnot
    refine ⟨visit, hmem, visit', hmem', hrow, hcolumn, fun heq => hne ?_⟩
    obtain ⟨hslot, hcandidate⟩ := Prod.mk.inj heq
    obtain ⟨_, hvisit⟩ := mem_visits.mp hmem
    obtain ⟨_, hvisit'⟩ := mem_visits.mp hmem'
    exact hvisit.eq hvisit' (hvisit.element_eq_of_pair a.template_slots hvisit' hrow hcolumn) hslot
      hcandidate

variable [Zero α] [One α] [Neg α] [Add α] [Mul α]

/-- Every visit of `a` has a value unless slots that share its pair are left out. -/
theorem valued_iff_not_lacksEntry : a.Valued ↔ ¬ a.LacksEntry := by
  constructor
  · rintro hvalued
      ⟨row, column, hshared, ⟨first, hfirst, i', j', hcouples⟩, e, i, j, hi, hj, hlists⟩
    have hrole : a.restriction.role first row column = some .owner :=
      Restriction.role_eq_owner_iff.mpr
        ⟨(Restriction.shared_iff hfirst.1 hfirst.2.1).mp hshared, hfirst⟩
    obtain ⟨visit, hvisit, -, -, rfl, rfl, howner⟩ := hcouples.exists_visit hrole
    obtain ⟨value, hvalue⟩ := hvalued visit (mem_visits.mpr ⟨_, hvisit⟩)
    obtain ⟨_, _, herror⟩ :=
      entryValue_of_not_complete hvisit howner fun hcomplete => hlists (hcomplete e i j hi hj)
    rw [hvalue] at herror
    cases herror
  · intro hnone visit hmem
    obtain ⟨slot, hvisit⟩ := mem_visits.mp hmem
    cases hownership : visit.ownership with
    | direct => exact ⟨_, entryValue_of_direct hvisit hownership⟩
    | owner =>
      have hcouples := couples_of_visitOf hvisit
      have hrole := hvisit.role_eq
      rw [hownership] at hrole
      obtain ⟨hshared, hfirst⟩ := Restriction.role_eq_owner_iff.mp hrole
      refine ⟨_, entryValue_of_owner hvisit hownership fun e i j hi hj => ?_⟩
      by_contra hlists
      exact hnone ⟨_, _, (Restriction.shared_iff hfirst.1 hfirst.2.1).mpr hshared,
        ⟨_, hfirst, _, _, hcouples⟩, e, i, j, hi, hj, hlists⟩

/-- A `visit` fails only where the template has no entry. -/
theorem exists_missing_of_entryOf {visit : Visit} (hmem : visit ∈ a.visits) {error : Error}
    (h : entryOf a.restriction a.template a.values visit = .error error) :
    ∃ i j, error = .missingTemplateEntry i j := by
  obtain ⟨slot, hvisit⟩ := mem_visits.mp hmem
  have hvalue : entryValue a.restriction a.template a.values visit = .error error := by
    unfold entryOf at h
    cases hv : entryValue a.restriction a.template a.values visit with
    | ok value => simp [hv, Except.map] at h
    | error error' => simpa [hv, Except.map] using h
  cases hownership : visit.ownership with
  | direct =>
    rw [entryValue_of_direct hvisit hownership] at hvalue
    cases hvalue
  | owner =>
    by_cases hcomplete : a.Complete visit.row.index visit.column.index
    · rw [entryValue_of_owner hvisit hownership hcomplete] at hvalue
      cases hvalue
    · obtain ⟨i, j, herror⟩ := entryValue_of_not_complete hvisit hownership hcomplete
      rw [herror] at hvalue
      exact ⟨i, j, (Except.error.inj hvalue).symm⟩

/-! ## Runs over some of the visits -/

/-- A run of the fill pass over `made`, some of the visits in any order, fails only where the
template has no entry. Otherwise the `places` that it claims are all different, and each is one of
those that were reserved for its row. -/
theorem partial_run {schedule made : List Visit} (hschedule : schedule.Perm a.visits)
    (hmade : made.Subperm schedule) {places : Array Nat}
    (hranges : Ranges places a.numDofs (rowCount schedule)) :
    (∀ error, made.foldlM (fillVisit a.restriction a.template a.values places)
        (FillState.start places) = .error error → ∃ i j, error = .missingTemplateEntry i j) ∧
    ∀ s, made.foldlM (fillVisit a.restriction a.template a.values places)
        (FillState.start places) = .ok s →
      ∃ claimed, claims a.restriction a.template a.values places (FillState.start places) made =
          .ok claimed ∧ (claimed.map Claim.place).Nodup ∧
        ∀ claim ∈ claimed, InRange places claim.entry.row claim.place ∧
          claim.place < s.columns.size ∧ claim.place < s.values.size := by
  have hmem : ∀ visit ∈ made, visit ∈ a.visits := fun visit hv =>
    hschedule.mem_iff.mp (hmade.subset hv)
  have hrows : ∀ visit ∈ made, visit.row.index < a.numDofs := fun visit hv =>
    row_lt_of_mem_visits (hmem visit hv)
  have hstart : Filled places a.numDofs [] (FillState.start places : FillState α) :=
    filled_start hranges
  have hroom := room_of_subperm (α := α) hmade a.numDofs
  rw [hstart.foldlM_fillVisit hranges hrows hroom]
  cases hnew : made.mapM (entryOf a.restriction a.template a.values) with
  | error error =>
    refine ⟨fun error' h => ?_, fun s h => nomatch h⟩
    cases h
    obtain ⟨visit, hv, hfails⟩ := exists_of_mapM_eq_error hnew
    exact exists_missing_of_entryOf (hmem visit hv) hfails
  | ok new =>
    refine ⟨fun error h => (nomatch h), fun s h => ?_⟩
    cases h
    have hnewRows := row_lt_of_mapM hnew hrows
    have hfits : ∀ row < a.numDofs,
        (rowEntries ([] ++ new) row).length ≤ rowCount schedule row := by
      intro row hrow
      have := hroom row hrow
      rw [List.nil_append, length_rowEntries_of_mapM hnew]
      simpa [rowEntries] using this
    have hfilled := hstart.foldl_put hranges hnewRows hfits
    refine ⟨_, claims_eq_ok hranges hrows hstart hroom hnew,
      nodup_places_claimsFrom hranges hnewRows hfits, fun claim hclaim => ?_⟩
    have hrange := (claimed_of_mem_claimsFrom hranges hnewRows hfits hfilled hclaim).1
    have hrow : claim.entry.row < a.numDofs := by
      apply hnewRows
      rw [← map_entry_claimsFrom places [] new]
      exact List.mem_map_of_mem hclaim
    have hlt := hranges.lt_of_mem hrow hrange
    exact ⟨hrange, hfilled.size_columns ▸ hlt, hfilled.size_values ▸ hlt⟩

/-! ## Outcomes -/

variable {counting filling : List Visit}

/-- Where every visit has a value, two visits of one pair make the matrix fail, whatever the
schedules `counting` and `filling`. -/
theorem result_eq_duplicateEntries (hcounting : counting.Perm a.visits)
    (hfilling : filling.Perm a.visits) (hvalued : a.Valued) (htwice : ¬ a.VisitsOnce) :
    (a.assembleUnder counting filling).result = .error .duplicateEntries := by
  have hentries : ∀ visit ∈ filling,
      ∃ entry, entryOf a.restriction a.template a.values visit = .ok entry := by
    intro visit hmem
    obtain ⟨value, hvalue⟩ := hvalued visit (hfilling.mem_iff.mp hmem)
    exact ⟨⟨visit.row.index, visit.column.index, value⟩, entryOf_eq_ok_iff.mpr ⟨rfl, rfl, hvalue⟩⟩
  obtain ⟨entries, hentries⟩ := exists_mapM_eq_ok hentries
  rw [result_assembleUnder a (hcounting.trans hfilling.symm) (row_lt_of_perm_visits hfilling),
    hentries]
  exact SparseMatrix.ofUnsortedRows_eq_error (htwice ∘ (distinctColumns_iff hfilling hentries).mp)

/-- Where a visit has no value, a template entry is missing, whatever the schedules `counting` and
`filling`. -/
theorem result_eq_missingTemplateEntry (hcounting : counting.Perm a.visits)
    (hfilling : filling.Perm a.visits) (hnot : ¬ a.Valued) :
    ∃ i j, (a.assembleUnder counting filling).result = .error (.missingTemplateEntry i j) := by
  rw [result_assembleUnder a (hcounting.trans hfilling.symm) (row_lt_of_perm_visits hfilling)]
  cases hentries : filling.mapM (entryOf a.restriction a.template a.values) with
  | error error =>
    obtain ⟨visit, hmem, hfails⟩ := exists_of_mapM_eq_error hentries
    obtain ⟨i, j, rfl⟩ := exists_missing_of_entryOf (hfilling.mem_iff.mp hmem) hfails
    exact ⟨i, j, rfl⟩
  | ok entries =>
    refine absurd (fun visit hmem => ?_) hnot
    obtain ⟨entry, hentry⟩ := exists_of_mapM_eq_ok hentries (hfilling.mem_iff.mpr hmem)
    exact ⟨_, (entryOf_eq_ok_iff.mp hentry).2.2⟩

/-- The three outcomes of `result`, and when each of them arises. -/
structure ExactOutcome (a : Assembler α) (visits : List Visit)
    (result : Except Error (SparseMatrix α)) : Prop where
  missing_iff : (∃ i j, result = .error (.missingTemplateEntry i j)) ↔ a.LacksEntry
  duplicate_iff : result = .error .duplicateEntries ↔ ¬ a.LacksEntry ∧ RepeatsPair visits
  ok_iff : (∃ A, result = .ok A) ↔ ¬ a.LacksEntry ∧ ¬ RepeatsPair visits
  error_cases : ∀ error, result = .error error →
    (∃ i j, error = .missingTemplateEntry i j) ∨ error = .duplicateEntries

theorem exactOutcome_of_perm (hcounting : counting.Perm a.visits)
    (hfilling : filling.Perm a.visits) :
    ExactOutcome a a.visits (a.assembleUnder counting filling).result := by
  by_cases hvalued : a.Valued
  · have hlacks : ¬ a.LacksEntry := valued_iff_not_lacksEntry.mp hvalued
    by_cases honce : a.VisitsOnce
    · obtain ⟨A, hA⟩ := exists_result_eq_ok hvalued honce
      have hrepeats : ¬ RepeatsPair a.visits := fun h => repeatsPair_iff.mp h honce
      rw [(result_assembleUnder_eq_ok_iff hcounting hfilling A).mpr hA]
      constructor <;> simp [hlacks, hrepeats]
    · have hrepeats : RepeatsPair a.visits := repeatsPair_iff.mpr honce
      rw [result_eq_duplicateEntries hcounting hfilling hvalued honce]
      constructor <;> simp [hlacks, hrepeats]
  · have hlacks : a.LacksEntry := by
      by_contra hnone
      exact hvalued (valued_iff_not_lacksEntry.mpr hnone)
    obtain ⟨i, j, herror⟩ := result_eq_missingTemplateEntry hcounting hfilling hvalued
    rw [herror]
    constructor <;> simp [hlacks]

/-- The visits of assembly are a plain list, so nothing outside of the parts of `a` is asked for.
Under all schedules `counting` and `filling` of them, and so for assembly itself, the outcome is one
of three: a template entry is missing exactly when slots that share a pair are left out; otherwise
entries are duplicate exactly when some pair is visited twice; otherwise there is a matrix. A pair
is visited twice only where an element references a DOF twice. And whatever part `made` of the
visits was made, every claimed place was reserved for its row and for no other claim, and the next
visit fails for nothing but a missing template entry. -/
theorem exact_outcomes (a : Assembler α) :
    ∃ tasks counts, FemAssembly.tasks a.restriction a.template = .ok tasks ∧
      ExactOutcome a tasks.flatten a.assembleWithoutEssential.result ∧
      (∀ counting filling, counting.Perm tasks.flatten → filling.Perm tasks.flatten →
        ExactOutcome a tasks.flatten (a.assembleUnder counting filling).result) ∧
      (RepeatsPair tasks.flatten → ∃ e i j dof, i ≠ j ∧
        a.restriction.ReferencesAt e i dof ∧ a.restriction.ReferencesAt e j dof) ∧
      (∀ counting, counting.Perm tasks.flatten → countPass a.numDofs counting = .ok counts) ∧
      ∀ made, made.Subperm tasks.flatten →
        (∀ error, made.foldlM
            (fillVisit a.restriction a.template a.values (offsets counts.toList).toArray)
            (FillState.start (offsets counts.toList).toArray) = .error error →
          ∃ i j, error = .missingTemplateEntry i j) ∧
        ∀ s, made.foldlM
            (fillVisit a.restriction a.template a.values (offsets counts.toList).toArray)
            (FillState.start (offsets counts.toList).toArray) = .ok s →
          ∃ claimed, claims a.restriction a.template a.values (offsets counts.toList).toArray
              (FillState.start (offsets counts.toList).toArray) made = .ok claimed ∧
            (claimed.map Claim.place).Nodup ∧
            ∀ claim ∈ claimed, InRange (offsets counts.toList).toArray claim.entry.row claim.place ∧
              claim.place < s.columns.size ∧ claim.place < s.values.size := by
  refine ⟨taskVisits a.restriction a.template,
    ((List.range a.numDofs).map (rowCount a.visits)).toArray, tasks_eq_ok a.template_slots,
    ?_, fun counting filling => exactOutcome_of_perm, ?_, ?_, ?_⟩
  · rw [result_assembleWithoutEssential]
    exact exactOutcome_of_perm (.refl _) (.refl _)
  · intro hrepeats
    by_contra hnone
    refine repeatsPair_iff.mp hrepeats (visitsOnce_of_distinctDofs fun e i j dof hi hj => ?_)
    by_contra hne
    exact hnone ⟨e, i, j, dof, hne, hi, hj⟩
  · intro counting hperm
    rw [countPass_eq_ok (row_lt_of_perm_visits hperm), rowCount_eq_of_perm hperm]
    rfl
  · intro made hmade
    exact partial_run (.refl _) hmade (ranges_offsets a.numDofs (rowCount a.visits))

/-- One element that references its only DOF through both slots, with the dense template of `chain`.
-/
def folded : Assembler Int where
  kind := .h1
  restriction := {
    numDofs := 1
    slots := 2
    gather := #[.positive 0, .reversed 0]
    incident := incidenceTable 1 #[.positive 0, .reversed 0]
    slots_dvd := by decide
    index_lt := by decide
    size_lt := by decide
    incident_eq := rfl }
  template := chain.template
  values := { width := 2, slots := 2, numElements := 1, data := #[1, 2, 3, 4], size_eq := rfl }
  options := {}
  degree_le := rfl
  template_slots := rfl
  values_slots := rfl
  values_width := rfl
  values_elements := rfl

/-- The element of `folded` visits its pair four times, and its entries are duplicate also when the
visits are made in reverse. -/
theorem exact_outcomes_folded :
    folded.assembleWithoutEssential.result = .error .duplicateEntries ∧
      (folded.assembleUnder folded.visits folded.visits.reverse).result =
        .error .duplicateEntries := by
  obtain ⟨tasks, counts, htasks, hserial, hunder, -⟩ := exact_outcomes folded
  obtain rfl : taskVisits folded.restriction folded.template = tasks :=
    Except.ok.inj ((tasks_eq_ok rfl).symm.trans htasks)
  have hlacks : ¬ folded.LacksEntry := valued_iff_not_lacksEntry.mp (by decide +kernel)
  have hrepeats : RepeatsPair folded.visits := repeatsPair_iff.mpr (by decide +kernel)
  exact ⟨hserial.duplicate_iff.mpr ⟨hlacks, hrepeats⟩,
    (hunder _ _ (.refl _) (List.reverse_perm _)).duplicate_iff.mpr ⟨hlacks, hrepeats⟩⟩

end Assembler

end FemAssembly
