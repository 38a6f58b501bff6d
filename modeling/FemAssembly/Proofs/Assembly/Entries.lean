import FemAssembly.Proofs.Assembly.Contribution
import FemAssembly.Proofs.Assembly.Outcome
import Mathlib

/-!
# The entries of an assembled matrix

A stored entry comes from one visit. Either no other slots share its pair, and the visit is the only
coupling, or the visit is that of the least element that shares the pair, and every slot that shares
the pair is listed. So no stored value is a partial sum.

* `VisitOf.couples`, `Assembler.Couples.exists_visit`: visits and couplings.
* `Assembler.Assembled.entry_cases`: the two kinds of stored entries, with their values.
  `Assembler.Assembled.value_eq_sum`: in exact arithmetic both are sums of all contributions.
* `Assembler.isSome_get?_of_unshared`, `Assembler.isSome_get?_of_isFirstCommon`: pairs that are
  stored.
* `Assembler.isSome_get?_iff_of_asserts`: which of the pairs that elements name are stored. A pair
  that several elements share is left out, without any error, when the least of them does not name
  it.
-/

namespace FemAssembly

/-- A `list` without repetitions whose elements are all `b`. -/
private theorem eq_singleton_of_nodup {β : Type} {list : List β} (hnodup : list.Nodup) {b : β}
    (hmem : b ∈ list) (hall : ∀ c ∈ list, c = b) : list = [b] := by
  match list, hnodup with
  | [], _ => cases hmem
  | [c], _ => rw [hall c (by simp)]
  | c :: d :: rest, hnodup =>
    have hcd : c ≠ d := (List.nodup_cons.mp hnodup).1 ∘ fun heq => by simp [heq]
    exact absurd ((hall c (by simp)).trans (hall d (by simp)).symm) hcd

section

variable {r : Restriction} {t : Template} {visit visit' : Visit} {slot slot' : Nat}

theorem VisitOf.referencesAt_row (h : VisitOf r t visit slot) :
    r.ReferencesAt visit.element visit.rowSlot visit.row.index :=
  ⟨h.element_lt, h.rowSlot_lt, by rw [h.row_eq]⟩

theorem VisitOf.referencesAt_column (hslots : t.slots = r.slots) (h : VisitOf r t visit slot) :
    r.ReferencesAt visit.element slot visit.column.index :=
  ⟨h.element_lt, h.slot_lt hslots, by rw [h.column_eq]⟩

theorem VisitOf.lists (h : VisitOf r t visit slot) : t.Lists visit.rowSlot slot :=
  Template.lists_iff_exists.mpr ⟨_, h.names⟩

/-- The visits `visit` and `visit'` are the same if they have the same element and the same slots.
-/
theorem VisitOf.eq_of_slots (hslots : t.slots = r.slots) (h : VisitOf r t visit slot)
    (h' : VisitOf r t visit' slot') (he : visit.element = visit'.element)
    (hrow : visit.rowSlot = visit'.rowSlot) (hcolumn : slot = slot') : visit = visit' := by
  refine h.eq h' he hrow ?_
  have hlt : visit.rowSlot < t.slots := hslots ▸ h.rowSlot_lt
  have hk := (Template.listed_eq_some_iff hlt).mpr h.names
  have hk' := (Template.listed_eq_some_iff hlt).mpr (hrow ▸ h'.names)
  rw [hcolumn, hk'] at hk
  exact (Option.some.inj hk).symm

/-- One element makes all visits of a pair: the only one that shares it, or the least. So `visit`
and `visit'` of one pair have the same element. -/
theorem VisitOf.element_eq_of_pair (hslots : t.slots = r.slots) (h : VisitOf r t visit slot)
    (h' : VisitOf r t visit' slot') (hrow : visit.row.index = visit'.row.index)
    (hcolumn : visit.column.index = visit'.column.index) : visit.element = visit'.element := by
  have hrole := h.role_eq
  have hrole' := h'.role_eq
  have hi' := h'.referencesAt_row
  have hj' := h'.referencesAt_column hslots
  rw [← hrow] at hi'
  rw [← hcolumn] at hj'
  rw [← hrow, ← hcolumn] at hrole'
  cases hownership : visit.ownership with
  | direct =>
    rw [hownership] at hrole
    rcases Restriction.role_eq_direct_iff.mp hrole with hone | hone
    · exact Restriction.element_eq_of_length_eq_one hone h.referencesAt_row hi'
    · exact Restriction.element_eq_of_length_eq_one hone (h.referencesAt_column hslots) hj'
  | owner =>
    rw [hownership] at hrole
    obtain ⟨hshared, hfirst⟩ := Restriction.role_eq_owner_iff.mp hrole
    cases hownership' : visit'.ownership with
    | direct =>
      rw [hownership'] at hrole'
      exact absurd (Restriction.role_eq_direct_iff.mp hrole') hshared
    | owner =>
      rw [hownership'] at hrole'
      obtain ⟨-, hfirst'⟩ := Restriction.role_eq_owner_iff.mp hrole'
      exact hfirst.unique hfirst'

end

namespace Assembler

variable {α : Type} {a : Assembler α}

theorem couples_of_visitOf {visit : Visit} {slot : Nat}
    (h : VisitOf a.restriction a.template visit slot) :
    a.Couples visit.element visit.rowSlot slot visit.row.index visit.column.index :=
  ⟨h.referencesAt_row, h.referencesAt_column a.template_slots, h.lists⟩

/-- Element `e` visits the pair that it names through `i` and `j`, if it has a role for it. -/
theorem Couples.exists_visit {e i j row column : Nat} (h : a.Couples e i j row column)
    {ownership : Ownership} (hrole : a.restriction.role e row column = some ownership) :
    ∃ visit, VisitOf a.restriction a.template visit j ∧ visit.element = e ∧ visit.rowSlot = i ∧
      visit.row.index = row ∧ visit.column.index = column ∧ visit.ownership = ownership := by
  obtain ⟨⟨he, hi, hrow⟩, ⟨-, -, hcolumn⟩, hlists⟩ := h
  obtain ⟨k, hk⟩ := Template.lists_iff_exists.mp hlists
  refine ⟨⟨e, i, k, a.restriction.dof e i, a.restriction.dof e j, ownership⟩,
    ⟨he, hi, hk, rfl, rfl, ?_⟩, rfl, rfl, hrow, hcolumn, rfl⟩
  rw [← hrole, ← hrow, ← hcolumn]

theorem Asserts.references {e row column : Nat} (h : a.Asserts e row column) :
    a.restriction.References e row ∧ a.restriction.References e column := by
  obtain ⟨i, j, hi, hj, -⟩ := h
  exact ⟨⟨i, hi⟩, j, hj⟩

variable [Zero α] [One α] [Neg α] [Add α] [Mul α] {A : SparseMatrix α} {row column : Nat}

namespace Assembled

/-- The two kinds of stored entries: one coupling alone, or the sum of all slots that share `row`
and `column`, none of which is left out by the template. -/
theorem entry_cases (h : a.Assembled A) {value : α} (hget : A.get? row column = some value) :
    (a.restriction.Unshared row column ∧ ∃ e i j, a.couplings row column = [(e, i, j)] ∧
      value = a.contribution e i j) ∨
    (¬ a.restriction.Unshared row column ∧ a.Complete row column ∧
      (∃ e, a.restriction.IsFirstCommon row column e ∧ a.Asserts e row column) ∧
      value = a.sum (a.couplings row column)) := by
  obtain ⟨visit, hmem, rfl, rfl, hvalue⟩ := h.get?_eq_some_iff.mp hget
  obtain ⟨slot, hvisit⟩ := mem_visits.mp hmem
  have hcouples := couples_of_visitOf hvisit
  cases hownership : visit.ownership with
  | direct =>
    have hrole := hvisit.role_eq
    rw [hownership] at hrole
    refine .inl ⟨Restriction.role_eq_direct_iff.mp hrole,
      visit.element, visit.rowSlot, slot, ?_, ?_⟩
    · -- any other coupling would be visited as well
      refine eq_singleton_of_nodup (nodup_couplings _ _) (mem_couplings.mpr hcouples) ?_
      rintro ⟨e, i, j⟩ hother
      have hrole' : a.restriction.role e visit.row.index visit.column.index = some .direct :=
        Restriction.role_eq_direct_iff.mpr (Restriction.role_eq_direct_iff.mp hrole)
      obtain ⟨visit', hvisit', rfl, rfl, hrow, hcolumn, -⟩ :=
        (mem_couplings.mp hother).exists_visit hrole'
      have heq := h.once _ (mem_visits.mpr ⟨j, hvisit'⟩) _ hmem hrow hcolumn
      subst heq
      rw [Option.some.inj (Option.some.inj (hvisit.names.symm.trans hvisit'.names))]
    · rw [entryValue_of_direct hvisit hownership] at hvalue
      exact (Except.ok.inj hvalue).symm
  | owner =>
    have hrole := hvisit.role_eq
    rw [hownership] at hrole
    obtain ⟨hshared, hfirst⟩ := Restriction.role_eq_owner_iff.mp hrole
    have hcomplete : a.Complete visit.row.index visit.column.index := by
      apply Classical.byContradiction
      intro hnot
      obtain ⟨i, j, herror⟩ := entryValue_of_not_complete hvisit hownership hnot
      rw [herror] at hvalue
      cases hvalue
    refine .inr ⟨hshared, hcomplete, ⟨_, hfirst, _, _, hcouples⟩, ?_⟩
    rw [entryValue_of_owner hvisit hownership hcomplete] at hvalue
    exact (Except.ok.inj hvalue).symm

/-- Where adding to zero changes nothing, `value` is the sum of the contributions in both cases. -/
theorem value_eq_sum (h : a.Assembled A) (hzero : ∀ x : α, 0 + x = x) {value : α}
    (hget : A.get? row column = some value) : value = a.sum (a.couplings row column) := by
  rcases h.entry_cases hget with ⟨-, e, i, j, hcouplings, hvalue⟩ | ⟨-, -, -, hvalue⟩
  · rw [hvalue, hcouplings]
    exact (hzero _).symm
  · exact hvalue

/-- A pair of `row` and `column` that `A` stores is named by some `e`. -/
theorem exists_asserts (h : a.Assembled A) {value : α} (hget : A.get? row column = some value) :
    ∃ e, a.Asserts e row column := by
  rcases h.entry_cases hget with ⟨-, e, i, j, hcouplings, -⟩ | ⟨-, -, ⟨e, -, hasserts⟩, -⟩
  · exact ⟨e, i, j, mem_couplings.mp (by simp [hcouplings])⟩
  · exact ⟨e, hasserts⟩

theorem isSome_get?_of_couples (h : a.Assembled A) {e i j : Nat}
    (hcouples : a.Couples e i j row column) {ownership : Ownership}
    (hrole : a.restriction.role e row column = some ownership) : (A.get? row column).isSome := by
  obtain ⟨visit, hvisit, -, -, hrow, hcolumn, -⟩ := hcouples.exists_visit hrole
  have hmem := mem_visits.mpr ⟨j, hvisit⟩
  obtain ⟨value, hvalue⟩ := h.valued visit hmem
  exact Option.isSome_iff_exists.mpr
    ⟨value, h.get?_eq_some_iff.mpr ⟨visit, hmem, hrow, hcolumn, hvalue⟩⟩

/-- A pair that `e` names is stored when nothing else shares it. -/
theorem isSome_get?_of_unshared (h : a.Assembled A) {e : Nat} (hasserts : a.Asserts e row column)
    (hunshared : a.restriction.Unshared row column) : (A.get? row column).isSome := by
  obtain ⟨i, j, hcouples⟩ := hasserts
  exact h.isSome_get?_of_couples hcouples (Restriction.role_eq_direct_iff.mpr hunshared)

/-- A pair is stored when `e`, the least element that shares it, names it. -/
theorem isSome_get?_of_isFirstCommon (h : a.Assembled A) {e : Nat}
    (hfirst : a.restriction.IsFirstCommon row column e) (hasserts : a.Asserts e row column) :
    (A.get? row column).isSome := by
  by_cases hunshared : a.restriction.Unshared row column
  · exact h.isSome_get?_of_unshared hasserts hunshared
  · obtain ⟨i, j, hcouples⟩ := hasserts
    exact h.isSome_get?_of_couples hcouples
      (Restriction.role_eq_owner_iff.mpr ⟨hunshared, hfirst⟩)

end Assembled

/-! ## Which pairs are stored -/

/-- Of the pairs of `row` and `column` that elements name, as `e` does, `A` stores those that
nothing else shares, and those that the least of the elements which share them, `first`, names. A
pair that is shared and stored is named by all slots that share it. -/
theorem isSome_get?_iff_of_asserts (a : Assembler α)
    (hA : a.assembleWithoutEssential.result = .ok A) {e : Nat} (hasserts : a.Asserts e row column) :
    ((A.get? row column).isSome ↔ a.restriction.Unshared row column ∨
      ∃ first, a.restriction.IsFirstCommon row column first ∧ a.Asserts first row column) ∧
    ((A.get? row column).isSome →
      a.restriction.Unshared row column ∨ a.Complete row column) := by
  have h := assembled_of_result_eq_ok hA
  refine ⟨⟨?_, ?_⟩, ?_⟩
  · intro hsome
    obtain ⟨value, hget⟩ := Option.isSome_iff_exists.mp hsome
    rcases h.entry_cases hget with ⟨hunshared, -⟩ | ⟨-, -, hfirst, -⟩
    · exact .inl hunshared
    · exact .inr hfirst
  · rintro (hunshared | ⟨first, hfirst, hnames⟩)
    · exact h.isSome_get?_of_unshared hasserts hunshared
    · exact h.isSome_get?_of_isFirstCommon hfirst hnames
  · intro hsome
    obtain ⟨value, hget⟩ := Option.isSome_iff_exists.mp hsome
    rcases h.entry_cases hget with ⟨hunshared, -⟩ | ⟨-, hcomplete, -⟩
    · exact .inl hunshared
    · exact .inr hcomplete

/-- Two elements with the degrees of freedom `0 1 2` and `3 0 1`, whose template lists the last slot
in the row of the middle one. Only the second element names the pair `(0, 1)`, which both share. -/
def disagreeing : Assembler Int where
  kind := .h1
  restriction := {
    numDofs := 4
    slots := 3
    gather := #[.positive 0, .positive 1, .positive 2, .positive 3, .positive 0, .positive 1]
    incident := incidenceTable 4
      #[.positive 0, .positive 1, .positive 2, .positive 3, .positive 0, .positive 1]
    slots_dvd := by decide
    index_lt := by decide
    size_lt := by decide
    incident_eq := rfl }
  template := {
    slots := 3
    width := 1
    mapping := #[none, some 2, none]
    size_eq := rfl
    column_lt := by simp
    nodup := by decide }
  values := {
    width := 1, slots := 3, numElements := 2
    data := #[0, 5, 0, 0, 7, 0]
    size_eq := rfl }
  options := {}
  degree_le := rfl
  template_slots := rfl
  values_slots := rfl
  values_width := rfl
  values_elements := rfl

theorem isSome_get?_iff_of_asserts_disagreeing :
    ∃ A, disagreeing.assembleWithoutEssential.result = .ok A ∧ disagreeing.Asserts 0 1 2 ∧
      (A.get? 1 2).isSome := by
  obtain ⟨A, hA⟩ := exists_result_eq_ok (a := disagreeing) (by decide +kernel) (by decide +kernel)
  have hasserts : disagreeing.Asserts 0 1 2 := by decide +kernel
  have hunshared : disagreeing.restriction.Unshared 1 2 := by decide +kernel
  exact ⟨A, hA, hasserts,
    (isSome_get?_iff_of_asserts disagreeing hA hasserts).1.mpr (.inl hunshared)⟩

/-- The second element of `disagreeing` names the pair `(0, 1)`, and the assembled matrix does not
store it. -/
theorem exists_asserts_get?_eq_none :
    ∃ A, disagreeing.assembleWithoutEssential.result = .ok A ∧ disagreeing.Asserts 1 0 1 ∧
      A.get? 0 1 = none := by
  obtain ⟨A, hA⟩ := exists_result_eq_ok (a := disagreeing) (by decide +kernel) (by decide +kernel)
  refine ⟨A, hA, by decide +kernel, ?_⟩
  have h := assembled_of_result_eq_ok hA
  cases hget : A.get? 0 1 with
  | none => rfl
  | some value =>
    rcases h.entry_cases hget with ⟨hunshared, -⟩ | ⟨-, hcomplete, -⟩
    · exact absurd hunshared (by decide +kernel)
    · exact absurd hcomplete (by decide +kernel)

end Assembler

end FemAssembly
