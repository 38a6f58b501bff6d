import FemAssembly.Proofs.Assembly.Visits
import FemAssembly.Proofs.Element.Values

/-!
# Contributions

What the elements of an assembler have to say about a pair of degrees of freedom (DOFs), and what a
visit makes of it.

* `Assembler.Couples`, `Assembler.Asserts`: an element names a pair, through two of its slots.
* `Assembler.contribution`: the signed coefficient of two slots.
* `Assembler.couplings`: all slots through which a pair is named, element by element, row slot by
  row slot. `Assembler.sharing` has those that the template does not list, too.
* `entryValue_of_direct`, `entryValue_of_owner`: the value of a visited entry. The owner sums over
  all couplings, and it fails when `Assembler.Complete` does not hold.
-/

namespace FemAssembly

/-- A `list` of numbers in which all but `e` give nothing by `f`. -/
private theorem flatMap_eq_of_forall_ne {β : Type} {list : List Nat} (hnodup : list.Nodup) {e : Nat}
    (he : e ∈ list) {f : Nat → List β} (hf : ∀ e', e' ≠ e → f e' = []) : list.flatMap f = f e := by
  induction list with
  | nil => cases he
  | cons e' list ih =>
    obtain ⟨hnot, hrest⟩ := List.nodup_cons.mp hnodup
    rw [List.flatMap_cons]
    by_cases h : e' = e
    · subst h
      have hnone : list.flatMap f = [] := by
        apply List.flatMap_eq_nil_iff.mpr
        intro x hx
        apply hf
        rintro rfl
        exact hnot hx
      rw [hnone, List.append_nil]
    · have hmem : e ∈ list := (List.mem_cons.mp he).resolve_left (Ne.symm h)
      rw [hf e' h, List.nil_append]
      exact ih hrest hmem

namespace Assembler

variable {α : Type} (a : Assembler α)

/-- Element `e` names the pair of `row` and `column`, through its slots `i` and `j`. -/
def Couples (e i j row column : Nat) : Prop :=
  a.restriction.ReferencesAt e i row ∧ a.restriction.ReferencesAt e j column ∧
    a.template.Lists i j

instance (e i j row column : Nat) : Decidable (a.Couples e i j row column) :=
  inferInstanceAs (Decidable (_ ∧ _))

/-- Element `e` names the pair of `row` and `column`. -/
def Asserts (e row column : Nat) : Prop := ∃ i j, a.Couples e i j row column

/-- No slots `i` and `j` that reference `row` and `column` in one element are left out by the
template. -/
def Complete (row column : Nat) : Prop :=
  ∀ e i j, a.restriction.ReferencesAt e i row → a.restriction.ReferencesAt e j column →
    a.template.Lists i j

/-- The elements and slots `(e, i, j)` through which both `row` and `column` are referenced. -/
def sharing (row column : Nat) : List (Nat × Nat × Nat) :=
  (a.restriction.references row).flatMap fun (e, i) =>
    (a.restriction.slotsOf e column).map fun j => (e, i, j)

/-- The elements and slots `(e, i, j)` through which the pair of `row` and `column` is named. -/
def couplings (row column : Nat) : List (Nat × Nat × Nat) :=
  (a.sharing row column).filter fun (_, i, j) => a.template.Lists i j

variable {a}

theorem mem_sharing {e i j row column : Nat} :
    (e, i, j) ∈ a.sharing row column ↔
      a.restriction.ReferencesAt e i row ∧ a.restriction.ReferencesAt e j column := by
  simp only [sharing, List.mem_flatMap, Prod.exists, Restriction.mem_references, List.mem_map,
    Prod.mk.injEq, Restriction.mem_slotsOf]
  constructor
  · rintro ⟨e, i, hi, j, hj, rfl, rfl, rfl⟩
    exact ⟨hi, hi.1, hj⟩
  · rintro ⟨hi, -, hj⟩
    exact ⟨e, i, hi, j, hj, rfl, rfl, rfl⟩

theorem mem_couplings {e i j row column : Nat} :
    (e, i, j) ∈ a.couplings row column ↔ a.Couples e i j row column := by
  simp [couplings, mem_sharing, Couples, and_assoc]

theorem asserts_iff {e row column : Nat} :
    a.Asserts e row column ↔ ∃ x ∈ a.couplings row column, x.1 = e := by
  simp only [Prod.exists, mem_couplings, Asserts]
  constructor
  · rintro ⟨i, j, h⟩
    exact ⟨e, i, j, h, rfl⟩
  · rintro ⟨_, i, j, h, rfl⟩
    exact ⟨i, j, h⟩

instance (e row column : Nat) : Decidable (a.Asserts e row column) :=
  decidable_of_iff _ asserts_iff.symm

theorem complete_iff {row column : Nat} :
    a.Complete row column ↔ ∀ x ∈ a.sharing row column, a.template.Lists x.2.1 x.2.2 := by
  simp only [Prod.forall, mem_sharing, Complete, and_imp]

instance (row column : Nat) : Decidable (a.Complete row column) :=
  decidable_of_iff _ complete_iff.symm

/-- The elements of the slots that share `row` and `column` do not decrease. -/
theorem pairwise_fst_sharing (row column : Nat) :
    (a.sharing row column).Pairwise fun c d => c.1 ≤ d.1 := by
  apply List.pairwise_flatMap.mpr
  constructor
  · rintro ⟨e, i⟩ -
    exact List.pairwise_map.mpr ((Restriction.nodup_slotsOf e column).imp fun _ => Nat.le_refl e)
  · apply (List.pairwise_map.mp (Restriction.pairwise_fst_references row)).imp
    intro x y hle c hc d hd
    obtain ⟨_, -, rfl⟩ := List.mem_map.mp hc
    obtain ⟨_, -, rfl⟩ := List.mem_map.mp hd
    exact hle

theorem nodup_sharing (row column : Nat) : (a.sharing row column).Nodup := by
  apply List.pairwise_flatMap.mpr
  constructor
  · rintro ⟨e, i⟩ -
    apply List.pairwise_map.mpr
    apply (Restriction.nodup_slotsOf e column).imp
    intro j j' hne heq
    exact hne (by simpa using heq)
  · apply (Restriction.nodup_references row).imp
    intro x y hne c hc d hd heq
    obtain ⟨_, -, rfl⟩ := List.mem_map.mp hc
    obtain ⟨_, -, rfl⟩ := List.mem_map.mp hd
    obtain ⟨h1, h2, -⟩ : x.1 = y.1 ∧ x.2 = y.2 ∧ _ := by simpa using heq
    exact hne (Prod.ext h1 h2)

theorem nodup_couplings (row column : Nat) : (a.couplings row column).Nodup :=
  (nodup_sharing row column).filter _

/-- Where nothing is left out, the couplings of `row` and `column` are all slots that share the
pair. -/
theorem Complete.couplings_eq {row column : Nat} (h : a.Complete row column) :
    a.couplings row column = a.sharing row column := by
  apply List.filter_eq_self.mpr
  rintro ⟨e, i, j⟩ hmem
  obtain ⟨hi, hj⟩ := mem_sharing.mp hmem
  simpa using h e i j hi hj

/-- Of all references of `dof`, those of element `e`. -/
private theorem filterMap_references {β : Type} {e : Nat} (he : e < a.restriction.numElements)
    (dof : Nat) (f : Nat × Nat → β) :
    ((a.restriction.references dof).filterMap fun x => if e = x.1 then some (f x) else none) =
      (a.restriction.slotsOf e dof).map fun j => f (e, j) := by
  rw [Restriction.references, List.filterMap_flatMap]
  refine (flatMap_eq_of_forall_ne List.nodup_range (List.mem_range.mpr he) ?_).trans ?_
  · intro e' hne
    rw [List.filterMap_map]
    exact List.filterMap_eq_nil_iff.mpr fun i _ => if_neg hne.symm
  · rw [List.filterMap_map, ← List.filterMap_eq_map]
    simp only [Function.comp_def, if_true]

/-- The slots that the owner of the pair of `row` and `column` goes over. -/
theorem sharedSlots_eq_ok {row column : Nat} (hrow : row < a.numDofs)
    (hcolumn : column < a.numDofs) :
    sharedSlots a.restriction row column = .ok ((a.sharing row column).map fun (e, i, j) =>
      (e, (a.restriction.dof e i).withIndex i, (a.restriction.dof e j).withIndex j)) := by
  simp only [sharedSlots, Restriction.incidence_eq_ok hrow, Restriction.incidence_eq_ok hcolumn,
    bind, Except.bind, pure, Except.pure, List.flatMap_map, List.filterMap_map, Function.comp_def]
  rw [sharing, List.map_flatMap]
  refine congrArg (Except.ok ∘ List.flatten) (List.map_congr_left fun ⟨e, i⟩ hmem => ?_)
  have he := (Restriction.mem_references.mp hmem).1
  rw [List.map_map]
  exact filterMap_references he column fun x => (e, (a.restriction.dof e i).withIndex i,
    (a.restriction.dof x.1 x.2).withIndex x.2)

/-! ## Values -/

section

variable [Zero α]

/-- The coefficient of candidate `k` of row `i` of element `e`. -/
def valueAt (a : Assembler α) (k i e : Nat) : α := a.values.data.getD (a.values.position k i e) 0

theorem get_eq_ok {k i e : Nat} (hk : k < a.template.width) (hi : i < a.restriction.slots)
    (he : e < a.restriction.numElements) : a.values.get k i e = .ok (a.valueAt k i e) := by
  have hposition : a.values.position k i e < a.values.data.size := by
    rw [a.values.size_eq]
    exact ElementValues.position_lt (a.values_width ▸ hk) (a.values_slots ▸ hi)
      (a.values_elements ▸ he)
  simp [ElementValues.get, valueAt, Array.getD, hposition]

variable [One α] [Neg α] [Mul α]

/-- What element `e` has to say through its slots `i` and `j`: the coefficient of the candidate of
`i` that names `j`, signed by their relative orientation. -/
def contribution (a : Assembler α) (e i j : Nat) : α :=
  (a.restriction.dof e i).relativeSign (a.restriction.dof e j) *
    a.valueAt ((a.template.listed i j).getD 0) i e

/-- The contribution of the slots `(e, i, j)`, if the template lists them. -/
def checked (a : Assembler α) : Nat × Nat × Nat → Except Error α
  | (e, i, j) =>
    if a.template.Lists i j then .ok (a.contribution e i j)
    else .error (.missingTemplateEntry i j)

/-- The value of the slots `i` and `j` of `e`, as the owner of a pair looks it up. -/
theorem slotValue_eq {e i j : Nat} (he : e < a.restriction.numElements)
    (hi : i < a.restriction.slots) (hj : j < a.restriction.slots) :
    slotValue a.template a.values e ((a.restriction.dof e i).withIndex i)
      ((a.restriction.dof e j).withIndex j) =
      a.checked (e, i, j) := by
  have hi' := Restriction.slot_lt_signedBound he hi
  have hj' := Restriction.slot_lt_signedBound he hj
  have hrow : i < a.template.slots := a.template_slots ▸ hi
  unfold slotValue checked
  simp only [SignedIndex.index_withIndex _ hi', SignedIndex.index_withIndex _ hj',
    Template.findSlot_eq_ok hrow, bind, Except.bind]
  cases hk : a.template.listed i j with
  | none => rw [if_neg (Template.listed_eq_none_iff.mp hk)]
  | some k =>
    have hnames := (Template.listed_eq_some_iff hrow).mp hk
    have hsign : ((a.restriction.dof e i).withIndex i).relativeSign
        ((a.restriction.dof e j).withIndex j) =
        (a.restriction.dof e i).relativeSign (α := α) (a.restriction.dof e j) := by
      simp [SignedIndex.relativeSign, SignedIndex.sameOrientation,
        SignedIndex.isReversed_withIndex _ hi', SignedIndex.isReversed_withIndex _ hj']
    rw [if_pos (Template.lists_iff_exists.mpr ⟨k, hnames⟩)]
    simp only [get_eq_ok (Template.lt_width_of_getElem? hnames) hi he, hsign, contribution, hk,
      Option.getD_some]
    rfl

variable [Add α]

/-- A `visit` that no other element shares writes its own contribution. -/
theorem entryValue_of_direct {visit : Visit} {slot : Nat}
    (h : VisitOf a.restriction a.template visit slot) (hdirect : visit.ownership = .direct) :
    entryValue a.restriction a.template a.values visit =
      .ok (a.contribution visit.element visit.rowSlot slot) := by
  have hrow : visit.rowSlot < a.template.slots := a.template_slots ▸ h.rowSlot_lt
  have hk := (Template.listed_eq_some_iff hrow).mpr h.names
  unfold entryValue
  simp only [hdirect, contribution, hk, h.row_eq, h.column_eq, Option.getD_some, bind, Except.bind,
    get_eq_ok (Template.lt_width_of_getElem? h.names) h.rowSlot_lt h.element_lt]
  rfl

/-- The contributions of a list `slots` of slots `(e, i, j)`, summed from zero in their order. -/
def sum (a : Assembler α) (slots : List (Nat × Nat × Nat)) : α :=
  (slots.map fun (e, i, j) => a.contribution e i j).foldl (· + ·) 0

/-- The owner of the pair of `visit` sums over the slots that share it. -/
private theorem entryValue_owner {visit : Visit} {slot : Nat}
    (h : VisitOf a.restriction a.template visit slot) (howner : visit.ownership = .owner) :
    entryValue a.restriction a.template a.values visit =
      ((a.sharing visit.row.index visit.column.index).mapM a.checked).map
        (·.foldl (· + ·) 0) := by
  unfold entryValue
  simp only [howner, sharedSlots_eq_ok h.row_lt (h.column_lt a.template_slots)]
  refine (foldlM_eq_map_mapM
    (fun x : Nat × SignedIndex × SignedIndex => slotValue a.template a.values x.1 x.2.1 x.2.2)
    (fun sum value : α => sum + value) 0 _).trans ?_
  rw [List.mapM_map]
  congr 1
  apply mapM_congr
  rintro ⟨e, i, j⟩ hmem
  obtain ⟨hi, hj⟩ := mem_sharing.mp hmem
  exact slotValue_eq hi.1 hi.2.1 hj.2.1

/-- Where nothing is left out, the owner of the pair of `visit` writes the sum of all contributions.
-/
theorem entryValue_of_owner {visit : Visit} {slot : Nat}
    (h : VisitOf a.restriction a.template visit slot) (howner : visit.ownership = .owner)
    (hcomplete : a.Complete visit.row.index visit.column.index) :
    entryValue a.restriction a.template a.values visit =
      .ok (a.sum (a.couplings visit.row.index visit.column.index)) := by
  have hchecked : ∀ x ∈ a.sharing visit.row.index visit.column.index,
      a.checked x = .ok (a.contribution x.1 x.2.1 x.2.2) := by
    rintro ⟨e, i, j⟩ hmem
    obtain ⟨hi, hj⟩ := mem_sharing.mp hmem
    exact if_pos (hcomplete e i j hi hj)
  rw [entryValue_owner h howner, mapM_eq_ok_map hchecked, hcomplete.couplings_eq]
  rfl

/-- Where something is left out, the owner of the pair of `visit` fails. -/
theorem entryValue_of_not_complete {visit : Visit} {slot : Nat}
    (h : VisitOf a.restriction a.template visit slot) (howner : visit.ownership = .owner)
    (hcomplete : ¬ a.Complete visit.row.index visit.column.index) :
    ∃ i j, entryValue a.restriction a.template a.values visit =
      .error (.missingTemplateEntry i j) := by
  simp only [Complete, Classical.not_forall] at hcomplete
  obtain ⟨e, i, j, hi, hj, hlists⟩ := hcomplete
  have herror : a.checked (e, i, j) = .error (.missingTemplateEntry i j) := if_neg hlists
  obtain ⟨⟨e', i', j'⟩, -, error, hfirst, hlist⟩ :=
    exists_mapM_eq_error (mem_sharing.mpr ⟨hi, hj⟩) herror
  refine ⟨i', j', ?_⟩
  have herror : error = .missingTemplateEntry i' j' := by
    by_cases hl : a.template.Lists i' j'
    · rw [checked, if_pos hl] at hfirst
      cases hfirst
    · rw [checked, if_neg hl] at hfirst
      exact (Except.error.inj hfirst).symm
  rw [entryValue_owner h howner, hlist, herror]
  rfl

end

end Assembler

end FemAssembly
