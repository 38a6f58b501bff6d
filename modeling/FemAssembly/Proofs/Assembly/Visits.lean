import FemAssembly.Assembly.Assembler
import FemAssembly.Proofs.Restriction.Incidence
import FemAssembly.Proofs.Sequence.Results
import FemAssembly.Proofs.Template.Lookup

/-!
# What is visited

For a template with as many slots as the restriction, no visit asks for anything outside its array,
so the visits are a plain list.

* `Restriction.role`: how an element writes a pair of degrees of freedom (DOFs), if it does.
* `rowVisits`, `taskVisits`: the visits of a row slot, and of every row slot.
* `tasks_eq_ok`: these are what the passes of assembly go over.
* `VisitOf`: a visit, with the column slot that its candidate names. `mem_flatten_taskVisits` says
  that the visits are all of them, and `nodup_flatten_taskVisits` that each is made once.
-/

namespace FemAssembly

namespace Restriction

variable (r : Restriction)

/-- One of the DOFs `row` and `column` is referenced by a single slot. -/
def Unshared (row column : Nat) : Prop :=
  (r.references row).length = 1 ∨ (r.references column).length = 1

instance (row column : Nat) : Decidable (r.Unshared row column) :=
  inferInstanceAs (Decidable (_ ∨ _))

/-- How `element` writes the pair of `row` and `column`, if it does. -/
def role (element row column : Nat) : Option Ownership :=
  if r.Unshared row column then some .direct
  else if r.elected row column = some element then some .owner else none

variable {r}

theorem role_eq_direct_iff {element row column : Nat} :
    r.role element row column = some .direct ↔ r.Unshared row column := by
  unfold role
  split
  · simp [*]
  · split <;> simp [*]

theorem role_eq_owner_iff {element row column : Nat} :
    r.role element row column = some .owner ↔
      ¬ r.Unshared row column ∧ r.IsFirstCommon row column element := by
  unfold role
  rw [← elected_eq_some_iff]
  split
  · simp [*]
  · split <;> simp [*]

theorem ownershipOf_eq_ok {row column : Nat} (hrow : row < r.numDofs) (hcolumn : column < r.numDofs)
    (element : Nat) : ownershipOf r element row column = .ok (r.role element row column) := by
  unfold ownershipOf role
  rw [degree_eq_ok hrow, degree_eq_ok hcolumn, firstCommonElement_eq_ok hrow hcolumn]
  simp only [bind, Except.bind, pure, Except.pure]
  by_cases h : r.Unshared row column
  · rw [if_pos h]
    exact if_pos h
  · rw [if_neg h]
    exact if_neg h

end Restriction

/-! ## The list of visits -/

/-- The visits of the slot `rowSlot` of `element`, by increasing candidate. -/
def rowVisits (r : Restriction) (t : Template) (element rowSlot : Nat) : List Visit :=
  (presentColumns (Template.rowOf t.width t.mapping rowSlot)).filterMap fun (candidate, slot) =>
    (r.role element (r.dof element rowSlot).index (r.dof element slot).index).map
      (Visit.mk element rowSlot candidate (r.dof element rowSlot) (r.dof element slot))

/-- The visits of every row slot of `r`, element by element. -/
def taskVisits (r : Restriction) (t : Template) : List (List Visit) :=
  (List.range (r.numElements * r.slots)).map fun i => rowVisits r t (i / r.slots) (i % r.slots)

section

variable {r : Restriction} {t : Template}

theorem visits_eq_ok (hslots : t.slots = r.slots) {element rowSlot : Nat}
    (he : element < r.numElements) (hs : rowSlot < r.slots) :
    visits r t element rowSlot = .ok (rowVisits r t element rowSlot) := by
  have hcolumns : (presentColumns (Template.rowOf t.width t.mapping rowSlot)).mapM
      (fun (candidate, slot) => do
        let column ← r.elementDof element slot
        let ownership ← ownershipOf r element (r.dof element rowSlot).index column.index
        pure (ownership.map (Visit.mk element rowSlot candidate (r.dof element rowSlot) column))) =
      .ok ((presentColumns (Template.rowOf t.width t.mapping rowSlot)).map fun (candidate, slot) =>
        (r.role element (r.dof element rowSlot).index (r.dof element slot).index).map
          (Visit.mk element rowSlot candidate (r.dof element rowSlot) (r.dof element slot))) := by
    apply mapM_eq_ok_map
    rintro ⟨candidate, slot⟩ hmem
    have hslot : slot < r.slots :=
      hslots ▸ Template.column_lt_of_getElem? (mem_presentColumns.mp hmem)
    simp only [Restriction.elementDof_eq_ok he hslot, bind, Except.bind,
      Restriction.ownershipOf_eq_ok (Restriction.dof_index_lt he hs)
        (Restriction.dof_index_lt he hslot)]
    rfl
  unfold visits
  rw [Restriction.elementDof_eq_ok he hs, Template.rowColumns_eq_ok (hslots ▸ hs)]
  simp only [bind, Except.bind] at hcolumns ⊢
  rw [hcolumns]
  simp [rowVisits, pure, Except.pure, List.filterMap_map]

/-- The number `i` of a row slot splits into its element and its place there. -/
theorem div_lt_numElements {i : Nat} (h : i < r.numElements * r.slots) :
    i / r.slots < r.numElements ∧ i % r.slots < r.slots := by
  have hpos : 0 < r.slots := Nat.pos_of_ne_zero fun h0 => by simp [h0] at h
  exact ⟨(Nat.div_lt_iff_lt_mul hpos).mpr h, Nat.mod_lt i hpos⟩

theorem tasks_eq_ok (hslots : t.slots = r.slots) : tasks r t = .ok (taskVisits r t) := by
  apply mapM_eq_ok_map
  intro i hi
  obtain ⟨he, hs⟩ := div_lt_numElements (List.mem_range.mp hi)
  exact visits_eq_ok hslots he hs

/-! ## Visits and slots -/

/-- The visit `visit` is that of a candidate which names the column slot `slot`. -/
structure VisitOf (r : Restriction) (t : Template) (visit : Visit) (slot : Nat) : Prop where
  element_lt : visit.element < r.numElements
  rowSlot_lt : visit.rowSlot < r.slots
  names : (Template.rowOf t.width t.mapping visit.rowSlot)[visit.candidate]? = some (some slot)
  row_eq : visit.row = r.dof visit.element visit.rowSlot
  column_eq : visit.column = r.dof visit.element slot
  role_eq : r.role visit.element visit.row.index visit.column.index = some visit.ownership

theorem mem_rowVisits {element rowSlot : Nat} (he : element < r.numElements)
    (hs : rowSlot < r.slots) {visit : Visit} :
    visit ∈ rowVisits r t element rowSlot ↔
      visit.element = element ∧ visit.rowSlot = rowSlot ∧ ∃ slot, VisitOf r t visit slot := by
  simp only [rowVisits, List.mem_filterMap, Prod.exists, mem_presentColumns,
    Option.map_eq_some_iff]
  constructor
  · rintro ⟨k, slot, hnames, ownership, hrole, rfl⟩
    exact ⟨rfl, rfl, slot, he, hs, hnames, rfl, rfl, hrole⟩
  · rintro ⟨rfl, rfl, slot, h⟩
    obtain ⟨element, rowSlot, candidate, row, column, ownership⟩ := visit
    obtain ⟨-, -, hnames, hrow, hcolumn, hrole⟩ := h
    dsimp only at *
    subst hrow hcolumn
    exact ⟨candidate, slot, hnames, ownership, hrole, rfl⟩

/-- The visits that assembly of `r` and `t` makes are those of all candidates. -/
theorem mem_flatten_taskVisits {visit : Visit} :
    visit ∈ (taskVisits r t).flatten ↔ ∃ slot, VisitOf r t visit slot := by
  simp only [taskVisits, List.mem_flatten, List.mem_map, List.mem_range]
  constructor
  · rintro ⟨_, ⟨i, hi, rfl⟩, hmem⟩
    obtain ⟨he, hs⟩ := div_lt_numElements hi
    exact ((mem_rowVisits he hs).mp hmem).2.2
  · rintro ⟨slot, h⟩
    refine ⟨_, ⟨r.slots * visit.element + visit.rowSlot, ?_, rfl⟩, ?_⟩
    · have := Restriction.position_lt h.element_lt h.rowSlot_lt
      rwa [r.size_eq, Nat.mul_comm r.slots r.numElements] at this
    · have hpos : 0 < r.slots := Nat.lt_of_le_of_lt (Nat.zero_le _) h.rowSlot_lt
      rw [Nat.mul_add_div hpos, Nat.div_eq_of_lt h.rowSlot_lt, Nat.add_zero, Nat.mul_add_mod,
        Nat.mod_eq_of_lt h.rowSlot_lt]
      exact (mem_rowVisits h.element_lt h.rowSlot_lt).mpr ⟨rfl, rfl, slot, h⟩

/-- A `visit` is determined by its element, row slot and candidate. -/
theorem VisitOf.eq {visit visit' : Visit} {slot slot' : Nat} (h : VisitOf r t visit slot)
    (h' : VisitOf r t visit' slot') (he : visit.element = visit'.element)
    (hs : visit.rowSlot = visit'.rowSlot) (hk : visit.candidate = visit'.candidate) :
    visit = visit' := by
  obtain ⟨element, rowSlot, candidate, row, column, ownership⟩ := visit
  obtain ⟨element', rowSlot', candidate', row', column', ownership'⟩ := visit'
  obtain ⟨-, -, hnames, hrow, hcolumn, hrole⟩ := h
  obtain ⟨-, -, hnames', hrow', hcolumn', hrole'⟩ := h'
  dsimp only at *
  subst he hs hk
  have hslot : slot = slot' := by
    rw [hnames] at hnames'
    simpa using hnames'
  subst hslot hrow hrow' hcolumn hcolumn'
  rw [hrole] at hrole'
  rw [Option.some.inj hrole']

theorem nodup_rowVisits (element rowSlot : Nat) : (rowVisits r t element rowSlot).Nodup := by
  apply List.pairwise_filterMap.mpr
  apply (pairwise_presentColumns _).imp
  intro a b hab x hx y hy hxy
  obtain ⟨_, -, rfl⟩ := Option.map_eq_some_iff.mp hx
  obtain ⟨_, -, rfl⟩ := Option.map_eq_some_iff.mp hy
  have hk : a.1 = b.1 := congrArg Visit.candidate hxy
  omega

theorem nodup_flatten_taskVisits : (taskVisits r t).flatten.Nodup := by
  apply List.pairwise_flatten.mpr
  constructor
  · intro list hlist
    obtain ⟨i, -, rfl⟩ := List.mem_map.mp hlist
    exact nodup_rowVisits _ _
  · apply List.pairwise_map.mpr
    apply List.pairwise_lt_range.imp_of_mem
    intro i j hi hj hij x hx y hy hxy
    obtain ⟨hei, hsi⟩ := div_lt_numElements (List.mem_range.mp hi)
    obtain ⟨hej, hsj⟩ := div_lt_numElements (List.mem_range.mp hj)
    obtain ⟨hx1, hx2, -⟩ := (mem_rowVisits hei hsi).mp hx
    obtain ⟨hy1, hy2, -⟩ := (mem_rowVisits hej hsj).mp hy
    subst hxy
    have hdiv : i / r.slots = j / r.slots := hx1.symm.trans hy1
    have hmod : i % r.slots = j % r.slots := hx2.symm.trans hy2
    have hi' := Nat.div_add_mod i r.slots
    have hj' := Nat.div_add_mod j r.slots
    rw [hdiv, hmod] at hi'
    omega

/-! ## Pairs -/

/-- The row and column of a `visit` are DOFs of `r`. -/
theorem VisitOf.row_lt {visit : Visit} {slot : Nat} (h : VisitOf r t visit slot) :
    visit.row.index < r.numDofs := by
  rw [h.row_eq]
  exact Restriction.dof_index_lt h.element_lt h.rowSlot_lt

theorem VisitOf.slot_lt {visit : Visit} {slot : Nat} (hslots : t.slots = r.slots)
    (h : VisitOf r t visit slot) : slot < r.slots :=
  hslots ▸ Template.column_lt_of_getElem? h.names

theorem VisitOf.column_lt {visit : Visit} {slot : Nat} (hslots : t.slots = r.slots)
    (h : VisitOf r t visit slot) : visit.column.index < r.numDofs := by
  rw [h.column_eq]
  exact Restriction.dof_index_lt h.element_lt (h.slot_lt hslots)

end

end FemAssembly
