import FemAssembly.Proofs.Assembly.Entries
import Mathlib

/-!
# Assembly on coherent meshes

Where no element references a degree of freedom (DOF) twice and the elements that share a pair agree
on whether they name it, assembly cannot fail, and its matrix holds every pair that is named, with
the contributions of all elements.

* `Restriction.DistinctDofs`, `Assembler.Coherent`: the two conditions. Dense templates meet the
  second (`Assembler.coherent_of_dense`).
* `Assembler.Coherent.valued`, `Assembler.visitsOnce_of_distinctDofs`: what the visits owe to them.
* `Assembler.exists_assembled_of_coherent`: assembly succeeds, and what it gives.
-/

namespace FemAssembly

/-- No element `e` references a DOF through two slots. -/
def Restriction.DistinctDofs (r : Restriction) : Prop :=
  ∀ e i j dof, r.ReferencesAt e i dof → r.ReferencesAt e j dof → i = j

theorem Restriction.distinctDofs_iff {r : Restriction} :
    r.DistinctDofs ↔ ∀ e < r.numElements, ∀ i < r.slots, ∀ j < r.slots,
      (r.dof e i).index = (r.dof e j).index → i = j := by
  constructor
  · intro h e he i hi j hj heq
    exact h e i j _ ⟨he, hi, rfl⟩ ⟨he, hj, heq.symm⟩
  · rintro h e i j dof ⟨he, hi, rfl⟩ ⟨-, hj, heq⟩
    exact h e he i hi j hj heq.symm

/-- The DOF `dof` has each of its elements once. -/
theorem Restriction.DistinctDofs.nodup_elements {r : Restriction} (h : r.DistinctDofs)
    (dof : Nat) : ((r.references dof).map Prod.fst).Nodup := by
  refine (nodup_references dof).map_on ?_
  rintro ⟨e, i⟩ hi ⟨e', j⟩ hj rfl
  rw [h e i j dof (mem_references.mp hi) (mem_references.mp hj)]

instance (r : Restriction) : Decidable r.DistinctDofs :=
  decidable_of_iff _ Restriction.distinctDofs_iff.symm

namespace Assembler

variable {α : Type} {a : Assembler α}

/-- Of the elements that reference both `row` and `column`, all name the pair or none does. -/
def Coherent (a : Assembler α) : Prop :=
  ∀ row column e e', a.restriction.References e row → a.restriction.References e column →
    a.restriction.References e' row → a.restriction.References e' column →
    (a.Asserts e row column ↔ a.Asserts e' row column)

theorem coherent_of_dense (h : Template.dense a.template.slots = .ok a.template) : a.Coherent := by
  have hall : ∀ {row column e}, a.restriction.References e row →
      a.restriction.References e column → a.Asserts e row column := by
    rintro row column e ⟨i, hi⟩ ⟨j, hj⟩
    exact ⟨i, j, hi, hj, Template.lists_of_dense h (a.template_slots ▸ hi.2.1)
      (a.template_slots ▸ hj.2.1)⟩
  intro row column e e' her hec her' hec'
  exact iff_of_true (hall her hec) (hall her' hec')

section

variable (hdistinct : a.restriction.DistinctDofs) {row column : Nat}
include hdistinct

/-- One coupling of element `e` is all its couplings of `row` and `column`. -/
theorem Couples.eq_of_distinctDofs {e i j i' j' : Nat} (h : a.Couples e i j row column)
    (h' : a.Couples e i' j' row column) : i = i' ∧ j = j' :=
  ⟨hdistinct _ _ _ _ h.1 h'.1, hdistinct _ _ _ _ h.2.1 h'.2.1⟩

/-- Where some `e` names `row` and `column`, no slots that share the pair are left out. -/
theorem Coherent.complete (h : a.Coherent) {e : Nat} (hasserts : a.Asserts e row column) :
    a.Complete row column := by
  intro e' i j hi hj
  obtain ⟨i', j', hcouples⟩ := (h row column e e' hasserts.references.1 hasserts.references.2
    ⟨i, hi⟩ ⟨j, hj⟩).mp hasserts
  rw [hdistinct _ _ _ _ hi hcouples.1, hdistinct _ _ _ _ hj hcouples.2.1]
  exact hcouples.2.2

/-- The pair of `row` and `column` has one coupling for each element that names it, by increasing
element. -/
theorem pairwise_fst_couplings (row column : Nat) :
    ((a.couplings row column).map Prod.fst).Pairwise (· < ·) := by
  have hle : (a.couplings row column).Pairwise fun c d => c.1 ≤ d.1 :=
    (pairwise_fst_sharing row column).filter _
  apply List.pairwise_map.mpr
  apply (hle.and (nodup_couplings row column)).imp_of_mem
  rintro ⟨e, i, j⟩ ⟨e', i', j'⟩ hc hd ⟨hle, hne⟩
  apply Nat.lt_of_le_of_ne hle
  intro heq
  obtain rfl : e = e' := heq
  apply hne
  obtain ⟨rfl, rfl⟩ := (mem_couplings.mp hc).eq_of_distinctDofs hdistinct (mem_couplings.mp hd)
  rfl

/-- No pair is visited twice by `a`, if no element has a DOF twice. -/
theorem visitsOnce_of_distinctDofs : a.VisitsOnce := by
  intro visit hmem visit' hmem' hrow hcolumn
  obtain ⟨slot, hvisit⟩ := mem_visits.mp hmem
  obtain ⟨slot', hvisit'⟩ := mem_visits.mp hmem'
  have helement := hvisit.element_eq_of_pair a.template_slots hvisit' hrow hcolumn
  have hi := hvisit.referencesAt_row
  have hj := hvisit.referencesAt_column a.template_slots
  have hi' := hvisit'.referencesAt_row
  have hj' := hvisit'.referencesAt_column a.template_slots
  rw [← hrow, ← helement] at hi'
  rw [← hcolumn, ← helement] at hj'
  exact hvisit.eq_of_slots a.template_slots hvisit' helement (hdistinct _ _ _ _ hi hi')
    (hdistinct _ _ _ _ hj hj')

variable [Zero α] [One α] [Neg α] [Add α] [Mul α]

/-- Every visit of `a` has a value, if its template is coherent. -/
theorem Coherent.valued (h : a.Coherent) : a.Valued := by
  intro visit hmem
  obtain ⟨slot, hvisit⟩ := mem_visits.mp hmem
  have hasserts : a.Asserts visit.element visit.row.index visit.column.index :=
    ⟨_, _, couples_of_visitOf hvisit⟩
  cases hownership : visit.ownership with
  | direct => exact ⟨_, entryValue_of_direct hvisit hownership⟩
  | owner => exact ⟨_, entryValue_of_owner hvisit hownership (h.complete hdistinct hasserts)⟩

end

variable [Zero α] [One α] [Neg α] [Add α] [Mul α]

/-- With a coherent template, `A` stores the pairs that elements name. -/
theorem Assembled.isSome_get?_iff {A : SparseMatrix α} (h : a.Assembled A)
    (hcoherent : a.Coherent) (row column : Nat) :
    (A.get? row column).isSome ↔ ∃ e, a.Asserts e row column := by
  constructor
  · intro hsome
    obtain ⟨value, hget⟩ := Option.isSome_iff_exists.mp hsome
    exact h.exists_asserts hget
  · rintro ⟨e, hasserts⟩
    obtain ⟨hrow, hcolumn⟩ := hasserts.references
    obtain ⟨first, hfirst⟩ := Restriction.exists_isFirstCommon hrow hcolumn
    have hnames : a.Asserts first row column :=
      (hcoherent row column e first hrow hcolumn hfirst.1 hfirst.2.1).mp hasserts
    exact h.isSome_get?_of_isFirstCommon hfirst hnames

/-- Dense templates are coherent. With a template that is `Coherent` and no DOF twice in an element,
`DistinctDofs`, assembly of `a` succeeds. The matrix `A` is square, with increasing columns. It
stores the pairs that some `e` names. A `value` is the single contribution where `row` or `column`
is referenced once, and else the sum of the contributions of the elements that name the pair, from
zero by increasing element; where `0 + x = x`, it is the sum in both cases. -/
theorem exists_assembled_of_coherent (a : Assembler α) :
    (Template.dense a.template.slots = .ok a.template → a.Coherent) ∧
    (a.restriction.DistinctDofs → a.Coherent →
      ∃ A, a.assembleWithoutEssential.result = .ok A ∧
        A.nrows = a.numDofs ∧ A.ncols = a.numDofs ∧ (∀ row, (A.row row).Sorted) ∧
        (∀ row column, (A.get? row column).isSome ↔ ∃ e, a.Asserts e row column) ∧
        ∀ row column value, A.get? row column = some value →
          ((a.couplings row column).map Prod.fst).Pairwise (· < ·) ∧
          (∀ e, e ∈ (a.couplings row column).map Prod.fst ↔ a.Asserts e row column) ∧
          (a.restriction.Unshared row column → ∃ e i j, a.couplings row column = [(e, i, j)] ∧
            value = a.contribution e i j) ∧
          (¬ a.restriction.Unshared row column → value = a.sum (a.couplings row column)) ∧
          ((∀ x : α, 0 + x = x) → value = a.sum (a.couplings row column))) := by
  refine ⟨coherent_of_dense, ?_⟩
  intro hdistinct hcoherent
  obtain ⟨A, hA⟩ := exists_result_eq_ok (hcoherent.valued hdistinct)
    (visitsOnce_of_distinctDofs hdistinct)
  have h := assembled_of_result_eq_ok hA
  refine ⟨A, hA, h.nrows_eq, h.ncols_eq, A.sorted_row, h.isSome_get?_iff hcoherent, ?_⟩
  intro row column value hget
  refine ⟨pairwise_fst_couplings hdistinct row column, ?_, ?_, ?_, ?_⟩
  · intro e
    rw [asserts_iff, List.mem_map]
  · intro hunshared
    rcases h.entry_cases hget with ⟨-, hsingle⟩ | ⟨hshared, -⟩
    · exact hsingle
    · exact absurd hunshared hshared
  · intro hshared
    rcases h.entry_cases hget with ⟨hunshared, -⟩ | ⟨-, -, -, hvalue⟩
    · exact absurd hunshared hshared
    · exact hvalue
  · intro hzero
    exact h.value_eq_sum hzero hget

/-- Two elements with the DOFs `0 1` and `1 2`, and a dense template. -/
def chain : Assembler Int where
  kind := .h1
  restriction := {
    numDofs := 3
    slots := 2
    gather := #[.positive 0, .positive 1, .positive 1, .positive 2]
    incident := incidenceTable 3 #[.positive 0, .positive 1, .positive 1, .positive 2]
    slots_dvd := by decide
    index_lt := by decide
    size_lt := by decide
    incident_eq := rfl }
  template := {
    slots := 2
    width := 2
    mapping := #[some 0, some 1, some 0, some 1]
    size_eq := rfl
    column_lt := by simp
    nodup := by decide }
  values := {
    width := 2, slots := 2, numElements := 2
    data := #[1, -1, -1, 1, 2, -2, -2, 2]
    size_eq := rfl }
  options := {}
  degree_le := rfl
  template_slots := rfl
  values_slots := rfl
  values_width := rfl
  values_elements := rfl

/-- The matrix of `chain` adds up at the shared DOF `1`. -/
theorem exists_assembled_of_coherent_chain :
    ∃ A, chain.assembleWithoutEssential.result = .ok A ∧ A.get? 1 1 = some 3 := by
  obtain ⟨hdense, hcorrect⟩ := exists_assembled_of_coherent chain
  obtain ⟨A, hA, -, -, -, hstored, hvalues⟩ := hcorrect (by decide +kernel) (hdense rfl)
  have hasserts : chain.Asserts 0 1 1 := by decide +kernel
  obtain ⟨value, hget⟩ := Option.isSome_iff_exists.mp ((hstored 1 1).mpr ⟨0, hasserts⟩)
  obtain ⟨-, -, -, -, hvalue⟩ := hvalues 1 1 value hget
  have hsum : chain.sum (chain.couplings 1 1) = 3 := by decide +kernel
  exact ⟨A, hA, by rw [hget, hvalue Int.zero_add, hsum]⟩

end Assembler

end FemAssembly
