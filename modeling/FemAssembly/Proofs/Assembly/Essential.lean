import FemAssembly.Proofs.Assembly.Dirichlet
import FemAssembly.Proofs.Assembly.Entries
import FemAssembly.Proofs.Template.Stencil

/-!
# Assembly with essential degrees of freedom

Elimination reaches a column through the row of the essential degree of freedom (DOF), so it clears
the column only where the matrix stores the transposed positions. With a symmetric template it does:
an element that names a pair names the transposed pair, the two have the same degrees, and the same
element is elected for both.

* `Template.Symmetric`: rows list each other. Dense templates and stencils are symmetric.
* `Assembler.Assembled.isSome_get?_comm`: an assembled matrix stores a position with its transpose.
* `Assembler.assemble_clears_essential`: the outcome of assembly with essential DOFs.
-/

namespace FemAssembly

/-! ## Symmetric templates -/

namespace Template

variable {t : Template}

/-- A slot `j` that `t` lists in the row of `i` lists `i` in turn. -/
def Symmetric (t : Template) : Prop := ∀ i < t.slots, ∀ j < t.slots, t.Lists i j → t.Lists j i

instance (t : Template) : Decidable t.Symmetric :=
  inferInstanceAs (Decidable (∀ i < t.slots, ∀ j < t.slots, _))

theorem symmetric_of_dense {slots : Nat} (h : dense slots = .ok t) : t.Symmetric := by
  have hslots : t.slots = slots := by
    obtain ⟨_, -, h⟩ := bind_eq_ok_iff.mp h
    exact (of_ofMapping_eq_ok h).1
  intro i hi j hj _
  exact lists_of_dense h (hslots ▸ hj) (hslots ▸ hi)

theorem IsStencil.symmetric {dim order : Nat} (h : t.IsStencil dim order) : t.Symmetric := by
  intro i hi j hj hlists
  rw [h.slots_eq] at hi hj
  obtain ⟨-, hnear⟩ := (h.lists_iff hi).mp hlists
  exact (h.lists_iff hj).mpr ⟨hi, Grid.near_comm.mp hnear⟩

end Template

theorem Restriction.unshared_comm {r : Restriction} {row column : Nat} :
    r.Unshared row column ↔ r.Unshared column row := or_comm

/-! ## Transposed positions -/

namespace Assembler

variable {α : Type} {a : Assembler α} {e row column : Nat}

theorem Asserts.symm (hsymmetric : a.template.Symmetric) (h : a.Asserts e row column) :
    a.Asserts e column row := by
  obtain ⟨i, j, hi, hj, hlists⟩ := h
  have hslots := a.template_slots
  exact ⟨j, i, hj, hi, hsymmetric i (hslots ▸ hi.2.1) j (hslots ▸ hj.2.1) hlists⟩

variable [Zero α] [One α] [Neg α] [Add α] [Mul α] {A : SparseMatrix α}

/-- The transposed position of a stored entry of `A` is visited for the same reason as the entry. -/
theorem Assembled.isSome_get?_transpose (h : a.Assembled A) (hsymmetric : a.template.Symmetric)
    (hsome : (A.get? row column).isSome) : (A.get? column row).isSome := by
  obtain ⟨value, hget⟩ := Option.isSome_iff_exists.mp hsome
  rcases h.entry_cases hget with
    ⟨hunshared, e, i, j, hcouplings, -⟩ | ⟨-, -, ⟨e, hfirst, hasserts⟩, -⟩
  · have hasserts : a.Asserts e row column := ⟨i, j, mem_couplings.mp (by simp [hcouplings])⟩
    exact h.isSome_get?_of_unshared (hasserts.symm hsymmetric)
      (Restriction.unshared_comm.mp hunshared)
  · exact h.isSome_get?_of_isFirstCommon hfirst.symm (hasserts.symm hsymmetric)

theorem Assembled.isSome_get?_comm (h : a.Assembled A) (hsymmetric : a.template.Symmetric)
    (row column : Nat) : (A.get? row column).isSome = (A.get? column row).isSome :=
  Bool.eq_iff_iff.mpr ⟨h.isSome_get?_transpose hsymmetric, h.isSome_get?_transpose hsymmetric⟩

/-- Assembly of `a` with essential `dofs` fails exactly as assembly without them does. -/
theorem result_assemble_eq_map {dofs : List Nat} (hdofs : ∀ dof ∈ dofs, dof < a.numDofs) :
    (a.assemble dofs).result =
      a.assembleWithoutEssential.result.map (dofs.foldl SparseMatrix.decoupleRow ·) := by
  cases hA : a.assembleWithoutEssential.result with
  | error error =>
    rw [assemble, Noted.result_bind, hA]
    rfl
  | ok A =>
    have h := assembled_of_result_eq_ok hA
    exact result_assemble hA (by rw [h.ncols_eq, h.nrows_eq]) (h.nrows_eq ▸ hdofs)

/-- Dense templates and stencils are symmetric. With a template that is `Symmetric` and essential
`dofs` of the matrix, assembly of `a` fails exactly as it does without essential DOFs, and otherwise
the matrix `B` has the same shape and the same stored positions as the matrix `A` without essential
DOFs. An entry off the diagonal is zero if its row or its column is in `dofs`, and all other entries
are those of `A`. -/
theorem assemble_clears_essential (a : Assembler α) :
    (∀ slots, Template.dense slots = .ok a.template → a.template.Symmetric) ∧
    (∀ dim order, Template.tensorStencil dim order = .ok a.template → a.template.Symmetric) ∧
    (a.template.Symmetric → ∀ dofs : List Nat, (∀ dof ∈ dofs, dof < a.numDofs) →
      (∀ error, (a.assemble dofs).result = .error error ↔
        a.assembleWithoutEssential.result = .error error) ∧
      ((∃ B, (a.assemble dofs).result = .ok B) ↔
        ∃ A, a.assembleWithoutEssential.result = .ok A) ∧
      ∀ A B, a.assembleWithoutEssential.result = .ok A → (a.assemble dofs).result = .ok B →
        B.nrows = A.nrows ∧ B.ncols = A.ncols ∧
        ∀ row column,
          (B.get? row column).isSome = (A.get? row column).isSome ∧
          B.get? row column = (A.get? row column).map fun value =>
            if row ≠ column ∧ (row ∈ dofs ∨ column ∈ dofs) then 0 else value) := by
  refine ⟨fun _ => Template.symmetric_of_dense,
    fun _ _ h => (Template.isStencil_of_tensorStencil h).symmetric, ?_⟩
  intro hsymmetric dofs hdofs
  rw [result_assemble_eq_map hdofs]
  refine ⟨fun error => ?_, ?_, ?_⟩
  · cases a.assembleWithoutEssential.result <;> simp [Except.map]
  · cases a.assembleWithoutEssential.result <;> simp [Except.map]
  · intro A B hA hB
    rw [hA] at hB
    obtain rfl := Except.ok.inj hB
    have hshape : (dofs.foldl SparseMatrix.decoupleRow A).SameShape A :=
      SparseMatrix.sameShape_foldl
        (fun M dof => SparseMatrix.sameShape_foldl_decouple dof _ M) dofs A
    refine ⟨hshape.1, hshape.2, fun row column => ?_⟩
    have hcomm := (assembled_of_result_eq_ok hA).isSome_get?_comm hsymmetric row column
    rw [SparseMatrix.get?_foldl_decoupleRow]
    refine ⟨Option.isSome_map .., ?_⟩
    cases hget : A.get? row column with
    | none => rfl
    | some value =>
      have hmirrored : (A.get? column row).isSome = true := by
        rw [← hcomm, hget, Option.isSome_some]
      simp only [Option.map_some, hmirrored, eliminated, List.contains_iff_mem, Bool.and_true,
        Bool.or_eq_true, id]
      grind

/-- Two elements with the DOFs `0 2 3` and `0 1 2`, of which the first sees `3` reversed. The
template couples the outer slots, so only the second element names the pair `(0, 2)`, which both
share. -/
def outerSlots : Assembler Int where
  kind := .h1
  restriction := {
    numDofs := 4
    slots := 3
    gather := #[.positive 0, .positive 2, .reversed 3, .positive 0, .positive 1, .positive 2]
    incident := incidenceTable 4
      #[.positive 0, .positive 2, .reversed 3, .positive 0, .positive 1, .positive 2]
    slots_dvd := by decide
    index_lt := by decide
    size_lt := by decide
    incident_eq := rfl }
  template := {
    slots := 3
    width := 2
    mapping := #[some 0, some 2, some 1, none, some 2, some 0]
    size_eq := rfl
    column_lt := by simp
    nodup := by decide }
  values := {
    width := 2, slots := 3, numElements := 2
    data := #[2, 5, 3, 0, 4, 6, 1, 7, 1, 0, 8, 9]
    size_eq := rfl }
  options := {}
  degree_le := rfl
  template_slots := rfl
  values_slots := rfl
  values_width := rfl
  values_elements := rfl

/-- The DOF `0` of `outerSlots` is eliminated, given twice: its coupling with `3` is cleared in both
directions, and the diagonal stays. -/
theorem assemble_clears_essential_outerSlots :
    ∃ B, (outerSlots.assemble [0, 0]).result = .ok B ∧ B.get? 0 3 = some 0 ∧
      B.get? 3 0 = some 0 ∧ (B.get? 0 0).isSome := by
  obtain ⟨-, -, hessential⟩ := assemble_clears_essential outerSlots
  obtain ⟨-, hiff, hentries⟩ := hessential (by decide +kernel) [0, 0] (by decide +kernel)
  obtain ⟨A, hA⟩ := exists_result_eq_ok (a := outerSlots) (by decide +kernel) (by decide +kernel)
  obtain ⟨B, hB⟩ := hiff.mpr ⟨A, hA⟩
  obtain ⟨-, -, hentries⟩ := hentries A B hA hB
  have h := assembled_of_result_eq_ok hA
  have hcoupled : outerSlots.Asserts 0 0 3 := by decide +kernel
  have hunshared : outerSlots.restriction.Unshared 0 3 := by decide +kernel
  have hrow := h.isSome_get?_of_unshared hcoupled hunshared
  have hcolumn := h.isSome_get?_of_unshared (hcoupled.symm (by decide +kernel))
    (Restriction.unshared_comm.mp hunshared)
  have hdiagonal : (A.get? 0 0).isSome := h.isSome_get?_of_isFirstCommon (e := 0)
    (by decide +kernel) (by decide +kernel)
  obtain ⟨value, hvalue⟩ := Option.isSome_iff_exists.mp hrow
  obtain ⟨value', hvalue'⟩ := Option.isSome_iff_exists.mp hcolumn
  refine ⟨B, hB, ?_, ?_, ?_⟩
  · rw [(hentries 0 3).2, hvalue]
    rfl
  · rw [(hentries 3 0).2, hvalue']
    rfl
  · rwa [(hentries 0 0).1]

end Assembler

end FemAssembly
