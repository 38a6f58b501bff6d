import FemAssembly.Proofs.Assembly.Independence
import FemAssembly.Proofs.SignedIndex

/-!
# Reorientation

The orientations of the slots are a choice. To turn some degrees of freedom (DOFs) around wherever
they are referenced changes the basis in which the matrix is written, and nothing else.

* `SignedIndex.flip`, `SignedIndex.flipOn`: the other orientation, of every index or of those in a
  set. `SignedIndex.relativeSign_flipOn`: two indices of which one is turned around get the other
  sign.
* `reorient`: a gather map with the DOFs of a set turned around. `Restriction.Turned`: how the
  restrictions of the two are related.
* `Assembler.sum_couplings_of_turned`: the contributions to a pair change their sign together.
* `Assembler.reorient_conjugates`: what becomes of the outcome and of the matrix.
-/

namespace FemAssembly

/-! ## Signed indices -/

namespace SignedIndex

/-- The index of `s` with the other orientation. -/
def flip (s : SignedIndex) : SignedIndex := encode s.index (!s.isReversed)

@[simp] theorem index_flip (s : SignedIndex) : s.flip.index = s.index :=
  index_encode s.index_lt_signedBound _

@[simp] theorem isReversed_flip (s : SignedIndex) : s.flip.isReversed = !s.isReversed :=
  isReversed_encode s.index_lt_signedBound _

variable (S : Set Nat) [DecidablePred (· ∈ S)]

/-- The index of `s`, with the other orientation if it is in the set `S`. -/
def flipOn (s : SignedIndex) : SignedIndex := if s.index ∈ S then s.flip else s

@[simp] theorem index_flipOn (s : SignedIndex) : (s.flipOn S).index = s.index := by
  unfold flipOn
  split
  · exact s.index_flip
  · rfl

theorem sameOrientation_flipOn (s t : SignedIndex) :
    (s.flipOn S).sameOrientation (t.flipOn S) =
      if s.index ∈ S ↔ t.index ∈ S then s.sameOrientation t else !s.sameOrientation t := by
  unfold sameOrientation flipOn
  by_cases hs : s.index ∈ S <;> by_cases ht : t.index ∈ S <;>
    simp only [hs, ht, if_true, if_false, iff_self, iff_true, iff_false, not_true, isReversed_flip]
  all_goals cases s.isReversed <;> cases t.isReversed <;> rfl

theorem relativeSign_flipOn {α : Type} [Ring α] (s t : SignedIndex) :
    (s.flipOn S).relativeSign (α := α) (t.flipOn S) =
      if s.index ∈ S ↔ t.index ∈ S then s.relativeSign t else -s.relativeSign t := by
  unfold relativeSign
  rw [sameOrientation_flipOn]
  by_cases h : s.index ∈ S ↔ t.index ∈ S
  · rw [if_pos h, if_pos h]
  · rw [if_neg h, if_neg h]
    cases s.sameOrientation t <;> simp

end SignedIndex

/-! ## Restrictions -/

section

variable (S : Set Nat) [DecidablePred (· ∈ S)]

/-- The map `gather` in which every reference to a DOF in the set `S` has the other orientation. -/
def reorient (gather : Array SignedIndex) : Array SignedIndex := gather.map (SignedIndex.flipOn S)

/-- The restriction `r'` is `r` with the DOFs in the set turned around. -/
structure Restriction.Turned (r r' : Restriction) : Prop where
  sameDofs : r.SameDofs r'
  dof_eq : ∀ {e i : Nat}, e < r.numElements → i < r.slots → r'.dof e i = (r.dof e i).flipOn S

theorem map_index_reorient (gather : Array SignedIndex) :
    (reorient S gather).map SignedIndex.index = gather.map SignedIndex.index := by
  rw [reorient, Array.map_map]
  exact Array.map_congr_left fun s _ => s.index_flipOn S

theorem Restriction.turned_of_gather_eq {r r' : Restriction} (hsame : r.SameDofs r')
    (hgather : r'.gather = reorient S r.gather) : r.Turned S r' := by
  refine ⟨hsame, fun {e i} he hi => ?_⟩
  rw [dof, dof, Array.getD_eq_getD_getElem?, Array.getD_eq_getD_getElem?, hsame.slots_eq, hgather,
    reorient, Array.getElem?_map, Array.getElem?_eq_getElem (position_lt he hi)]
  rfl

theorem Restriction.exists_ofGatherMap_reorient {numDofs slots : Nat} {gather : Array SignedIndex}
    {r : Restriction} (h : (ofGatherMap numDofs slots gather).result = .ok r) :
    ∃ r', (ofGatherMap numDofs slots (reorient S gather)).result = .ok r' ∧ r.Turned S r' := by
  obtain ⟨r', hr', hgather, hsame⟩ :=
    exists_ofGatherMap_of_map_index h (map_index_reorient S gather)
  obtain ⟨-, -, rfl, -⟩ := of_ofGatherMap_eq_ok h
  exact ⟨r', hr', turned_of_gather_eq S hsame hgather⟩

end

/-! ## Assemblers -/

namespace Assembler

variable {α : Type} {S : Set Nat} [DecidablePred (· ∈ S)]

/-- The parts of an assembler `a` are also accepted with some DOFs turned around. -/
theorem exists_ofParts_of_turned {kind : Discretization} {r r' : Restriction} {t : Template}
    {v : ElementValues α} {options : Options} {a : Assembler α} (hr : r.Turned S r')
    (h : (ofParts kind r t v options).result = .ok a) :
    ∃ a', (ofParts kind r' t v options).result = .ok a' := by
  obtain ⟨rfl, rfl, rfl, rfl, rfl⟩ := result_ofParts_eq_ok_iff.mp h
  have hsame := hr.sameDofs
  refine exists_ofParts a.kind (Restriction.checkDegree_eq_ok_iff.mpr fun dof hdof => ?_)
    (a.template_slots.trans hsame.slots_eq.symm) (a.values_slots.trans hsame.slots_eq.symm)
    a.values_width (a.values_elements.trans hsame.numElements_eq.symm)
  rw [hsame.references_eq]
  exact Restriction.checkDegree_eq_ok_iff.mp a.degree_le dof (hsame.numDofs_eq ▸ hdof)

variable [Ring α] {a a' : Assembler α}

/-- All contributions to `row` and `column` change their sign, or none does. -/
theorem contribution_of_turned (hr : a.restriction.Turned S a'.restriction)
    (htemplate : a'.template = a.template) (hvalues : a'.values = a.values)
    {e i j row column : Nat} (h : a.Couples e i j row column) :
    a'.contribution e i j =
      if row ∈ S ↔ column ∈ S then a.contribution e i j else -a.contribution e i j := by
  obtain ⟨⟨he, hi, rfl⟩, ⟨-, hj, rfl⟩, -⟩ := h
  unfold contribution valueAt
  rw [hr.dof_eq he hi, hr.dof_eq he hj, SignedIndex.relativeSign_flipOn, htemplate, hvalues]
  split
  · rfl
  · exact neg_mul _ _

theorem sum_couplings_of_turned (hr : a.restriction.Turned S a'.restriction)
    (htemplate : a'.template = a.template) (hvalues : a'.values = a.values) (row column : Nat) :
    a'.sum (a.couplings row column) =
      if row ∈ S ↔ column ∈ S then a.sum (a.couplings row column)
      else -a.sum (a.couplings row column) := by
  have hmap : (a.couplings row column).map (fun s => a'.contribution s.1 s.2.1 s.2.2) =
      (a.couplings row column).map fun s =>
        if row ∈ S ↔ column ∈ S then a.contribution s.1 s.2.1 s.2.2
        else -a.contribution s.1 s.2.1 s.2.2 :=
    List.map_congr_left fun _ hmem =>
      contribution_of_turned hr htemplate hvalues (mem_couplings.mp hmem)
  unfold sum
  rw [hmap, ← List.sum_eq_foldl, ← List.sum_eq_foldl]
  split
  · rfl
  · rw [List.sum_neg, List.map_map]
    rfl

/-- Turn the DOFs in the set `S` around in every slot that references them. The map `gather` is
accepted as before, and so are the parts of every assembler. Whatever the values `v`, all executions
of the two assemblers have the same outcome, with the same stored positions. In exact arithmetic the
entry of `row` and `column` in `A'` has the other sign than in `A` if one of them is in `S` and the
other one is not, and otherwise it is the same. -/
theorem reorient_conjugates {numDofs slots : Nat} {gather : Array SignedIndex} {r : Restriction}
    (hr : (Restriction.ofGatherMap numDofs slots gather).result = .ok r) (S : Set Nat)
    [DecidablePred (· ∈ S)] :
    ∃ r', (Restriction.ofGatherMap numDofs slots (reorient S gather)).result = .ok r' ∧
      ∀ kind t options,
        (∀ {α : Type} [Zero α] [One α] [Neg α] [Add α] [Mul α] (v : ElementValues α) a,
          (ofParts kind r t v options).result = .ok a →
          ∃ a', (ofParts kind r' t v options).result = .ok a' ∧
            SameOutcome a.assembleWithoutEssential.result a'.assembleWithoutEssential.result ∧
            ∀ outcome outcome', a.MayGive outcome → a'.MayGive outcome' →
              SameOutcome outcome outcome') ∧
        ∀ {α : Type} [Ring α] (v : ElementValues α) a a',
          (ofParts kind r t v options).result = .ok a →
          (ofParts kind r' t v options).result = .ok a' →
          ∀ A A', a.assembleWithoutEssential.result = .ok A →
            a'.assembleWithoutEssential.result = .ok A' →
            ∀ row column, A'.get? row column = (A.get? row column).map fun value =>
              if row ∈ S ↔ column ∈ S then value else -value := by
  obtain ⟨r', hr', hturned⟩ := Restriction.exists_ofGatherMap_reorient S hr
  refine ⟨r', hr', fun kind t options => ⟨?_, ?_⟩⟩
  · intro α _ _ _ _ _ v a ha
    obtain ⟨a', ha'⟩ := exists_ofParts_of_turned hturned ha
    obtain ⟨-, rfl, rfl, -⟩ := result_ofParts_eq_ok_iff.mp ha
    obtain ⟨-, rfl, htemplate, -⟩ := result_ofParts_eq_ok_iff.mp ha'
    have hsame : a.SameStructure a' := ⟨hturned.sameDofs, htemplate⟩
    exact ⟨a', ha', hsame.sameOutcome a.mayGive_result a'.mayGive_result,
      fun _ _ => hsame.sameOutcome⟩
  · intro α _ v a a' ha ha' A A' hA hA' row column
    obtain ⟨-, rfl, rfl, rfl, -⟩ := result_ofParts_eq_ok_iff.mp ha
    obtain ⟨-, rfl, htemplate, hvalues, -⟩ := result_ofParts_eq_ok_iff.mp ha'
    have hsame : a.SameStructure a' := ⟨hturned.sameDofs, htemplate⟩
    refine hsame.get?_eq_map zero_add (assembled_of_result_eq_ok hA)
      (assembled_of_result_eq_ok hA') ?_
    rw [hsame.couplings_eq]
    exact sum_couplings_of_turned hturned htemplate hvalues row column

/-- The assembler `chain` with its middle DOF `1` turned around: the couplings of that DOF to its
neighbours change their sign, and its diagonal entry does not. -/
theorem reorient_conjugates_chain :
    ∃ r' a' A A', (Restriction.ofGatherMap 3 2
        (reorient {dof | dof = 1} #[.positive 0, .positive 1, .positive 1, .positive 2])).result =
        .ok r' ∧
      (ofParts .h1 r' chain.template chain.values {}).result = .ok a' ∧
      chain.assembleWithoutEssential.result = .ok A ∧
      a'.assembleWithoutEssential.result = .ok A' ∧
      A.get? 0 1 = some (-1) ∧ A'.get? 0 1 = some 1 ∧ A'.get? 1 1 = some 3 := by
  have hr : (Restriction.ofGatherMap 3 2
      #[.positive 0, .positive 1, .positive 1, .positive 2]).result = .ok chain.restriction := by
    decide +kernel
  obtain ⟨r', hr', hparts⟩ := reorient_conjugates hr {dof | dof = 1}
  obtain ⟨hoptions, hentries⟩ := hparts .h1 chain.template {}
  have ha := (result_ofParts_eq_ok_iff (a := chain)).mpr ⟨rfl, rfl, rfl, rfl, rfl⟩
  obtain ⟨a', ha', hsame, -⟩ := hoptions chain.values chain ha
  obtain ⟨A, hA⟩ := exists_result_eq_ok (a := chain) (by decide +kernel) (by decide +kernel)
  rw [hA] at hsame
  cases hA' : a'.assembleWithoutEssential.result with
  | error error =>
    rw [hA'] at hsame
    cases hsame
  | ok A' =>
    have hget := hentries chain.values chain a' ha ha' A A' hA hA'
    have h := assembled_of_result_eq_ok hA
    have hside : A.get? 0 1 = some (-1) :=
      (h.get?_of_writes Int.zero_add (e := 0) (i := 0) (j := 1) (by decide +kernel)).trans
        (by decide +kernel)
    have hdiagonal : A.get? 1 1 = some 3 :=
      (h.get?_of_writes Int.zero_add (e := 0) (i := 1) (j := 1) (by decide +kernel)).trans
        (by decide +kernel)
    refine ⟨r', a', A, A', hr', ha', hA, hA', hside, ?_, ?_⟩
    · rw [hget, hside]
      rfl
    · rw [hget, hdiagonal]
      rfl

end Assembler

end FemAssembly
