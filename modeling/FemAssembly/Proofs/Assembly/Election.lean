import FemAssembly.Proofs.Assembly.Independence
import FemAssembly.Proofs.Sequence.Merge

/-!
# Election of an owner

A pair of degrees of freedom (DOFs) that several elements share is written by the least element that
references both. It is found by a merge of the two incidence lists, in which an element stands once
for each slot that references the DOF.

* `Restriction.elected_comm`, `Restriction.elected_eq_none_iff`: the election treats both DOFs
  alike, and finds nothing exactly where no element references both.
* `Restriction.firstCommonElement_exact`: what the merge finds in any two lists.
-/

namespace FemAssembly

namespace Restriction

variable {r r' : Restriction} {a b : Nat}

theorem elected_eq_none_iff :
    r.elected a b = none ↔ ∀ element, r.References element a → ¬ r.References element b := by
  rw [elected, firstShared_eq_none_iff (pairwise_fst_references a) (pairwise_fst_references b)]
  simp only [mem_map_fst_references]

theorem elected_comm (r : Restriction) (a b : Nat) : r.elected a b = r.elected b a := by
  refine Option.ext fun element => ?_
  rw [elected_eq_some_iff, elected_eq_some_iff]
  exact ⟨IsFirstCommon.symm, IsFirstCommon.symm⟩

/-- Elections of `a` and `b` do not see orientations. -/
theorem SameDofs.elected_eq (h : r.SameDofs r') (a b : Nat) : r'.elected a b = r.elected a b := by
  rw [elected, elected, h.references_eq, h.references_eq]

/-- For every restriction `r` that is made of a map `gather`, repeated DOFs included, the merge of
the incidence lists of `a` and `b` ends after at most as many rounds as the lists have entries. It
finds the least element that references both, and nothing exactly if there is none. The order of `a`
and `b` and the orientations of the slots have no influence. -/
theorem firstCommonElement_exact {numDofs slots : Nat} {gather : Array SignedIndex}
    (h : (ofGatherMap numDofs slots gather).result = .ok r) (ha : a < numDofs) (hb : b < numDofs) :
    ∃ first second found, r.incidence a = .ok first ∧ r.incidence b = .ok second ∧
      r.firstCommonElement a b = .ok found ∧
      mergeWithin (first.length + second.length) (first.map Prod.fst, second.map Prod.fst) =
        some found ∧
      (∀ element, found = some element ↔ r.IsFirstCommon a b element) ∧
      (found = none ↔ ∀ element, r.References element a → ¬ r.References element b) ∧
      r.firstCommonElement b a = .ok found ∧
      ∀ gather' : Array SignedIndex,
        gather'.map SignedIndex.index = gather.map SignedIndex.index →
        ∃ r', (ofGatherMap numDofs slots gather').result = .ok r' ∧
          r'.firstCommonElement a b = .ok found := by
  obtain ⟨rfl, -, -, -⟩ := of_ofGatherMap_eq_ok h
  refine ⟨_, _, r.elected a b, incidence_eq_ok ha, incidence_eq_ok hb,
    firstCommonElement_eq_ok ha hb, ?_, fun _ => elected_eq_some_iff, elected_eq_none_iff, ?_,
    fun gather' hindices => ?_⟩
  · rw [mergeWithin_eq_some_firstShared (by simp)]
    simp [elected, Function.comp_def]
  · rw [firstCommonElement_eq_ok hb ha, elected_comm]
  · obtain ⟨r', hr', -, hsame⟩ := exists_ofGatherMap_of_map_index h hindices
    refine ⟨r', hr', ?_⟩
    rw [firstCommonElement_eq_ok (hsame.numDofs_eq ▸ ha) (hsame.numDofs_eq ▸ hb), hsame.elected_eq]

/-- Four elements with two slots each. The second references the DOF `0` through both slots, so the
lists of `0` and `1` are `[1, 1, 3]` and `[0, 2, 3]`. -/
def repeatedReferences : Restriction where
  numDofs := 3
  slots := 2
  gather := #[.positive 1, .positive 2, .positive 0, .reversed 0, .positive 1, .reversed 2,
    .reversed 0, .positive 1]
  incident := incidenceTable 3 #[.positive 1, .positive 2, .positive 0, .reversed 0, .positive 1,
    .reversed 2, .reversed 0, .positive 1]
  slots_dvd := by decide
  index_lt := by decide
  size_lt := by decide
  incident_eq := rfl

/-- In `repeatedReferences`, the merge passes all other entries before it finds element `3`. No
element has `0` and `2`. -/
theorem firstCommonElement_exact_repeated :
    (ofGatherMap 3 2 repeatedReferences.gather).result = .ok repeatedReferences ∧
      mergeWithin 6 ([1, 1, 3], [0, 2, 3]) = some (some 3) ∧
      repeatedReferences.firstCommonElement 0 1 = .ok (some 3) ∧
      repeatedReferences.firstCommonElement 1 0 = .ok (some 3) ∧
      ∀ element, repeatedReferences.References element 0 →
        ¬ repeatedReferences.References element 2 := by
  have hmade : (ofGatherMap 3 2 repeatedReferences.gather).result = .ok repeatedReferences := rfl
  obtain ⟨first, second, found, hfirst, hsecond, hfound, hmerge, hleast, -, hsymm, -⟩ :=
    firstCommonElement_exact hmade (show 0 < 3 by decide) (show 1 < 3 by decide)
  obtain rfl := (hleast 3).mpr (by decide)
  obtain rfl := Except.ok.inj ((show repeatedReferences.incidence 0 =
    .ok [(1, .positive 0), (1, .reversed 1), (3, .reversed 0)] from rfl).symm.trans hfirst)
  obtain rfl := Except.ok.inj ((show repeatedReferences.incidence 1 =
    .ok [(0, .positive 0), (2, .positive 0), (3, .positive 1)] from rfl).symm.trans hsecond)
  obtain ⟨_, _, found, -, -, hnothing, -, -, hnone, -⟩ :=
    firstCommonElement_exact hmade (show 0 < 3 by decide) (show 2 < 3 by decide)
  have hnothing' : repeatedReferences.firstCommonElement 0 2 = .ok none := rfl
  exact ⟨hmade, hmerge, hfound, hsymm, hnone.mp (Except.ok.inj (hnothing.symm.trans hnothing'))⟩

end Restriction

end FemAssembly
