import FemAssembly.Proofs.Binary64
import FemAssembly.Proofs.Distributed.Choice
import FemAssembly.Proofs.Sparse.Storage

/-!
# The identity of the owned rows

There is one prolongation that numbers the rows of a rank in order, and the test for it accepts no
other. The matrix and the test are written independently of each other.

* `passesIdentityTest_iff`: what the test finds out is that the storage is equal to that of the
  identity.
* `isIdentityProlongation_exact`: the test is exact for all row partitions, ranks and matrices.
-/

namespace FemAssembly

section

variable {α : Type} [One α] [Add α] [BEq α] {starts : Array Nat} {size rank : Nat}
  {P : SparseMatrix α}

/-- The test asks whether `P` has the storage of the identity of the owned rows of `rank`. -/
theorem passesIdentityTest_iff (hstarts : RowStarts starts size) (hrank : rank < size) :
    PassesIdentityTest starts rank P ↔ P.StoresEqual (ownedIdentity starts rank) := by
  have hidentity := numbersOwned_ownedIdentity (α := α) hstarts hrank
  rw [SparseMatrix.storesEqual_iff, hidentity.nrows_eq, hidentity.ncols_eq]
  have hrow : ∀ i < starts.getD (rank + 1) 0 - starts.getD rank 0,
      (ownedIdentity starts rank : SparseMatrix α).row i = [(starts.getD rank 0 + i, 1)] :=
    fun i hi => hidentity.row_eq (hidentity.nrows_eq ▸ hi)
  -- the values of a row with one column are one value
  have hvalue : ∀ {row : SparseRow α} {column : Nat}, row.columns = [column] →
      (List.Forall₂ (fun a b => (a == b) = true) (row.map Prod.snd) [1] ↔
        ∀ entry ∈ row, (entry.2 == 1) = true) := by
    intro row column hcolumns
    obtain ⟨entry, rfl, -⟩ := List.map_eq_singleton_iff.mp hcolumns
    simp
  constructor
  · intro h
    refine ⟨h.nrows_eq, h.ncols_eq, fun i hi => ?_⟩
    rw [hrow i (h.nrows_eq ▸ hi)]
    exact ⟨h.columns_eq i hi, (hvalue (h.columns_eq i hi)).mpr (h.values_eq i hi)⟩
  · rintro ⟨hnrows, hncols, hrows⟩
    have hrows' : ∀ i < P.nrows, (P.row i).columns = [starts.getD rank 0 + i] ∧
        List.Forall₂ (fun a b => (a == b) = true) ((P.row i).map Prod.snd) [1] := by
      intro i hi
      have := hrows i hi
      rwa [hrow i (hnrows ▸ hi)] at this
    exact ⟨hnrows, hncols, fun i hi => (hrows' i hi).1,
      fun i hi => (hvalue (hrows' i hi).1).mp (hrows' i hi).2⟩

/-- Where only one is equal to one, to pass the test is to be the identity of the owned rows of
`rank`. -/
theorem passesIdentityTest_iff_eq (hone : ∀ a : α, (a == 1) = true ↔ a = 1)
    (hstarts : RowStarts starts size) (hrank : rank < size) :
    PassesIdentityTest starts rank P ↔ P = ownedIdentity starts rank := by
  constructor
  · exact fun h => (h.numbersOwned fun a => (hone a).mp).eq_ownedIdentity hstarts hrank
  · rintro rfl
    have hidentity := numbersOwned_ownedIdentity (α := α) hstarts hrank
    refine ⟨hidentity.nrows_eq, hidentity.ncols_eq, fun i hi => ?_, fun i hi entry hentry => ?_⟩
    · rw [hidentity.row_eq hi]
      rfl
    · rw [hidentity.row_eq hi] at hentry
      obtain rfl := List.mem_singleton.mp hentry
      exact (hone 1).mpr rfl

end

/-- The test for an identity is exact. It ends without a fault, and its `answer` is true for the
matrices `P` with the storage of `ownedIdentity starts rank`: with the same dimensions and stored
positions and equal values. Where only one is equal to one, as for floating-point numbers, these are
the identity alone. -/
theorem isIdentityProlongation_exact {α : Type} [One α] [Add α] [BEq α] {starts : Array Nat}
    {size rank : Nat} (hstarts : checkRowStarts starts size = .ok ()) (hrank : rank < size)
    (P : SparseMatrix α) :
    ∃ answer, isIdentityProlongation P starts rank = .ok answer ∧
      (answer = true ↔ P.StoresEqual (ownedIdentity starts rank)) ∧
      ((∀ a : α, (a == 1) = true ↔ a = 1) →
        (answer = true ↔ P = ownedIdentity starts rank)) := by
  have hpartition := checkRowStarts_eq_ok_iff.mp hstarts
  obtain ⟨answer, hanswer, hpasses⟩ := isIdentityProlongation_spec hpartition hrank P
  exact ⟨answer, hanswer, hpasses.trans (passesIdentityTest_iff hpartition hrank),
    fun hone => hpasses.trans (passesIdentityTest_iff_eq hone hpartition hrank)⟩

/-- Of three ranks the first one owns no rows and the second one owns two. The prolongation of the
second one is not an identity with a NaN in place of a one, or with a zero that is stored. -/
theorem isIdentityProlongation_exact_nan :
    checkRowStarts #[0, 0, 2, 3] 3 = .ok () ∧ (∀ a : Binary64, (a == 1) = true ↔ a = 1) ∧
    isIdentityProlongation (.ofTriplets 0 3 [] : SparseMatrix Binary64) #[0, 0, 2, 3] 0 =
      .ok true ∧
    isIdentityProlongation (.ofTriplets 2 3 [(0, 0, 1), (1, 1, 1)] : SparseMatrix Binary64)
      #[0, 0, 2, 3] 1 = .ok true ∧
    isIdentityProlongation (.ofTriplets 2 3 [(0, 0, 1), (1, 1, ⟨0x7FF8000000000001⟩)] :
      SparseMatrix Binary64) #[0, 0, 2, 3] 1 = .ok false ∧
    isIdentityProlongation (.ofTriplets 2 3 [(0, 0, 1), (1, 0, 0), (1, 1, 1)] :
      SparseMatrix Binary64) #[0, 0, 2, 3] 1 = .ok false := by
  have hstarts : checkRowStarts #[0, 0, 2, 3] 3 = .ok () := by decide
  have htest : ∀ rank < 3, ∀ P : SparseMatrix Binary64, ∃ answer,
      isIdentityProlongation P #[0, 0, 2, 3] rank = .ok answer ∧
        (answer = true ↔ P = ownedIdentity #[0, 0, 2, 3] rank) := fun rank hrank P => by
    obtain ⟨answer, hanswer, -, hequal⟩ := isIdentityProlongation_exact hstarts hrank P
    exact ⟨answer, hanswer, hequal fun _ => Binary64.beq_one_iff⟩
  refine ⟨hstarts, fun _ => Binary64.beq_one_iff, ?_, ?_, ?_, ?_⟩
  · obtain ⟨answer, hanswer, hequal⟩ := htest 0 (by decide) (.ofTriplets 0 3 [])
    rw [hanswer, hequal.mpr rfl]
  · obtain ⟨answer, hanswer, hequal⟩ :=
      htest 1 (by decide) (.ofTriplets 2 3 [(0, 0, 1), (1, 1, 1)])
    rw [hanswer, hequal.mpr rfl]
  · obtain ⟨answer, hanswer, hequal⟩ :=
      htest 1 (by decide) (.ofTriplets 2 3 [(0, 0, 1), (1, 1, ⟨0x7FF8000000000001⟩)])
    have hrefused : answer = false := Bool.eq_false_iff.mpr fun htrue => by
      have hbits := congrArg (fun M => (M.get? 1 1).map Binary64.bits) (hequal.mp htrue)
      exact absurd hbits (by decide)
    rw [hanswer, hrefused]
  · obtain ⟨answer, hanswer, hequal⟩ :=
      htest 1 (by decide) (.ofTriplets 2 3 [(0, 0, 1), (1, 0, 0), (1, 1, 1)])
    have hrefused : answer = false := Bool.eq_false_iff.mpr fun htrue => by
      have hbits := congrArg (fun M => (M.get? 1 0).map Binary64.bits) (hequal.mp htrue)
      exact absurd hbits (by decide)
    rw [hanswer, hrefused]

end FemAssembly
