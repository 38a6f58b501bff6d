import FemAssembly.Proofs.Distributed.Galerkin

/-!
# The choice of a construction

The ranks tell each other whether their prolongations are identities, and all of them choose the
same construction: a block-diagonal matrix if every prolongation is one, and a Galerkin product
otherwise. Both give the sum of the products `Pᵗ A P`.

* `NumbersOwned`: a prolongation that numbers the rows of a rank in order.
  `NumbersOwned.eq_ownedIdentity`: there is only one.
* `PassesIdentityTest`, `isIdentityProlongation_spec`: what the test of a prolongation finds out.
* `NumbersOwned.entry_localProduct`, `holdsSum_of_numbersOwned`: the product with it.
* `DistributedMatrix.decideTogether`, `DistributedMatrix.buildChosen`: the two phases of the
  program.
* `Collective.fromLocalBlock`: all ranks come to the end, with the sum of their products.
* `DistributedMatrix.fromLocalBlock_chooses`: which construction they choose.
-/

namespace FemAssembly

open Finset

/-! ## Prolongations that number the owned rows -/

/-- The prolongation of `layout`, or the one that stands for an absent one. -/
def Layout.effective {α : Type} [One α] [Add α] (layout : Layout α) (rank : Nat) :
    SparseMatrix α :=
  layout.prolongation.getD (ownedIdentity layout.rowStarts rank)

/-- The prolongation of a numbering: row `i` stores a one at column `number i`, and nothing else. -/
def numbering {α : Type} [One α] [Add α] (nrows ncols : Nat) (number : Nat → Nat) :
    SparseMatrix α :=
  SparseMatrix.ofTriplets nrows ncols ((List.range nrows).map fun i => (i, number i, 1))

theorem get?_numbering {α : Type} [One α] [Add α] {nrows ncols : Nat} {number : Nat → Nat}
    (h : ∀ i < nrows, number i < ncols) (i c : Nat) :
    (numbering nrows ncols number : SparseMatrix α).get? i c =
      if i < nrows ∧ c = number i then some 1 else none := by
  have hnodup : (((List.range nrows).map fun i => (i, number i, (1 : α))).map
      fun t => (t.1, t.2.1)).Nodup := by
    refine List.Nodup.of_map Prod.fst ?_
    simpa [Function.comp_def] using List.nodup_range
  have hlt : ∀ t ∈ (List.range nrows).map fun i => (i, number i, (1 : α)),
      t.1 < nrows ∧ t.2.1 < ncols := by
    intro t ht
    obtain ⟨i, hi, rfl⟩ := List.mem_map.mp ht
    exact ⟨List.mem_range.mp hi, h i (List.mem_range.mp hi)⟩
  ext value
  rw [numbering, SparseMatrix.get?_ofTriplets_eq_some_iff hnodup hlt, List.mem_map]
  constructor
  · rintro ⟨i, hi, heq⟩
    cases heq
    exact if_pos ⟨List.mem_range.mp hi, rfl⟩
  · intro hget
    split at hget
    · rename_i hic
      obtain rfl := Option.some.inj hget
      exact ⟨i, List.mem_range.mpr hic.1, by rw [hic.2]⟩
    · cases hget

/-- The prolongation `P` numbers the rows of `rank` in order. -/
structure NumbersOwned {α : Type} [One α] (starts : Array Nat) (rank : Nat) (P : SparseMatrix α) :
    Prop where
  nrows_eq : P.nrows = starts.getD (rank + 1) 0 - starts.getD rank 0
  ncols_eq : P.ncols = globalSize starts
  get?_eq : ∀ i c, P.get? i c =
    if i < starts.getD (rank + 1) 0 - starts.getD rank 0 ∧ c = starts.getD rank 0 + i then some 1
    else none

section

variable {α : Type} {starts : Array Nat} {size rank : Nat}

theorem numbersOwned_ownedIdentity [One α] [Add α] (hstarts : RowStarts starts size)
    (hrank : rank < size) :
    NumbersOwned starts rank (ownedIdentity starts rank : SparseMatrix α) := by
  refine ⟨by simp [ownedIdentity], by simp [ownedIdentity], get?_numbering fun i hi => ?_⟩
  exact hstarts.lt_globalSize hrank ⟨Nat.le_add_right .., by omega⟩

/-- What the test of the prolongation `P` looks at: row by row, the only column is that of the row
in the range of `rank`, and the weight there compares equal to one. -/
structure PassesIdentityTest [One α] [BEq α] (starts : Array Nat) (rank : Nat)
    (P : SparseMatrix α) : Prop where
  nrows_eq : P.nrows = starts.getD (rank + 1) 0 - starts.getD rank 0
  ncols_eq : P.ncols = globalSize starts
  columns_eq : ∀ i < P.nrows, (P.row i).columns = [starts.getD rank 0 + i]
  values_eq : ∀ i < P.nrows, ∀ entry ∈ P.row i, (entry.2 == 1) = true

/-- The test of `P` ends without a fault. -/
theorem isIdentityProlongation_spec [One α] [BEq α] (hstarts : RowStarts starts size)
    (hrank : rank < size) (P : SparseMatrix α) :
    ∃ b, isIdentityProlongation P starts rank = .ok b ∧
      (b = true ↔ PassesIdentityTest starts rank P) := by
  have hword : Word.add rank 1 = .ok (rank + 1) := by
    have := hstarts.word
    exact if_pos (by omega)
  have hnext : rank + 1 < starts.size := by
    have := hstarts.size_eq
    omega
  unfold isIdentityProlongation
  rw [hword]
  refine ⟨_, rfl, ?_⟩
  simp only [hnext, hstarts.le_succ rank hrank, decide_true, Bool.and_self, Bool.true_and,
    Bool.and_eq_true, decide_eq_true_eq, SparseMatrix.zipIdx_rows, List.all_map, List.all_eq_true,
    List.mem_range, Function.comp_apply, beq_iff_eq]
  constructor
  · rintro ⟨⟨hnrows, hncols⟩, hrows⟩
    exact ⟨hnrows, hncols, fun i hi => (hrows i hi).1, fun i hi => (hrows i hi).2⟩
  · exact fun h => ⟨⟨h.nrows_eq, h.ncols_eq⟩, fun i hi => ⟨h.columns_eq i hi, h.values_eq i hi⟩⟩

/-- A prolongation `P` that passes numbers the rows of `rank` in order, where no other value is
equal to one. -/
theorem PassesIdentityTest.numbersOwned [One α] [BEq α] {P : SparseMatrix α}
    (h : PassesIdentityTest starts rank P) (hone : ∀ a : α, (a == 1) = true → a = 1) :
    NumbersOwned starts rank P := by
  refine ⟨h.nrows_eq, h.ncols_eq, fun i c => ?_⟩
  by_cases hi : i < P.nrows
  · obtain ⟨⟨column, value⟩, hrow, hcolumn⟩ := List.map_eq_singleton_iff.mp (h.columns_eq i hi)
    obtain rfl : column = _ := hcolumn
    have hmem : (starts.getD rank 0 + i, value) ∈ P.row i := by
      rw [hrow]
      exact List.mem_singleton_self _
    obtain rfl : value = 1 := hone value (h.values_eq i hi _ hmem)
    rw [SparseMatrix.get?, hrow, SparseRow.get?_cons, ← h.nrows_eq]
    simp only [hi, true_and]
    rfl
  · rw [SparseMatrix.get?_eq_none_of_not_lt fun h => hi h.1,
      if_neg fun hlt => hi (h.nrows_eq ▸ hlt.1)]

theorem Layout.isIdentity_spec [One α] [Add α] [BEq α] [LawfulBEq α]
    (hstarts : RowStarts starts size) (hrank : rank < size) {layout : Layout α}
    (hlayout : layout.rowStarts = starts) :
    ∃ b, layout.isIdentity rank = .ok b ∧
      (b = true → NumbersOwned starts rank (layout.effective rank)) := by
  subst hlayout
  obtain ⟨rowStarts, _ | P⟩ := layout
  · exact ⟨true, rfl, fun _ => numbersOwned_ownedIdentity hstarts hrank⟩
  · obtain ⟨b, hb, hpasses⟩ := isIdentityProlongation_spec hstarts hrank P
    exact ⟨b, hb, fun htrue => (hpasses.mp htrue).numbersOwned fun _ => eq_of_beq⟩

theorem Layout.isIdentity_eq_ok_true_iff [One α] [BEq α] (layout : Layout α) (rank : Nat) :
    layout.isIdentity rank = .ok true ↔
      ∀ P ∈ layout.prolongation, isIdentityProlongation P layout.rowStarts rank = .ok true := by
  obtain ⟨rowStarts, _ | P⟩ := layout <;> simp [Layout.isIdentity]

theorem Layout.numbersOwned_of_isIdentity [One α] [Add α] [BEq α] [LawfulBEq α]
    (hstarts : RowStarts starts size) (hrank : rank < size) {layout : Layout α}
    (hlayout : layout.rowStarts = starts) (h : layout.isIdentity rank = .ok true) :
    NumbersOwned starts rank (layout.effective rank) := by
  obtain ⟨b, hb, hnumbers⟩ := Layout.isIdentity_spec hstarts hrank hlayout
  rw [h] at hb
  exact hnumbers (Except.ok.inj hb).symm

namespace NumbersOwned

theorem row_eq [One α] {P : SparseMatrix α} (h : NumbersOwned starts rank P) {i : Nat}
    (hi : i < P.nrows) : P.row i = [(starts.getD rank 0 + i, 1)] := by
  refine SparseRow.ext_get? (P.sorted_row i) (List.pairwise_singleton _ _) fun c => ?_
  change P.get? i c = _
  rw [h.get?_eq, ← h.nrows_eq, SparseRow.get?_cons]
  simp only [hi, true_and]
  rfl

/-- There is one such prolongation `P`. -/
theorem eq_ownedIdentity [One α] [Add α] {P : SparseMatrix α} (h : NumbersOwned starts rank P)
    (hstarts : RowStarts starts size) (hrank : rank < size) : P = ownedIdentity starts rank := by
  have hidentity := numbersOwned_ownedIdentity (α := α) hstarts hrank
  refine SparseMatrix.ext_get? (h.nrows_eq.trans hidentity.nrows_eq.symm)
    (h.ncols_eq.trans hidentity.ncols_eq.symm) fun i c => ?_
  rw [h.get?_eq, hidentity.get?_eq]

variable [Semiring α] {A P : SparseMatrix α}

/-- The local number `i` of an own row `c`. -/
theorem eq_add_iff (h : NumbersOwned starts rank P) {i c : Nat} (hi : i < P.nrows) :
    c = starts.getD rank 0 + i ↔ Owns starts rank c ∧ i = c - starts.getD rank 0 := by
  rw [h.nrows_eq] at hi
  constructor
  · rintro rfl
    exact ⟨⟨by omega, by omega⟩, by omega⟩
  · rintro ⟨howns, rfl⟩
    have := howns.1
    omega

theorem lt_nrows (h : NumbersOwned starts rank P) {c : Nat} (howns : Owns starts rank c) :
    c - starts.getD rank 0 < P.nrows := by
  have := howns.1
  have := howns.2
  rw [h.nrows_eq]
  omega

theorem isSome_get?_iff (h : NumbersOwned starts rank P) {i c : Nat} :
    (P.get? i c).isSome ↔ Owns starts rank c ∧ i = c - starts.getD rank 0 := by
  rw [h.get?_eq, ← h.nrows_eq]
  constructor
  · intro hsome
    split at hsome
    · rename_i hic
      exact (h.eq_add_iff hic.1).mp hic.2
    · cases hsome
  · rintro ⟨howns, rfl⟩
    rw [if_pos ⟨h.lt_nrows howns, (h.eq_add_iff (h.lt_nrows howns)).mpr ⟨howns, rfl⟩⟩]
    rfl

theorem entry_eq (h : NumbersOwned starts rank P) {i c : Nat} (hi : i < P.nrows) :
    P.entry i c =
      if Owns starts rank c then if i = c - starts.getD rank 0 then 1 else 0 else 0 := by
  rw [SparseMatrix.entry, h.get?_eq, ← h.nrows_eq]
  simp only [hi, h.eq_add_iff hi, true_and]
  by_cases howns : Owns starts rank c
  · by_cases hic : i = c - starts.getD rank 0
    · simp only [howns, hic, and_self, if_true, Option.getD_some]
    · simp only [hic, and_false, if_false, ite_self, Option.getD_none]
  · simp only [howns, false_and, if_false, Option.getD_none]

/-- The product with such a prolongation `P` is the block `A` itself, at the rows of `rank`. -/
theorem entry_localProduct (h : NumbersOwned starts rank P) (hncols : A.ncols = P.nrows)
    (r c : Nat) : (DistributedMatrix.localProduct A P).entry r c =
      if Owns starts rank r ∧ Owns starts rank c then
        A.entry (r - starts.getD rank 0) (c - starts.getD rank 0) else 0 := by
  have hinner : ∀ i, ∑ j ∈ range A.ncols, A.entry i j * P.entry j c =
      if Owns starts rank c then A.entry i (c - starts.getD rank 0) else 0 := by
    intro i
    rw [hncols, sum_congr rfl fun j hj => by rw [h.entry_eq (mem_range.mp hj)]]
    by_cases howns : Owns starts rank c
    · simp only [howns, if_true, mul_ite, mul_one, mul_zero, sum_ite_eq', mem_range,
        h.lt_nrows howns]
    · simp only [howns, if_false, mul_zero, sum_const_zero]
  rw [DistributedMatrix.entry_localProduct, sum_congr rfl fun i hi => by
    rw [h.entry_eq (mem_range.mp hi), hinner]]
  by_cases howns : Owns starts rank r
  · simp only [howns, if_true, ite_mul, one_mul, zero_mul, sum_ite_eq', mem_range,
      h.lt_nrows howns, true_and]
  · simp only [howns, if_false, zero_mul, sum_const_zero, false_and]

theorem isSome_get?_localProduct (h : NumbersOwned starts rank P) (r c : Nat) :
    ((DistributedMatrix.localProduct A P).get? r c).isSome ↔
      (Owns starts rank r ∧ Owns starts rank c) ∧
        (A.get? (r - starts.getD rank 0) (c - starts.getD rank 0)).isSome := by
  simp only [DistributedMatrix.isSome_get?_localProduct, h.isSome_get?_iff]
  constructor
  · rintro ⟨i, j, ⟨hr, rfl⟩, hsome, hc, rfl⟩
    exact ⟨⟨hr, hc⟩, hsome⟩
  · rintro ⟨⟨hr, hc⟩, hsome⟩
    exact ⟨_, _, ⟨hr, rfl⟩, hsome, hc, rfl⟩

end NumbersOwned

end

section

variable {α β σ : Type} [Semiring α] {starts : Array Nat} {size : Nat}

/-- Diagonal blocks `block rank` hold the sum of their products with the prolongations that number
the rows of each rank in order. -/
theorem holdsSum_of_numbersOwned (hstarts : RowStarts starts size) {block P : Nat → SparseMatrix α}
    {M : Nat → DistributedMatrix α} (hP : ∀ rank < size, NumbersOwned starts rank (P rank))
    (hncols : ∀ rank < size, (block rank).ncols = (P rank).nrows)
    (hget : ∀ rank < size, ∀ i c, (M rank).globalGet? i c =
      if Owns starts rank c then (block rank).get? i (c - starts.getD rank 0) else none) :
    HoldsSum starts size (fun rank => DistributedMatrix.localProduct (block rank) (P rank)) M := by
  refine ⟨fun rank hrank row howns c => ?_, fun rank hrank row howns c => ?_⟩
  · rw [hget rank hrank]
    constructor
    · intro hsome
      refine ⟨rank, hrank, ((hP rank hrank).isSome_get?_localProduct row c).mpr ?_⟩
      split at hsome
      · exact ⟨⟨howns, ‹_›⟩, hsome⟩
      · cases hsome
    · rintro ⟨peer, hpeer, hsome⟩
      obtain ⟨⟨hrow, hc⟩, hsome⟩ := ((hP peer hpeer).isSome_get?_localProduct row c).mp hsome
      obtain rfl := hstarts.owner_eq hpeer hrank hrow howns
      rwa [if_pos hc]
  · have hother : ∀ peer ∈ range size, peer ≠ rank →
        (DistributedMatrix.localProduct (block peer) (P peer)).entry row c = 0 := by
      intro peer hpeer hne
      have hpeer := mem_range.mp hpeer
      rw [(hP peer hpeer).entry_localProduct (hncols peer hpeer), if_neg]
      exact fun h => hne (hstarts.owner_eq hpeer hrank h.1 howns)
    rw [sum_eq_single rank hother fun h => absurd (mem_range.mpr hrank) h, hget rank hrank,
      (hP rank hrank).entry_localProduct (hncols rank hrank)]
    by_cases hc : Owns starts rank c
    · simp only [howns, hc, and_self, if_true]
      rfl
    · simp only [hc, and_false, if_false]
      rfl

end

/-! ## The program in two phases -/

namespace DistributedMatrix

section

variable {α β σ : Type} [Zero α] [One α] [Add α] [Mul α] [BEq α] [Plain β UInt8] [Plain β Nat]
  [Plain β α]

/-- The first phase: the ranks find out whether the prolongations in all of their layouts are
identities. -/
def decideTogether (place : Place) (layout : Layout α) : RankProgram β σ Bool := do
  checkRowStarts layout.rowStarts place.size
  let identity ← layout.isIdentity place.rank
  let flag : UInt8 := if identity then 1 else 0
  let flags ← RankProgram.allToAll place Tag.setup (List.replicate place.size [flag])
  pure (identity &&
    flags.zipIdx.all fun (flags, peer) => peer == place.rank || flags.head? == some 1)

/-- The second phase: the construction that was chosen for `block`. -/
def buildChosen (place : Place) (layout : Layout α) (block : SparseMatrix α) (shared : Bool) :
    Bool → RankProgram β σ (DistributedMatrix α)
  | true => blockDiagonal place layout.rowStarts block shared
  | false => do
    RankProgram.noteEvent (.galerkinChosen place.rank)
    galerkin place layout.rowStarts block (layout.effective place.rank)

theorem fromLocalBlock_eq {size rank : Nat} (hrank : rank < size) {layout : Layout α}
    (hstarts : RowStarts layout.rowStarts size) (block : SparseMatrix α) (shared : Bool) :
    (fromLocalBlock ⟨rank, size⟩ layout block shared : RankProgram β σ _) =
      decideTogether ⟨rank, size⟩ layout >>= buildChosen ⟨rank, size⟩ layout block shared := by
  simp only [fromLocalBlock, decideTogether, bind_assoc, pure_bind]
  refine bind_congr fun _ => bind_congr fun identity => bind_congr fun flags => ?_
  cases identity && flags.zipIdx.all fun (flags, peer) => peer == rank || flags.head? == some 1 with
  | true => rfl
  | false =>
    obtain ⟨rowStarts, _ | P⟩ := layout
    · simp only [hstarts.rowRange_eq_ok hrank, RankProgram.liftM_ok_bind]
      rfl
    · rfl

end

end DistributedMatrix

/-! ## The choice of all ranks -/

/-- The rank `rank` knows from the flags whether `identity` holds of all ranks. -/
theorem identity_and_others {size rank : Nat} {identity : Nat → Bool} (hrank : rank < size) :
    (identity rank && ((List.range size).map fun peer => if peer = rank then [] else
      [if identity peer then (1 : UInt8) else 0]).zipIdx.all fun (flags, peer) =>
        peer == rank || flags.head? == some 1) = true ↔ ∀ peer < size, identity peer = true := by
  have hzip : ((List.range size).map fun peer => if peer = rank then [] else
      [if identity peer then (1 : UInt8) else 0]).zipIdx = (List.range size).map fun peer =>
        (if peer = rank then [] else [if identity peer then (1 : UInt8) else 0], peer) :=
    List.ext_getElem (by simp) fun peer _ _ => by simp
  simp only [hzip, Bool.and_eq_true, List.all_map, List.all_eq_true, List.mem_range,
    Function.comp_apply, Bool.or_eq_true, beq_iff_eq]
  constructor
  · rintro ⟨hown, hothers⟩ peer hpeer
    by_cases heq : peer = rank
    · exact heq ▸ hown
    · have := hothers peer hpeer
      cases h : identity peer <;> simp_all
  · refine fun h => ⟨h rank hrank, fun peer hpeer => ?_⟩
    by_cases heq : peer = rank <;> simp [heq, h peer hpeer]

section

variable {α β σ : Type} [Semiring α] {starts : Array Nat} {size : Nat}
  (hstarts : RowStarts starts size) {layout : Nat → Layout α}
  (hlayout : ∀ rank < size, (layout rank).rowStarts = starts)
include hstarts hlayout

/-- All ranks take the same decision `choice`. -/
theorem Collective.decideTogether [BEq α] [LawfulBEq α] [Plain β UInt8] [LawfulPlain β UInt8] :
    ∃ choice : Bool,
    (choice = true ↔ ∀ rank < size, (layout rank).isIdentity rank = .ok true) ∧
    Collective size (fun rank =>
      (DistributedMatrix.decideTogether ⟨rank, size⟩ (layout rank) : RankProgram β σ Bool))
      fun _ => choice := by
  have hspec := fun rank hrank => Layout.isIdentity_spec hstarts hrank (hlayout rank hrank)
  choose! identity hidentity _ using hspec
  have hflags := Collective.allToAll_map (β := β) (σ := σ) size Tag.setup
    (fun rank _ => [if identity rank then (1 : UInt8) else 0]) fun _ _ _ _ => decode_encode _
  refine ⟨(List.range size).all identity, ?_, ?_⟩
  · simp only [List.all_eq_true, List.mem_range]
    refine forall₂_congr fun rank hrank => ?_
    rw [hidentity rank hrank, Except.ok.injEq]
  · refine ((hflags.map fun rank flags => identity rank && flags.zipIdx.all fun (flags, peer) =>
      peer == rank || flags.head? == some 1).congr fun rank hrank => ?_).congr_results
      fun rank hrank => ?_
    · have hcheck := checkRowStarts_eq_ok_iff.mpr (hlayout rank hrank ▸ hstarts)
      simp only [DistributedMatrix.decideTogether, hcheck, hidentity rank hrank,
        RankProgram.liftM_ok_bind, List.map_const', List.length_range]
    · rw [Bool.eq_iff_iff, identity_and_others hrank]
      simp

variable [Plain β Nat] [LawfulIndices β] [Plain β α] [LawfulPlain β α]
  (hword : globalSize starts ≤ Word.bound) {block : Nat → SparseMatrix α} (shared : Nat → Bool)
  (hP : ∀ rank < size, ((layout rank).effective rank).nrows = (block rank).nrows ∧
    ((layout rank).effective rank).ncols = globalSize starts ∧
    (block rank).nrows = (block rank).ncols)
include hword hP

/-- The ranks carry out a construction that they can choose, the block-diagonal one if `choice` is
true. -/
theorem Collective.buildChosen {choice : Bool}
    (hnumbers : choice = true →
      ∀ rank < size, NumbersOwned starts rank ((layout rank).effective rank))
    (hreserve : choice = false → (globalSize starts + 1) * 8 < Word.signedBound) :
    ∃ M, Collective size (fun rank => (DistributedMatrix.buildChosen ⟨rank, size⟩ (layout rank)
        (block rank) (shared rank) choice : RankProgram β σ (DistributedMatrix α))) M ∧
      Parts starts size M ∧ HoldsSum starts size (fun rank =>
        DistributedMatrix.localProduct (block rank) ((layout rank).effective rank)) M := by
  cases choice with
  | true =>
    have hnumbers := hnumbers rfl
    obtain ⟨M, hM, hparts, hget⟩ := Collective.blockDiagonal (β := β) (σ := σ) hstarts hword
      block shared
      (fun rank hrank => (hP rank hrank).1.symm.trans (hnumbers rank hrank).nrows_eq)
      fun rank hrank => ((hP rank hrank).2.2.symm.trans (hP rank hrank).1.symm).trans
        (hnumbers rank hrank).nrows_eq
    refine ⟨M, hM.congr fun rank hrank => ?_, hparts, holdsSum_of_numbersOwned hstarts hnumbers
      (fun rank hrank => (hP rank hrank).2.2.symm.trans (hP rank hrank).1.symm) hget⟩
    rw [DistributedMatrix.buildChosen, hlayout rank hrank]
  | false =>
    obtain ⟨M, hM, hparts, hsum⟩ := Collective.galerkin (β := β) (σ := σ) hstarts (hreserve rfl) hP
    refine ⟨M, (Passes.bind (k := fun rank _ => DistributedMatrix.galerkin ⟨rank, size⟩ starts
      (block rank) ((layout rank).effective rank))
      (Passes.of_silent fun rank _ => .note (.galerkinChosen rank)) hM).congr
      fun rank hrank => ?_, hparts, holdsSum_localProduct hstarts
        (fun rank hrank => (hP rank hrank).2.1) hsum⟩
    rw [DistributedMatrix.buildChosen, hlayout rank hrank]

/-- The matrix `M` of the blocks of all ranks is the sum of their products, whatever construction
the ranks choose. -/
theorem Collective.fromLocalBlock [BEq α] [LawfulBEq α] [Plain β UInt8] [LawfulPlain β UInt8]
    (hreserve : ¬ (∀ rank < size, (layout rank).isIdentity rank = .ok true) →
      (globalSize starts + 1) * 8 < Word.signedBound) :
    ∃ M, Collective size (fun rank => (DistributedMatrix.fromLocalBlock ⟨rank, size⟩ (layout rank)
        (block rank) (shared rank) : RankProgram β σ (DistributedMatrix α))) M ∧
      Parts starts size M ∧ HoldsSum starts size (fun rank =>
        DistributedMatrix.localProduct (block rank) ((layout rank).effective rank)) M := by
  obtain ⟨choice, hchoice, hdecide⟩ :=
    Collective.decideTogether (β := β) (σ := σ) hstarts hlayout
  obtain ⟨M, hM, hrest⟩ := Collective.buildChosen (β := β) (σ := σ) hstarts hlayout hword shared hP
    (fun htrue rank hrank =>
      Layout.numbersOwned_of_isIdentity hstarts hrank (hlayout rank hrank)
        (hchoice.mp htrue rank hrank))
    fun hfalse => hreserve fun hall => by simp [hchoice.mpr hall] at hfalse
  refine ⟨M, Passes.congr (Passes.bind hdecide hM) fun rank hrank => ?_, hrest⟩
  exact DistributedMatrix.fromLocalBlock_eq hrank (hlayout rank hrank ▸ hstarts) _ _

end

/-- The choice of a construction. All ranks take the same decision `choice`, which is true exactly
if every prolongation in `layout` is an identity or absent, and go on with the construction that
they have chosen and with no other. Where that is a block-diagonal matrix `M`, they get the rows
that a Galerkin product `N` with the identities of their owned rows would have given them. A
Galerkin product needs a list with an element for every row of `starts`. Where such a list does not
fit into an array, all ranks fail after the decision. -/
theorem DistributedMatrix.fromLocalBlock_chooses {α β σ : Type} [Semiring α] [BEq α] [LawfulBEq α]
    [Plain β UInt8] [LawfulPlain β UInt8] [Plain β Nat] [LawfulIndices β] [Plain β α]
    [LawfulPlain β α] {starts : Array Nat} {size : Nat}
    (hstarts : checkRowStarts starts size = .ok ())
    (hword : FemAssembly.globalSize starts ≤ Word.bound) {layout : Nat → Layout α}
    {block : Nat → SparseMatrix α} (shared : Nat → Bool)
    (hlayout : ∀ rank < size, (layout rank).rowStarts = starts)
    (hP : ∀ rank < size, ((layout rank).effective rank).nrows = (block rank).nrows ∧
      ((layout rank).effective rank).ncols = FemAssembly.globalSize starts ∧
      (block rank).nrows = (block rank).ncols) :
    ∃ choice : Bool,
      (choice = true ↔ ∀ rank < size, ∀ P ∈ (layout rank).prolongation,
        isIdentityProlongation P starts rank = .ok true) ∧
      (∀ (memory : Nat → σ) (e : Ensemble β σ Bool),
        Ensemble.Reaches (Ensemble.start (World.new size) ((List.range size).map fun rank =>
          (decideTogether ⟨rank, size⟩ (layout rank), memory rank))) e →
        e.OnTrack size fun _ => choice) ∧
      ((choice = false → (FemAssembly.globalSize starts + 1) * 8 < Word.signedBound) →
        ∃ M : Nat → DistributedMatrix α,
          (∀ (memory : Nat → σ) (e : Ensemble β σ (DistributedMatrix α)),
            Ensemble.Reaches (Ensemble.start (World.new size) ((List.range size).map fun rank =>
              (fromLocalBlock ⟨rank, size⟩ (layout rank) (block rank) (shared rank),
                memory rank))) e →
            e.OnTrack size M ∧
              e.GoesOnWith (fun rank => decideTogether ⟨rank, size⟩ (layout rank))
                (fun rank => buildChosen ⟨rank, size⟩ (layout rank) (block rank) (shared rank))
                fun _ => choice) ∧
          (choice = true → (FemAssembly.globalSize starts + 1) * 8 < Word.signedBound →
            ∃ N : Nat → DistributedMatrix α,
              (∀ (memory : Nat → σ) (e : Ensemble β σ (DistributedMatrix α)),
                Ensemble.Reaches (Ensemble.start (World.new size) ((List.range size).map
                  fun rank => (galerkin ⟨rank, size⟩ starts (block rank)
                    (ownedIdentity starts rank), memory rank))) e →
                e.OnTrack size N) ∧
              stackedRows size M = stackedRows size N)) ∧
      (choice = false → ¬ (FemAssembly.globalSize starts + 1) * 8 < Word.signedBound →
        ∀ rank < size,
          (buildChosen ⟨rank, size⟩ (layout rank) (block rank) (shared rank) choice :
            RankProgram β σ (DistributedMatrix α)) =
          RankProgram.noteEvent (.galerkinChosen rank) >>= fun _ => .fail (.fault .overflow)) := by
  have hpartition := checkRowStarts_eq_ok_iff.mp hstarts
  obtain ⟨choice, hchoice, hdecide⟩ :=
    Collective.decideTogether (β := β) (σ := σ) hpartition hlayout
  have hnumbers : choice = true →
      ∀ rank < size, NumbersOwned starts rank ((layout rank).effective rank) :=
    fun htrue rank hrank => Layout.numbersOwned_of_isIdentity hpartition hrank (hlayout rank hrank)
      (hchoice.mp htrue rank hrank)
  refine ⟨choice, ?_, fun memory e he => hdecide.completes.onTrack he, fun hreserve => ?_,
    fun hfalse hreserve rank hrank => ?_⟩
  · rw [hchoice]
    refine forall₂_congr fun rank hrank => ?_
    rw [Layout.isIdentity_eq_ok_true_iff, hlayout rank hrank]
  · obtain ⟨M, hM, hparts, hsum⟩ := Collective.buildChosen (β := β) (σ := σ) hpartition hlayout
      hword shared hP hnumbers hreserve
    refine ⟨M, fun memory e he => ?_, fun htrue hroom => ?_⟩
    · have hprograms : ((List.range size).map fun rank =>
          ((fromLocalBlock ⟨rank, size⟩ (layout rank) (block rank) (shared rank) :
            RankProgram β σ _), memory rank)) =
          (List.range size).map fun rank => (decideTogether ⟨rank, size⟩ (layout rank) >>=
            buildChosen ⟨rank, size⟩ (layout rank) (block rank) (shared rank), memory rank) :=
        List.map_congr_left fun rank hrank => by
          have hrank := List.mem_range.mp hrank
          rw [fromLocalBlock_eq hrank (hlayout rank hrank ▸ hpartition)]
      rw [hprograms] at he
      exact ⟨(Collective.completes (Passes.bind hdecide hM)).onTrack he,
        Collective.goesOnWith hdecide hM he⟩
    · -- the prolongations are the identities of the owned rows
      have hidentity : ∀ rank < size, (layout rank).effective rank = ownedIdentity starts rank :=
        fun rank hrank => (hnumbers htrue rank hrank).eq_ownedIdentity hpartition hrank
      obtain ⟨N, hN, hparts', hget⟩ :=
        Collective.galerkin (β := β) (σ := σ) hpartition hroom hP
      have hsum' := holdsSum_localProduct hpartition (fun rank hrank => (hP rank hrank).2.1) hget
      refine ⟨N, fun memory e he => Completes.onTrack (Collective.completes
        (hN.congr fun rank hrank => by rw [hidentity rank hrank])) he, ?_⟩
      exact hparts.stackedRows_congr hpartition hparts' fun rank hrank row howns c =>
        hsum.globalGet?_eq hsum' hrank howns c
  · rw [hfalse, buildChosen, hlayout rank hrank,
      galerkin_eq_fail hpartition (hP rank hrank) hreserve]

/-- Three ranks, of which the second one owns no rows. The first one has no prolongation, the second
one has an identity, and the third one has an identity unless its row is to go to the first rank, as
`moved` says. -/
def mixedLayout (moved : Bool) (rank : Nat) : Layout Int where
  rowStarts := #[0, 1, 1, 2]
  prolongation :=
    match rank with
    | 0 => none
    | 1 => some (.ofTriplets 0 2 [])
    | _ => some (.ofTriplets 1 2 [(0, if moved then 0 else 1, 1)])

/-- A row for the first rank and one for the third. -/
def singleRow (rank : Nat) : SparseMatrix Int :=
  if rank = 1 then .ofTriplets 0 0 [] else .ofTriplets 1 1 [(0, 0, 5 + rank)]

theorem DistributedMatrix.fromLocalBlock_chooses_mixed :
    checkRowStarts #[0, 1, 1, 2] 3 = .ok () ∧
    (∀ moved, ∀ rank < 3, ((mixedLayout moved rank).effective rank).nrows =
        (singleRow rank).nrows ∧
      ((mixedLayout moved rank).effective rank).ncols = FemAssembly.globalSize #[0, 1, 1, 2] ∧
      (singleRow rank).nrows = (singleRow rank).ncols) ∧
    (∃ M N : Nat → DistributedMatrix Int,
      (∀ e : Ensemble (Cell Int) Unit (DistributedMatrix Int),
        Ensemble.Reaches (Ensemble.start (World.new 3) ((List.range 3).map fun rank =>
          (fromLocalBlock ⟨rank, 3⟩ (mixedLayout false rank) (singleRow rank) false, ()))) e →
        e.OnTrack 3 M) ∧
      (∀ e : Ensemble (Cell Int) Unit (DistributedMatrix Int),
        Ensemble.Reaches (Ensemble.start (World.new 3) ((List.range 3).map fun rank =>
          (galerkin ⟨rank, 3⟩ #[0, 1, 1, 2] (singleRow rank) (ownedIdentity #[0, 1, 1, 2] rank),
            ()))) e → e.OnTrack 3 N) ∧
      stackedRows 3 M = stackedRows 3 N) ∧
    ∃ M : Nat → DistributedMatrix Int, ∀ e : Ensemble (Cell Int) Unit (DistributedMatrix Int),
      Ensemble.Reaches (Ensemble.start (World.new 3) ((List.range 3).map fun rank =>
        (fromLocalBlock ⟨rank, 3⟩ (mixedLayout true rank) (singleRow rank) false, ()))) e →
      e.OnTrack 3 M ∧ e.GoesOnWith (fun rank => decideTogether ⟨rank, 3⟩ (mixedLayout true rank))
        (fun rank => buildChosen ⟨rank, 3⟩ (mixedLayout true rank) (singleRow rank) false)
        fun _ => false := by
  have hstarts : checkRowStarts #[0, 1, 1, 2] 3 = .ok () := by decide
  have hword : FemAssembly.globalSize #[0, 1, 1, 2] ≤ Word.bound := by decide
  have hshape : ∀ moved, ∀ rank < 3, ((mixedLayout moved rank).effective rank).nrows =
        (singleRow rank).nrows ∧
      ((mixedLayout moved rank).effective rank).ncols = FemAssembly.globalSize #[0, 1, 1, 2] ∧
      (singleRow rank).nrows = (singleRow rank).ncols := by decide
  have hfits : (FemAssembly.globalSize #[0, 1, 1, 2] + 1) * 8 < Word.signedBound := by decide
  refine ⟨hstarts, hshape, ?_, ?_⟩
  · obtain ⟨choice, hchoice, -, hbuilt, -⟩ := fromLocalBlock_chooses (β := Cell Int) (σ := Unit)
      hstarts hword (fun _ => false) (fun _ _ => rfl) (hshape false)
    obtain ⟨M, hM, hagree⟩ := hbuilt fun _ => hfits
    obtain ⟨N, hN, hrows⟩ := hagree (hchoice.mpr (by decide +kernel)) hfits
    exact ⟨M, N, fun e he => (hM (fun _ => ()) e he).1, fun e he => hN (fun _ => ()) e he, hrows⟩
  · obtain ⟨choice, hchoice, -, hbuilt, -⟩ := fromLocalBlock_chooses (β := Cell Int) (σ := Unit)
      hstarts hword (fun _ => false) (fun _ _ => rfl) (hshape true)
    obtain ⟨M, hM, -⟩ := hbuilt fun _ => hfits
    obtain rfl : choice = false := Bool.eq_false_iff.mpr fun htrue =>
      absurd (hchoice.mp htrue) (by decide +kernel)
    exact ⟨M, fun e he => hM (fun _ => ()) e he⟩

end FemAssembly
