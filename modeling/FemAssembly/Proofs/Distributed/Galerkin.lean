import FemAssembly.Distributed.Galerkin
import FemAssembly.Proofs.Distributed.Matrix
import FemAssembly.Proofs.Message.Cells
import FemAssembly.Proofs.Message.Phases
import FemAssembly.Proofs.Sparse.Table

/-!
# Galerkin products over ranks

Every rank sends the entries of its product `Pᵗ A P` to the owners of their rows, and an owner adds
up what it gets.

* `DistributedMatrix.entry_localProduct`, `DistributedMatrix.isSome_get?_localProduct`: the product
  of one rank.
* `sentTo`: the entries of a product whose rows a rank owns.
* `receivedContributions_eq_ok`: what a rank makes of the entries that it gets.
* `summedRows`: the rows that a rank adds up. `HoldsSum`, `holdsSum_of_summedRows`: the ranks hold
  the sum of all products.
* `DistributedMatrix.gather`, `DistributedMatrix.addUp`: the two phases of the program.
* `Collective.galerkin`: the products of all ranks, added up.
* `DistributedMatrix.galerkin_eq_sum`: what every interleaving comes to.
-/

namespace FemAssembly

open Finset Matrix

/-! ## The product of one rank -/

namespace DistributedMatrix

section

variable {α : Type} [Zero α] [Add α] [Mul α] (A P : SparseMatrix α)

@[simp] theorem nrows_localProduct : (localProduct A P).nrows = P.ncols := by
  simp [localProduct]

@[simp] theorem ncols_localProduct : (localProduct A P).ncols = P.ncols := by
  simp [localProduct]

end

variable {α : Type} [Semiring α] (A P : SparseMatrix α)

theorem entry_localProduct (r c : Nat) : (localProduct A P).entry r c =
    ∑ i ∈ range P.nrows, P.entry i r * ∑ j ∈ range A.ncols, A.entry i j * P.entry j c := by
  rw [localProduct, SparseMatrix.entry_mul]
  simp only [SparseMatrix.entry_transpose, SparseMatrix.entry_mul, SparseMatrix.ncols_transpose]

theorem isSome_get?_localProduct (r c : Nat) : ((localProduct A P).get? r c).isSome ↔
    ∃ i j, (P.get? i r).isSome ∧ (A.get? i j).isSome ∧ (P.get? j c).isSome := by
  simp only [localProduct, SparseMatrix.isSome_get?_mul, SparseMatrix.get?_transpose]
  constructor
  · rintro ⟨i, hi, j, hj⟩
    exact ⟨i, j, hi, hj⟩
  · rintro ⟨i, j, hi, hj⟩
    exact ⟨i, hi, j, hj⟩

end DistributedMatrix

/-! ## Sent entries -/

/-- The entries of `M` whose rows `peer` owns. -/
def sentTo {α : Type} (starts : Array Nat) (peer : Nat) (M : SparseMatrix α) :
    List (Nat × Nat × α) :=
  M.triplets.filter fun t => owner starts t.1 == peer

section

variable {α : Type} {starts : Array Nat} {size rank : Nat} {M : SparseMatrix α}

theorem mem_sentTo (hstarts : RowStarts starts size) (hrank : rank < size)
    (hnrows : M.nrows = globalSize starts) {r c : Nat} {value : α} :
    (r, c, value) ∈ sentTo starts rank M ↔ M.get? r c = some value ∧ Owns starts rank r := by
  simp only [sentTo, List.mem_filter, SparseMatrix.mem_triplets, beq_iff_eq]
  refine and_congr_right fun hget => ?_
  exact hstarts.owner_eq_iff hrank (hnrows ▸ (SparseMatrix.lt_of_get?_eq_some hget).1)

namespace DistributedMatrix

theorem contributionsByOwner_eq_ok (rank : Nat) (hstarts : RowStarts starts size)
    (hnrows : M.nrows = FemAssembly.globalSize starts) :
    contributionsByOwner ⟨rank, size⟩ starts M =
      .ok ((List.range size).map fun peer => sentTo starts peer M) := by
  have howners : (M.triplets.mapM fun entry => do pure (← ownerOf starts entry.1, entry) :
      Except Error (List (Nat × Nat × Nat × α))) =
      .ok (M.triplets.map fun entry => (owner starts entry.1, entry)) := by
    refine mapM_eq_ok_map fun entry hentry => ?_
    have hlt := (SparseMatrix.lt_of_get?_eq_some (SparseMatrix.mem_triplets.mp hentry)).1
    rw [(hstarts.ownerOf_owner (hnrows ▸ hlt)).1]
    rfl
  have hfilter : ∀ peer, ((M.triplets.map fun entry => (owner starts entry.1, entry)).filter
      fun x => x.1 == peer).map Prod.snd = sentTo starts peer M := by
    intro peer
    rw [List.filter_map, List.map_map]
    exact List.map_id _
  unfold contributionsByOwner
  rw [howners]
  exact congrArg Except.ok (List.map_congr_left fun peer _ => hfilter peer)

theorem indexPairs_sentIndices (entries : List (Nat × Nat × α)) :
    indexPairs (sentIndices entries) = entries.map fun t => (t.1, t.2.1) := by
  induction entries with
  | nil => rfl
  | cons t entries ih =>
    simp only [sentIndices, List.flatMap_cons, List.cons_append, List.nil_append, indexPairs,
      List.map_cons] at ih ⊢
    rw [ih]

theorem length_sentIndices (entries : List (Nat × Nat × α)) :
    (sentIndices entries).length = 2 * entries.length := by
  induction entries with
  | nil => rfl
  | cons t entries ih =>
    simp only [sentIndices, List.flatMap_cons, List.length_append, List.length_cons,
      List.length_nil] at ih ⊢
    omega

/-- The indices of `entries` below a `bound` that is a machine word read back. -/
theorem decode_encode_sentIndices {β : Type} [Plain β Nat] [LawfulIndices β] {bound : Nat}
    (hbound : bound ≤ Word.bound) {entries : List (Nat × Nat × α)}
    (h : ∀ t ∈ entries, t.1 < bound ∧ t.2.1 < bound) :
    decode (encode (sentIndices entries) : List β) = .ok (sentIndices entries) := by
  refine decode_encode_of_lt fun n hn => Nat.lt_of_lt_of_le ?_ hbound
  obtain ⟨⟨r, c, value⟩, ht, hn⟩ := List.mem_flatMap.mp hn
  rcases List.mem_pair.mp hn with rfl | rfl
  · exact (h _ ht).1
  · exact (h _ ht).2

/-- The `entries` of own rows are taken, with the own numbers of their rows. -/
theorem receivedContributions_eq_ok (hstarts : RowStarts starts size) (hrank : rank < size)
    {entries : List (Nat × Nat × α)}
    (h : ∀ t ∈ entries, Owns starts rank t.1 ∧ t.2.1 < FemAssembly.globalSize starts) :
    receivedContributions ⟨rank, size⟩ starts (sentIndices entries)
        (entries.map fun (_, _, value) => value) =
      .ok (entries.map fun (r, c, value) => (r - starts.getD rank 0, c, value)) := by
  have hzip : (indexPairs (sentIndices entries)).zip (entries.map fun (_, _, value) => value) =
      entries.map fun (r, c, value) => ((r, c), value) := by
    rw [indexPairs_sentIndices, List.zip_map']
  rw [receivedContributions, if_neg (by simp [length_sentIndices]), hzip, List.mapM_map]
  refine mapM_eq_ok_map fun ⟨r, c, value⟩ ht => ?_
  obtain ⟨howns, hc⟩ := h _ ht
  simp only [Function.comp, ownContribution, hstarts.ownerOf_eq_ok hrank howns, bind, Except.bind,
    ne_eq, not_true_eq_false, ↓reduceIte]
  exact if_pos ⟨howns.1, howns.2, hc⟩

end DistributedMatrix

/-- The entries that `rank` gets from the products of all ranks, its own included, with the own
numbers of their rows. -/
def gathered (starts : Array Nat) (size : Nat) (product : Nat → SparseMatrix α) (rank : Nat) :
    List (Nat × Nat × α) :=
  (List.range size).flatMap fun peer =>
    (sentTo starts rank (product peer)).map fun (r, c, value) =>
      (r - starts.getD rank 0, c, value)

variable {product : Nat → SparseMatrix α}

theorem exists_mem_gathered (hstarts : RowStarts starts size) (hrank : rank < size)
    (hnrows : ∀ peer < size, (product peer).nrows = globalSize starts) {r c : Nat}
    (howns : Owns starts rank r) :
    (∃ value, (r - starts.getD rank 0, c, value) ∈ gathered starts size product rank) ↔
      ∃ peer < size, ((product peer).get? r c).isSome := by
  simp only [gathered, List.mem_flatMap, List.mem_range, List.mem_map, Prod.exists, Prod.mk.injEq,
    Option.isSome_iff_exists]
  constructor
  · rintro ⟨_, peer, hpeer, r', c', value, hmem, hr, rfl, rfl⟩
    obtain ⟨hget, howns'⟩ := (mem_sentTo hstarts hrank (hnrows peer hpeer)).mp hmem
    have := howns.1
    have := howns'.1
    obtain rfl : r' = r := by omega
    exact ⟨peer, hpeer, value, hget⟩
  · rintro ⟨peer, hpeer, value, hget⟩
    exact ⟨value, peer, hpeer, r, c, value,
      (mem_sentTo hstarts hrank (hnrows peer hpeer)).mpr ⟨hget, howns⟩, rfl, rfl, rfl⟩

/-- The entries of `M` at `r` and `c` add up to the value there. -/
theorem SparseMatrix.sum_triplets_ite [AddCommMonoid α] (M : SparseMatrix α) (r c : Nat) :
    (M.triplets.map fun t => if t.1 = r ∧ t.2.1 = c then t.2.2 else 0).sum = M.entry r c := by
  have hterm : ∀ i j, (M.get? i j).elim 0 (fun value => if i = r ∧ j = c then value else 0) =
      if j = c then if i = r then M.entry r c else 0 else 0 := by
    intro i j
    rw [entry]
    by_cases hi : i = r <;> by_cases hj : j = c <;> cases hget : M.get? i j <;>
      simp_all
  rw [M.sum_triplets fun i j value => if i = r ∧ j = c then value else 0]
  simp only [hterm, sum_ite_eq', mem_range]
  by_cases hc : c < M.ncols
  · simp only [hc, if_true, sum_ite_eq', mem_range]
    split
    · rfl
    · exact (entry_eq_zero_of_not_lt fun h => absurd h.1 (by assumption)).symm
  · simp only [hc, if_false, sum_const_zero]
    exact (entry_eq_zero_of_not_lt fun h => hc h.2).symm

theorem sum_map_filter {γ δ : Type} [AddCommMonoid γ] (list : List δ) (p : δ → Bool) (f : δ → γ) :
    ((list.filter p).map f).sum = (list.map fun x => if p x then f x else 0).sum := by
  induction list with
  | nil => rfl
  | cons x list ih =>
    cases h : p x <;> simp [h, ih]

theorem sum_gathered [AddCommMonoid α] (hstarts : RowStarts starts size) (hrank : rank < size)
    (hnrows : ∀ peer < size, (product peer).nrows = globalSize starts) {r c : Nat}
    (howns : Owns starts rank r) :
    ((gathered starts size product rank).map fun t =>
      if t.1 = r - starts.getD rank 0 ∧ t.2.1 = c then t.2.2 else 0).sum =
      ∑ peer ∈ range size, (product peer).entry r c := by
  rw [gathered, List.map_flatMap, List.flatMap_def, List.sum_flatten, List.map_map,
    ← List.sum_toFinset _ List.nodup_range, List.toFinset_range]
  refine sum_congr rfl fun peer hpeer => ?_
  have hlt := hnrows peer (mem_range.mp hpeer)
  simp only [Function.comp, List.map_map, sentTo, sum_map_filter]
  rw [← (product peer).sum_triplets_ite]
  refine congrArg List.sum (List.map_congr_left fun t ht => ?_)
  have hrow : t.1 < globalSize starts :=
    hlt ▸ (SparseMatrix.lt_of_get?_eq_some (SparseMatrix.mem_triplets.mp ht)).1
  simp only [beq_iff_eq, hstarts.owner_eq_iff hrank hrow]
  by_cases heq : t.1 = r
  · simp [heq, howns]
  · have hne : Owns starts rank t.1 → t.1 - starts.getD rank 0 ≠ r - starts.getD rank 0 := by
      intro howns'
      have := howns.1
      have := howns'.1
      omega
    by_cases howns' : Owns starts rank t.1
    · simp only [howns', if_true, hne howns', heq, false_and, if_false]
    · simp only [howns', heq, if_false, false_and]

end

/-! ## The sum of all products -/

/-- The ranks hold in `M` the sum of the matrices `product peer`: they store what one of these
stores, and the values add up. -/
structure HoldsSum {α : Type} [AddCommMonoid α] (starts : Array Nat) (size : Nat)
    (product : Nat → SparseMatrix α) (M : Nat → DistributedMatrix α) : Prop where
  stored : ∀ rank < size, ∀ row, Owns starts rank row → ∀ c,
    ((M rank).globalGet? (row - starts.getD rank 0) c).isSome ↔
      ∃ peer < size, ((product peer).get? row c).isSome
  value : ∀ rank < size, ∀ row, Owns starts rank row → ∀ c,
    ((M rank).globalGet? (row - starts.getD rank 0) c).getD 0 =
      ∑ peer ∈ range size, (product peer).entry row c

/-- The ranks can hold a sum in one way only: `M` and `N` have the same entries. -/
theorem HoldsSum.globalGet?_eq {α : Type} [AddCommMonoid α] {starts : Array Nat} {size : Nat}
    {product : Nat → SparseMatrix α} {M N : Nat → DistributedMatrix α}
    (h : HoldsSum starts size product M) (h' : HoldsSum starts size product N) {rank row : Nat}
    (hrank : rank < size) (howns : Owns starts rank row) (c : Nat) :
    (M rank).globalGet? (row - starts.getD rank 0) c =
      (N rank).globalGet? (row - starts.getD rank 0) c := by
  have hstored := (h.stored rank hrank row howns c).trans (h'.stored rank hrank row howns c).symm
  have hvalue := (h.value rank hrank row howns c).trans (h'.value rank hrank row howns c).symm
  revert hstored hvalue
  cases (M rank).globalGet? (row - starts.getD rank 0) c <;>
    cases (N rank).globalGet? (row - starts.getD rank 0) c <;> simp

/-- The rows of `rank`, added up from the entries that it gets. -/
def summedRows {α : Type} [Add α] (starts : Array Nat) (size : Nat)
    (product : Nat → SparseMatrix α) (rank : Nat) : SparseMatrix α :=
  SparseMatrix.ofTriplets (starts.getD (rank + 1) 0 - starts.getD rank 0) (globalSize starts)
    (gathered starts size product rank)

/-- Over numbers that can be added in any order, the rows that the ranks add up are the sum of all
`product peer`. -/
theorem holdsSum_of_summedRows {α : Type} [AddCommMonoid α] {starts : Array Nat} {size : Nat}
    (hstarts : RowStarts starts size) {product : Nat → SparseMatrix α}
    {M : Nat → DistributedMatrix α}
    (hnrows : ∀ rank < size, (product rank).nrows = globalSize starts)
    (hncols : ∀ rank < size, (product rank).ncols = globalSize starts)
    (hget : ∀ rank < size, ∀ i c,
      (M rank).globalGet? i c = (summedRows starts size product rank).get? i c) :
    HoldsSum starts size product M := by
  refine ⟨fun rank hrank row howns c => ?_, fun rank hrank row howns c => ?_⟩
  · rw [hget rank hrank, summedRows]
    by_cases hc : c < globalSize starts
    · rw [SparseMatrix.isSome_get?_ofTriplets (by have := howns.1; have := howns.2; omega) hc,
        exists_mem_gathered hstarts hrank hnrows howns]
    · rw [SparseMatrix.get?_eq_none_of_not_lt fun h => hc (by simpa using h.2)]
      simp only [Option.isSome_none, Bool.false_eq_true, false_iff, not_exists, not_and]
      intro peer hpeer hsome
      obtain ⟨value, hvalue⟩ := Option.isSome_iff_exists.mp hsome
      exact hc (hncols peer hpeer ▸ (SparseMatrix.lt_of_get?_eq_some hvalue).2)
  · rw [hget rank hrank]
    change SparseMatrix.entry _ _ _ = _
    rw [summedRows]
    by_cases hc : c < globalSize starts
    · rw [SparseMatrix.entry_ofTriplets (by have := howns.1; have := howns.2; omega) hc,
        sum_gathered hstarts hrank hnrows howns]
    · rw [SparseMatrix.entry_eq_zero_of_not_lt fun h => hc (by simpa using h.2)]
      refine (sum_eq_zero fun peer hpeer => ?_).symm
      exact SparseMatrix.entry_eq_zero_of_not_lt fun h =>
        hc (hncols peer (mem_range.mp hpeer) ▸ h.2)

theorem holdsSum_localProduct {α : Type} [Semiring α] {starts : Array Nat} {size : Nat}
    (hstarts : RowStarts starts size) {block P : Nat → SparseMatrix α}
    {M : Nat → DistributedMatrix α} (hncols : ∀ rank < size, (P rank).ncols = globalSize starts)
    (hget : ∀ rank < size, ∀ i c, (M rank).globalGet? i c = (summedRows starts size
      (fun rank => DistributedMatrix.localProduct (block rank) (P rank)) rank).get? i c) :
    HoldsSum starts size (fun rank => DistributedMatrix.localProduct (block rank) (P rank)) M :=
  holdsSum_of_summedRows hstarts
    (fun rank hrank => (DistributedMatrix.nrows_localProduct ..).trans (hncols rank hrank))
    (fun rank hrank => (DistributedMatrix.ncols_localProduct ..).trans (hncols rank hrank)) hget

/-! ## The program in two phases -/

namespace DistributedMatrix

variable {α β σ : Type} {starts : Array Nat} {size : Nat}

/-- What a rank makes of the messages of its peers, which have the `indices` and the `values`: the
entries of its rows. -/
def collect (place : Place) (starts : Array Nat) (outgoing : List (List (Nat × Nat × α)))
    (indices : List (List Nat)) (values : List (List α)) :
    RankProgram β σ (List (Nat × Nat × α)) := do
  let own ← Word.orFault outgoing[place.rank]?
  let received ← (((indices.set place.rank (sentIndices own)).zip
      (values.set place.rank (own.map fun (_, _, value) => value))).mapM
    fun (indices, values) => receivedContributions place starts indices values :
      Except Error (List (List (Nat × Nat × α))))
  pure received.flatten

/-- Two lists that `rank` gets from its peers, with its own parts `f rank` and `g rank` in their
places. -/
theorem zip_set_own {γ δ : Type} (rank : Nat) (f : Nat → γ) (g : Nat → δ) (a : γ) (b : δ) :
    ((((List.range size).map fun peer => if peer = rank then a else f peer).set rank (f rank)).zip
      (((List.range size).map fun peer => if peer = rank then b else g peer).set rank (g rank))) =
      (List.range size).map fun peer => (f peer, g peer) := by
  refine List.ext_getElem (by simp) fun peer _ _ => ?_
  by_cases h : peer = rank
  · subst h
    simp
  · simp [h, Ne.symm h]

theorem collect_eq (hstarts : RowStarts starts size) {product : Nat → SparseMatrix α}
    (hnrows : ∀ rank < size, (product rank).nrows = FemAssembly.globalSize starts)
    (hncols : ∀ rank < size, (product rank).ncols = FemAssembly.globalSize starts) {rank : Nat}
    (hrank : rank < size) :
    (collect ⟨rank, size⟩ starts
      ((List.range size).map fun peer => sentTo starts peer (product rank))
      ((List.range size).map fun peer => if peer = rank then [] else
        sentIndices (sentTo starts rank (product peer)))
      ((List.range size).map fun peer => if peer = rank then [] else
        (sentTo starts rank (product peer)).map fun t => t.2.2) :
      RankProgram β σ (List (Nat × Nat × α))) = pure (gathered starts size product rank) := by
  have hown : Word.orFault ((List.range size).map fun peer =>
      sentTo starts peer (product rank))[rank]? = .ok (sentTo starts rank (product rank)) := by
    rw [List.getElem?_map, List.getElem?_range hrank]
    rfl
  have hreceived : ((List.range size).map fun peer =>
      (sentIndices (sentTo starts rank (product peer)),
        (sentTo starts rank (product peer)).map fun t => t.2.2)).mapM
      (fun x => receivedContributions ⟨rank, size⟩ starts x.1 x.2) =
      .ok ((List.range size).map fun peer =>
        (sentTo starts rank (product peer)).map fun (r, c, value) =>
          (r - starts.getD rank 0, c, value)) := by
    rw [List.mapM_map]
    refine mapM_eq_ok_map fun peer hpeer => ?_
    have hpeer := List.mem_range.mp hpeer
    refine receivedContributions_eq_ok hstarts hrank fun t ht => ?_
    obtain ⟨hget, howns⟩ := (mem_sentTo hstarts hrank (hnrows peer hpeer)).mp ht
    exact ⟨howns, hncols peer hpeer ▸ (SparseMatrix.lt_of_get?_eq_some hget).2⟩
  unfold collect
  simp only [hown, RankProgram.liftM_ok_bind]
  rw [zip_set_own rank (fun peer => sentIndices (sentTo starts rank (product peer)))
    (fun peer => (sentTo starts rank (product peer)).map fun t => t.2.2), hreceived]
  rfl

variable [Add α] [Plain β Nat]

/-- The entries in `outgoing` on their way to the owners of their rows. -/
def share [Plain β α] (place : Place) (starts : Array Nat)
    (outgoing : List (List (Nat × Nat × α))) : RankProgram β σ (List (Nat × Nat × α)) := do
  let indices ← RankProgram.allToAll place Tag.galerkin (outgoing.map sentIndices)
  let values ← RankProgram.allToAll place Tag.galerkin
    (outgoing.map fun entries => entries.map fun (_, _, value) => value)
  collect place starts outgoing indices values

/-- The first phase of a Galerkin product of `block` and `P`: every rank gets the entries of its
rows from all products. -/
def gather [Zero α] [Mul α] [Plain β α] (place : Place) (starts : Array Nat)
    (block P : SparseMatrix α) : RankProgram β σ (List (Nat × Nat × α)) := do
  checkRowStarts starts place.size
  checkProlongation block P (FemAssembly.globalSize starts)
  Word.reserve (FemAssembly.globalSize starts + 1) 8
  let outgoing ← contributionsByOwner place starts
    (localProduct block P)
  share place starts outgoing

/-- The second phase: every rank adds up the `entries` of its rows. -/
def addUp (place : Place) (starts : Array Nat) (entries : List (Nat × Nat × α)) :
    RankProgram β σ (DistributedMatrix α) := do
  RankProgram.noteEvent (.contributionsSummed place.rank entries.length)
  fromLocalRows place starts
    (SparseMatrix.ofTriplets (starts.getD (place.rank + 1) 0 - starts.getD place.rank 0)
      (FemAssembly.globalSize starts) entries)

theorem galerkin_eq_gather_addUp [Zero α] [Mul α] [Plain β α] (hstarts : RowStarts starts size)
    {rank : Nat} (hrank : rank < size) (block P : SparseMatrix α) :
    (galerkin ⟨rank, size⟩ starts block P : RankProgram β σ _) =
      gather ⟨rank, size⟩ starts block P >>= addUp ⟨rank, size⟩ starts := by
  simp only [galerkin, gather, share, collect, bind_assoc,
    hstarts.rowRange_eq_ok hrank, RankProgram.liftM_ok_bind, pure_bind]
  rfl

/-- Where the rows of a product do not fit into an array, `rank` fails at once. -/
theorem galerkin_eq_fail [Zero α] [Mul α] [Plain β α] (hstarts : RowStarts starts size) {rank : Nat}
    {block P : SparseMatrix α}
    (hP : P.nrows = block.nrows ∧ P.ncols = FemAssembly.globalSize starts ∧
      block.nrows = block.ncols)
    (hreserve : ¬ (FemAssembly.globalSize starts + 1) * 8 < Word.signedBound) :
    (galerkin ⟨rank, size⟩ starts block P : RankProgram β σ (DistributedMatrix α)) =
      .fail (.fault .overflow) := by
  have hcheck := checkRowStarts_eq_ok_iff.mpr hstarts
  have hprolongation : checkProlongation block P (FemAssembly.globalSize starts) = .ok () :=
    if_pos hP
  have hroom : Word.reserve (FemAssembly.globalSize starts + 1) 8 = .error (.fault .overflow) :=
    if_neg hreserve
  simp only [galerkin, hcheck, hprolongation, hroom, RankProgram.liftM_ok_bind]
  rfl

end DistributedMatrix

/-- A size `n` that fits into an array of words is a word. -/
theorem Word.le_bound_of_fits {n : Nat} (h : (n + 1) * 8 < Word.signedBound) : n ≤ Word.bound := by
  unfold Word.signedBound at h
  unfold Word.bound
  omega

section

variable {α β σ : Type} [Plain β Nat] [LawfulIndices β] {starts : Array Nat} {size : Nat}
  (hstarts : RowStarts starts size)
include hstarts

/-- The ranks add up what they got of the matrices `product peer`. -/
theorem Collective.addUp [Add α] (hword : globalSize starts ≤ Word.bound)
    (product : Nat → SparseMatrix α) :
    ∃ M, Collective size (fun rank => (DistributedMatrix.addUp ⟨rank, size⟩ starts
        (gathered starts size product rank) : RankProgram β σ (DistributedMatrix α))) M ∧
      Parts starts size M ∧ ∀ rank < size, ∀ i c,
        (M rank).globalGet? i c = (summedRows starts size product rank).get? i c := by
  obtain ⟨M, hM, hparts, hsum⟩ := Collective.fromLocalRows (β := β) (σ := σ) hstarts hword
    (summedRows starts size product) (fun _ _ => SparseMatrix.nrows_ofTriplets ..)
    fun _ _ => SparseMatrix.ncols_ofTriplets ..
  exact ⟨M, Passes.bind (Passes.of_silent fun _ _ => .note _) hM, hparts, hsum⟩

variable [Plain β α] [LawfulPlain β α]

/-- The ranks send each other the entries of the matrices `product rank`, which have a row for every
global row. -/
theorem Collective.share (hword : globalSize starts ≤ Word.bound)
    {product : Nat → SparseMatrix α}
    (hnrows : ∀ rank < size, (product rank).nrows = globalSize starts)
    (hncols : ∀ rank < size, (product rank).ncols = globalSize starts) :
    Collective size (fun rank => (DistributedMatrix.share ⟨rank, size⟩ starts
        ((List.range size).map fun peer => sentTo starts peer (product rank)) :
          RankProgram β σ (List (Nat × Nat × α)))) (gathered starts size product) := by
  have hinside : ∀ rank < size, ∀ peer, ∀ t ∈ sentTo starts peer (product rank),
      t.1 < globalSize starts ∧ t.2.1 < globalSize starts := by
    intro rank hrank peer t ht
    have hlt := SparseMatrix.lt_of_get?_eq_some
      (SparseMatrix.mem_triplets.mp (List.mem_filter.mp ht).1)
    rwa [hnrows rank hrank, hncols rank hrank] at hlt
  have hindices : Collective size (fun rank => (RankProgram.allToAll ⟨rank, size⟩ Tag.galerkin
      (((List.range size).map fun peer => sentTo starts peer (product rank)).map
        DistributedMatrix.sentIndices) : RankProgram β σ (List (List Nat))))
      fun rank => (List.range size).map fun peer => if peer = rank then [] else
        DistributedMatrix.sentIndices (sentTo starts rank (product peer)) := by
    simpa only [List.map_map, Function.comp_def] using Collective.allToAll_map (β := β) (σ := σ)
      size Tag.galerkin
      (fun rank peer => DistributedMatrix.sentIndices (sentTo starts peer (product rank)))
      fun rank hrank peer _ =>
        DistributedMatrix.decode_encode_sentIndices hword (hinside rank hrank peer)
  have hvalues : Collective size (fun rank => (RankProgram.allToAll ⟨rank, size⟩ Tag.galerkin
      (((List.range size).map fun peer => sentTo starts peer (product rank)).map fun entries =>
        entries.map fun t => t.2.2) : RankProgram β σ (List (List α))))
      fun rank => (List.range size).map fun peer => if peer = rank then [] else
        (sentTo starts rank (product peer)).map fun t => t.2.2 := by
    simpa only [List.map_map, Function.comp_def] using Collective.allToAll_map (β := β) (σ := σ)
      size Tag.galerkin (fun rank peer => (sentTo starts peer (product rank)).map fun t => t.2.2)
      fun _ _ _ _ => decode_encode _
  have hcollect : Collective size (fun rank => (DistributedMatrix.collect ⟨rank, size⟩ starts
      ((List.range size).map fun peer => sentTo starts peer (product rank))
      ((List.range size).map fun peer => if peer = rank then [] else
        DistributedMatrix.sentIndices (sentTo starts rank (product peer)))
      ((List.range size).map fun peer => if peer = rank then [] else
        (sentTo starts rank (product peer)).map fun t => t.2.2) :
      RankProgram β σ (List (Nat × Nat × α)))) (gathered starts size product) :=
    Passes.congr (Passes.of_silent fun _ _ => .pure _) fun rank hrank =>
      DistributedMatrix.collect_eq hstarts hnrows hncols hrank
  have hrest := Passes.bind (k := fun rank => DistributedMatrix.collect ⟨rank, size⟩ starts
    ((List.range size).map fun peer => sentTo starts peer (product rank))
    ((List.range size).map fun peer => if peer = rank then [] else
      DistributedMatrix.sentIndices (sentTo starts rank (product peer)))) hvalues hcollect
  exact Passes.bind hindices hrest

variable [Zero α] [Add α] [Mul α] (hreserve : (globalSize starts + 1) * 8 < Word.signedBound)
  {block P : Nat → SparseMatrix α}
  (hP : ∀ rank < size, (P rank).nrows = (block rank).nrows ∧ (P rank).ncols = globalSize starts ∧
    (block rank).nrows = (block rank).ncols)
include hreserve hP

/-- Every rank gets the entries of its rows, from the products of each `block rank` and `P rank`. -/
theorem Collective.gather : Collective size (fun rank =>
      (DistributedMatrix.gather ⟨rank, size⟩ starts (block rank) (P rank) :
        RankProgram β σ (List (Nat × Nat × α))))
    (gathered starts size fun rank => DistributedMatrix.localProduct (block rank) (P rank)) := by
  have hword := Word.le_bound_of_fits hreserve
  have hnrows : ∀ rank < size, (DistributedMatrix.localProduct (block rank) (P rank)).nrows =
      globalSize starts := fun rank hrank =>
    (DistributedMatrix.nrows_localProduct ..).trans (hP rank hrank).2.1
  have hncols : ∀ rank < size, (DistributedMatrix.localProduct (block rank) (P rank)).ncols =
      globalSize starts := fun rank hrank =>
    (DistributedMatrix.ncols_localProduct ..).trans (hP rank hrank).2.1
  refine (Collective.share hstarts hword hnrows hncols).congr fun rank hrank => ?_
  have hcheck := checkRowStarts_eq_ok_iff.mpr hstarts
  have hprolongation : DistributedMatrix.checkProlongation (block rank) (P rank)
      (globalSize starts) = .ok () := if_pos (hP rank hrank)
  have hroom : Word.reserve (globalSize starts + 1) 8 = .ok () := if_pos hreserve
  have houtgoing := DistributedMatrix.contributionsByOwner_eq_ok rank hstarts (hnrows rank hrank)
  simp only [DistributedMatrix.gather, hcheck, hprolongation, hroom, houtgoing,
    RankProgram.liftM_ok_bind]

/-- All ranks come to the end of a Galerkin product, with the summed rows in `M`. -/
theorem Collective.galerkin :
    ∃ M, Collective size (fun rank => (DistributedMatrix.galerkin ⟨rank, size⟩ starts (block rank)
        (P rank) : RankProgram β σ (DistributedMatrix α))) M ∧ Parts starts size M ∧
      ∀ rank < size, ∀ i c, (M rank).globalGet? i c = (summedRows starts size
        (fun rank => DistributedMatrix.localProduct (block rank) (P rank)) rank).get? i c := by
  obtain ⟨M, hM, hparts, hsum⟩ := Collective.addUp (β := β) (σ := σ) hstarts
    (Word.le_bound_of_fits hreserve)
    fun rank => DistributedMatrix.localProduct (block rank) (P rank)
  exact ⟨M, Passes.congr (Passes.bind (Collective.gather hstarts hreserve hP) hM)
    fun rank hrank => DistributedMatrix.galerkin_eq_gather_addUp hstarts hrank _ _, hparts, hsum⟩

end

/-! ## The sum of all products, exactly -/

/-- The elements of `list`, put into one list for each `key`. -/
theorem perm_flatMap_filter {γ : Type} {key : γ → Nat} {size : Nat} {list : List γ}
    (h : ∀ x ∈ list, key x < size) :
    ((List.range size).flatMap fun i => list.filter fun x => key x == i).Perm list := by
  induction list with
  | nil => simp
  | cons x list ih =>
    obtain ⟨hx, hrest⟩ := List.forall_mem_cons.mp h
    have hsplit : ∀ i, (x :: list).filter (fun y => key y == i) =
        (if key x = i then [x] else []) ++ list.filter fun y => key y == i := by
      intro i
      by_cases hi : key x = i <;> simp [hi]
    have hhead : ((List.range size).flatMap fun i => if key x = i then [x] else []) = [x] :=
      (flatMap_range_ite size (key x) fun _ => [x]).trans (if_pos hx)
    simp only [hsplit]
    refine (List.flatMap_append_perm ..).symm.trans ?_
    rw [hhead]
    exact (ih hrest).cons x

section

variable {α : Type} {starts : Array Nat} {size : Nat} {product : Nat → SparseMatrix α}

/-- The entries that `rank` gets from the products of all ranks, its own included. -/
def delivered (starts : Array Nat) (size : Nat) (product : Nat → SparseMatrix α) (rank : Nat) :
    List (Nat × Nat × α) :=
  (List.range size).flatMap fun peer => sentTo starts rank (product peer)

theorem gathered_eq (rank : Nat) : gathered starts size product rank =
    (delivered starts size product rank).map fun (r, c, value) =>
      (r - starts.getD rank 0, c, value) := by
  rw [gathered, delivered, List.map_flatMap]

variable (hstarts : RowStarts starts size)
  (hnrows : ∀ rank < size, (product rank).nrows = globalSize starts)
include hstarts hnrows

theorem owns_of_mem_delivered {rank : Nat} (hrank : rank < size) {t : Nat × Nat × α}
    (ht : t ∈ delivered starts size product rank) : Owns starts rank t.1 := by
  obtain ⟨peer, hpeer, ht⟩ := List.mem_flatMap.mp ht
  exact ((mem_sentTo hstarts hrank (hnrows peer (List.mem_range.mp hpeer))).mp ht).2

/-- Every entry of every `product rank` is delivered once. -/
theorem perm_delivered : ((List.range size).flatMap (delivered starts size product)).Perm
    ((List.range size).flatMap fun rank => (product rank).triplets) := by
  have hswap : ((List.range size).flatMap (delivered starts size product)).Perm
      ((List.range size).flatMap fun peer => (List.range size).flatMap fun rank =>
        sentTo starts rank (product peer)) := by
    rw [← Multiset.coe_eq_coe]
    simp only [delivered, ← Multiset.coe_bind]
    exact Multiset.bind_bind _ _
  refine hswap.trans (List.Perm.flatMap_left _ fun peer hpeer => perm_flatMap_filter fun t ht => ?_)
  have hrow := (SparseMatrix.lt_of_get?_eq_some (SparseMatrix.mem_triplets.mp ht)).1
  rw [hnrows peer (List.mem_range.mp hpeer)] at hrow
  exact (hstarts.ownerOf_owner hrow).2.1

end

/-- The table of a product `Pᵗ A P` is the product of the tables of `P` and `A`. -/
theorem DistributedMatrix.table_localProduct {α : Type} [Semiring α] {A P : SparseMatrix α}
    {n : Nat} (hnrows : P.nrows = n) (hncols : A.ncols = n) (size : Nat) :
    (localProduct A P).table size size = (P.table n size)ᵀ * A.table n n * P.table n size := by
  rw [localProduct, SparseMatrix.table_mul, SparseMatrix.table_mul, SparseMatrix.ncols_transpose,
    SparseMatrix.table_transpose, hnrows, hncols, Matrix.mul_assoc]

/-- The table of the stacked rows `S` of ranks that hold a sum. -/
theorem HoldsSum.table_eq {α : Type} [AddCommMonoid α] {starts : Array Nat} {size : Nat}
    {product : Nat → SparseMatrix α} {M : Nat → DistributedMatrix α}
    (h : HoldsSum starts size product M) (hstarts : RowStarts starts size)
    (hparts : Parts starts size M) {S : SparseMatrix α} (hS : Stacked starts size M S) :
    S.table (globalSize starts) (globalSize starts) =
      ∑ rank ∈ range size, (product rank).table (globalSize starts) (globalSize starts) := by
  ext row c
  obtain ⟨rank, hrank, howns⟩ := hstarts.exists_owns row.isLt
  rw [SparseMatrix.table_apply, SparseMatrix.entry, hS.get?_eq hstarts hparts hrank howns,
    h.value rank hrank row howns, Matrix.sum_apply]
  rfl

/-- The Galerkin product of each `block rank` and `P rank`. However the ranks are interleaved, all
of them come to the end with rows `S` that are the sum of the products `Pᵗ A P`. On the way every
entry of every product gets to the owner of its row, and to nobody else. Only where a list with an
element for every row of `starts` does not fit into an array, all ranks fail before they send
anything. -/
theorem DistributedMatrix.galerkin_eq_sum {α β σ : Type} [Semiring α] [Plain β Nat]
    [LawfulIndices β] [Plain β α] [LawfulPlain β α] {starts : Array Nat} {size : Nat}
    (hstarts : checkRowStarts starts size = .ok ()) {block P : Nat → SparseMatrix α}
    (hP : ∀ rank < size, (P rank).nrows = (block rank).nrows ∧
      (P rank).ncols = FemAssembly.globalSize starts ∧ (block rank).nrows = (block rank).ncols) :
    ((FemAssembly.globalSize starts + 1) * 8 < Word.signedBound →
      ∃ (M : Nat → DistributedMatrix α) (S : SparseMatrix α) (entries : Nat → List (Nat × Nat × α)),
        Stacked starts size M S ∧
        S.table (FemAssembly.globalSize starts) (FemAssembly.globalSize starts) =
          ∑ rank ∈ range size,
            ((P rank).table (block rank).nrows (FemAssembly.globalSize starts))ᵀ *
              (block rank).table (block rank).nrows (block rank).nrows *
              (P rank).table (block rank).nrows (FemAssembly.globalSize starts) ∧
        (∀ rank < size, ∀ t ∈ entries rank, Owns starts rank t.1) ∧
        ((List.range size).flatMap entries).Perm
          ((List.range size).flatMap fun rank => (localProduct (block rank) (P rank)).triplets) ∧
        ∀ (memory : Nat → σ) (e : Ensemble β σ (DistributedMatrix α)),
          Ensemble.Reaches (Ensemble.start (World.new size) ((List.range size).map fun rank =>
            (galerkin ⟨rank, size⟩ starts (block rank) (P rank), memory rank))) e →
          e.OnTrack size M ∧
            e.GoesOnWith (fun rank => gather ⟨rank, size⟩ starts (block rank) (P rank))
              (fun rank => addUp ⟨rank, size⟩ starts)
              fun rank => (entries rank).map fun (r, c, value) =>
                (r - starts.getD rank 0, c, value)) ∧
    (¬ (FemAssembly.globalSize starts + 1) * 8 < Word.signedBound →
      ∀ rank < size, (galerkin ⟨rank, size⟩ starts (block rank) (P rank) :
        RankProgram β σ (DistributedMatrix α)) = .fail (.fault .overflow)) := by
  have hpartition := checkRowStarts_eq_ok_iff.mp hstarts
  let product := fun rank => localProduct (block rank) (P rank)
  have hnrows : ∀ rank < size, (product rank).nrows = FemAssembly.globalSize starts :=
    fun rank hrank => (nrows_localProduct ..).trans (hP rank hrank).2.1
  refine ⟨fun hreserve => ?_, fun hreserve rank hrank =>
    galerkin_eq_fail hpartition (hP rank hrank) hreserve⟩
  have hgather := Collective.gather (β := β) (σ := σ) hpartition hreserve hP
  obtain ⟨M, hM, hparts, hget⟩ := Collective.addUp (β := β) (σ := σ) hpartition
    (Word.le_bound_of_fits hreserve) product
  obtain ⟨S, hS, -⟩ := hparts.exists_stacked hpartition
  have hsum := holdsSum_localProduct hpartition (fun rank hrank => (hP rank hrank).2.1) hget
  refine ⟨M, S, delivered starts size product, hS, ?_,
    fun rank hrank t ht => owns_of_mem_delivered hpartition hnrows hrank ht,
    perm_delivered hpartition hnrows, fun memory e he => ?_⟩
  · rw [hsum.table_eq hpartition hparts hS]
    refine sum_congr rfl fun rank hrank => ?_
    obtain ⟨hrows, -, hsquare⟩ := hP rank (mem_range.mp hrank)
    exact table_localProduct hrows hsquare.symm _
  · have hprograms : ((List.range size).map fun rank =>
        ((galerkin ⟨rank, size⟩ starts (block rank) (P rank) : RankProgram β σ _), memory rank)) =
        (List.range size).map fun rank => (gather ⟨rank, size⟩ starts (block rank) (P rank) >>=
          addUp ⟨rank, size⟩ starts, memory rank) :=
      List.map_congr_left fun rank hrank => by
        rw [galerkin_eq_gather_addUp hpartition (List.mem_range.mp hrank)]
    rw [hprograms] at he
    refine ⟨(Collective.completes (Passes.bind hgather hM)).onTrack he, ?_⟩
    simp only [← gathered_eq]
    exact Collective.goesOnWith hgather hM he

/-- The blocks of three ranks. The last one is empty. -/
def mixedBlock (rank : Nat) : SparseMatrix Int :=
  match rank with
  | 0 => .ofTriplets 1 1 [(0, 0, 2)]
  | 1 => .ofTriplets 2 2 [(0, 0, 1), (0, 1, 3), (1, 1, 5)]
  | _ => .ofTriplets 0 0 []

/-- The first block is spread over both global rows, and the second one is turned around. -/
def mixedProlongation (rank : Nat) : SparseMatrix Int :=
  match rank with
  | 0 => .ofTriplets 1 2 [(0, 0, 1), (0, 1, 1)]
  | 1 => .ofTriplets 2 2 [(0, 1, 1), (1, 0, 1)]
  | _ => .ofTriplets 0 2 []

/-- The second rank, with the largest block, owns no rows. -/
theorem DistributedMatrix.galerkin_eq_sum_mixed :
    checkRowStarts #[0, 1, 1, 2] 3 = .ok () ∧
    (∀ rank < 3, (mixedProlongation rank).nrows = (mixedBlock rank).nrows ∧
      (mixedProlongation rank).ncols = FemAssembly.globalSize #[0, 1, 1, 2] ∧
      (mixedBlock rank).nrows = (mixedBlock rank).ncols) ∧
    ∃ (M : Nat → DistributedMatrix Int) (S : SparseMatrix Int),
      Stacked #[0, 1, 1, 2] 3 M S ∧ S.table 2 2 = !![7, 2; 5, 3] ∧
      ∀ e : Ensemble (Cell Int) Unit (DistributedMatrix Int),
        Ensemble.Reaches (Ensemble.start (World.new 3) ((List.range 3).map fun rank =>
          (galerkin ⟨rank, 3⟩ #[0, 1, 1, 2] (mixedBlock rank) (mixedProlongation rank), ()))) e →
        e.OnTrack 3 M := by
  have hstarts : checkRowStarts #[0, 1, 1, 2] 3 = .ok () := by decide
  have hshape : ∀ rank < 3, (mixedProlongation rank).nrows = (mixedBlock rank).nrows ∧
      (mixedProlongation rank).ncols = FemAssembly.globalSize #[0, 1, 1, 2] ∧
      (mixedBlock rank).nrows = (mixedBlock rank).ncols := by decide
  obtain ⟨M, S, _, hS, htable, -, -, hruns⟩ := (galerkin_eq_sum (β := Cell Int) (σ := Unit)
    hstarts hshape).1 (by decide)
  have hsum : (∑ rank ∈ range 3, ((mixedProlongation rank).table (mixedBlock rank).nrows 2)ᵀ *
      (mixedBlock rank).table (mixedBlock rank).nrows (mixedBlock rank).nrows *
      (mixedProlongation rank).table (mixedBlock rank).nrows 2) = !![7, 2; 5, 3] := by
    decide +kernel
  exact ⟨hstarts, hshape, M, S, hS, htable.trans hsum, fun e he => (hruns (fun _ => ()) e he).1⟩

end FemAssembly
