import FemAssembly.Proofs.Distributed.Choice
import FemAssembly.Proofs.Distributed.Elimination
import FemAssembly.Proofs.Distributed.Exchange

/-!
# Products with vectors over ranks

Every rank has the part of a vector that belongs to its rows, and gets its part of the product. It
multiplies its diagonal block by its own part, and its off-diagonal block by the values that the
owners of the columns sent. In exact arithmetic, the parts of all ranks make up the product of the
stacked rows with the whole vector.

* `Parts.rowProducts_eq`: what a rank computes is the product with its rows.
* `stackedVector`: the parts of all ranks, one after the other. `stackedVector_productPart`: those
  of a product.
* `Collective.mul`, `Collective.mulRounds`: one product by all ranks, and any number of them.
* `Origin`: all ways to make a distributed matrix. `Origin.collective_of_mayFinish`: the matrices
  that come out of one of them.
* `Origin.mulRounds_eq_mulVec`: products after any construction and any number of eliminations.
-/

namespace FemAssembly

open Finset Matrix

/-! ## The rows of one rank -/

/-- The triplets of row `i` of `M` contribute its product with `x`. -/
theorem SparseMatrix.sum_namedTriplets_mul {α : Type} [NonUnitalNonAssocSemiring α]
    (M : SparseMatrix α) (name : Nat → Nat) (x : Nat → α) {i : Nat} (hi : i < M.nrows) :
    ((M.namedTriplets name).map fun t => if t.1 = i then t.2.2 * x t.2.1 else 0).sum =
      ((M.row i).map fun entry => entry.2 * x (name entry.1)).sum := by
  let term (k j : Nat) (value : α) : α := if k = i then value * x (name j) else 0
  calc ((M.namedTriplets name).map fun t => if t.1 = i then t.2.2 * x t.2.1 else 0).sum
      = (M.triplets.map fun t => term t.1 t.2.1 t.2.2).sum := by
        rw [namedTriplets, List.map_map]
        rfl
    _ = ∑ k ∈ range M.nrows, ∑ j ∈ range M.ncols, (M.get? k j).elim 0 (term k j) :=
        M.sum_triplets term
    _ = ∑ j ∈ range M.ncols, (M.get? i j).elim 0 fun value => value * x (name j) := by
        rw [sum_eq_single i (fun k _ hne => sum_eq_zero fun j _ => ?_)
          fun hnot => absurd (mem_range.mpr hi) hnot]
        · simp only [term, if_true]
        · cases M.get? k j <;> simp [term, hne]
    _ = _ := (SparseRow.sum_map (M.sorted_row i).nodup (M.below_row i)
        fun j value => value * x (name j)).symm

namespace DistributedMatrix

variable {α β σ : Type} [Zero α] [Add α] [Mul α]

/-- The own part of a product with `M`, from the own part `x` of the vector and the values
`received` for the off-diagonal columns. -/
def rowProducts (M : DistributedMatrix α) (x : Array α) (received : List α) : List α :=
  ((M.diagonal.rows.toList.map (addRowProduct x 0)).zip M.offDiagonal.rows.toList).map
    fun (sum, row) => addRowProduct received.toArray sum row

theorem mul_eq [Plain β α] {M : DistributedMatrix α} {x : Array α} (hx : x.size = M.numLocalRows) :
    (M.mul x : RankProgram β σ (List α)) =
      (M.plan.startExchange Tag.product x >>= fun exchange => exchange.wait) >>=
        fun received => pure (M.rowProducts x received) := by
  rw [mul, if_neg (not_not.mpr hx), bind_assoc]
  rfl

/-- The product `m` of several, by a `vector` that may depend on the products in `history` before
it. -/
def mulRound [Plain β α] (M : DistributedMatrix α) (vector : Nat → List (List α) → Array α)
    (m : Nat) (history : List (List α)) : RankProgram β σ (List α) :=
  M.mul (vector m history)

end DistributedMatrix

section

variable {α : Type} [NonUnitalNonAssocSemiring α]

/-- In exact arithmetic it does not matter that the diagonal block of `M` comes first. -/
theorem DistributedMatrix.rowProducts_eq (M : DistributedMatrix α) (x : Array α)
    (received : List α) : M.rowProducts x received = (List.range M.numLocalRows).map fun i =>
      ((M.diagonal.row i).map fun entry => entry.2 * x.getD entry.1 0).sum +
        ((M.offDiagonal.row i).map fun entry => entry.2 * received.toArray.getD entry.1 0).sum := by
  have hsame := M.same_rows
  refine List.ext_getElem ?_ fun i hi hi' => ?_
  · simp only [SparseMatrix.nrows] at hsame
    simp [rowProducts, numLocalRows, SparseMatrix.nrows, hsame]
  · have hrow : i < M.diagonal.nrows := by simpa [numLocalRows] using hi'
    have hrow' : i < M.offDiagonal.nrows := hsame ▸ hrow
    simp only [rowProducts, List.getElem_map, List.getElem_zip, Array.getElem_toList,
      SparseMatrix.addRowProduct_eq_add_sum, zero_add, List.getElem_range,
      SparseMatrix.row_eq_getElem _ hrow, SparseMatrix.row_eq_getElem _ hrow']
    rfl

variable {starts : Array Nat} {size rank : Nat} {M : Nat → DistributedMatrix α}
  (h : Parts starts size M) (hstarts : RowStarts starts size) (hrank : rank < size)
include h hstarts hrank

/-- The product of row `i` of `rank` with the vector `value`, block by block. -/
theorem Parts.sum_entry_toLocalRows_mul {i : Nat} (hi : i < (M rank).numLocalRows)
    (value : Nat → α) :
    ∑ c ∈ range (globalSize starts), (M rank).toLocalRows.entry i c * value c =
      (((M rank).diagonal.row i).map fun entry =>
          entry.2 * value (starts.getD rank 0 + entry.1)).sum +
        (((M rank).offDiagonal.row i).map fun entry =>
          entry.2 * value ((M rank).columns.getD entry.1 0)).sum := by
  have hi' : i < (M rank).offDiagonal.nrows := (M rank).same_rows ▸ hi
  rw [h.toLocalRows_eq_ofTriplets hrank, SparseMatrix.sum_entry_ofTriplets_mul hi
      fun t ht => (h.lt_of_mem_entries hstarts hrank t ht).2,
    List.map_append, List.sum_append, SparseMatrix.sum_namedTriplets_mul _ _ _ hi,
    SparseMatrix.sum_namedTriplets_mul _ _ _ hi']

/-- A rank multiplies its rows by the vector `value`, of which it has its own part `x` and the
values of its off-diagonal columns. -/
theorem Parts.rowProducts_eq {x : Array α} {value : Nat → α}
    (hx : ∀ row, Owns starts rank row → x[row - starts.getD rank 0]? = some (value row)) :
    (M rank).rowProducts x ((M rank).columns.map value) =
      (List.range (M rank).numLocalRows).map fun i =>
        ∑ c ∈ range (globalSize starts), (M rank).toLocalRows.entry i c * value c := by
  rw [DistributedMatrix.rowProducts_eq]
  refine List.map_congr_left fun i hi => ?_
  rw [h.sum_entry_toLocalRows_mul hstarts hrank (List.mem_range.mp hi)]
  congr 2
  · refine List.map_congr_left fun entry hentry => ?_
    have hlt := (M rank).diagonal.below_row i entry.1 (List.mem_map_of_mem hentry)
    have hvalue := hx _ (h.owns_of_lt hrank hlt)
    rw [Nat.add_sub_cancel_left] at hvalue
    rw [Array.getD_eq_getD_getElem?, hvalue, Option.getD_some]
  · refine List.map_congr_left fun entry hentry => ?_
    have hlt := (M rank).offDiagonal.below_row i entry.1 (List.mem_map_of_mem hentry)
    rw [Array.getD_eq_getD_getElem?, List.getElem?_toArray, List.getElem?_map,
      Parts.getElem?_columns hlt, Option.map_some, Option.getD_some]

end

/-! ## All rows -/

/-- What all ranks have in `part`, one rank after the other. -/
def stackedVector {α : Type} (size : Nat) (part : Nat → List α) : List α :=
  (List.range size).flatMap part

/-- The `vector` of which every rank has the part of its rows. -/
theorem stackedVector_toList {α : Type} {starts : Array Nat} {size : Nat}
    (hstarts : RowStarts starts size) {vector : Nat → Array α}
    (hvector : ∀ rank < size, (vector rank).size = starts.getD (rank + 1) 0 - starts.getD rank 0)
    (fallback : α) : stackedVector size (fun rank => (vector rank).toList) =
      (List.range (globalSize starts)).map (HaloPlan.supplied starts vector fallback) := by
  refine hstarts.flatMap_eq fun rank hrank => ?_
  refine List.ext_getElem (by simp [hvector rank hrank]) fun i hi _ => ?_
  have hlt : i < starts.getD (rank + 1) 0 - starts.getD rank 0 := by
    simpa [hvector rank hrank] using hi
  have hvalue := HaloPlan.getElem?_eq_supplied hstarts hvector fallback hrank
    (⟨by omega, by omega⟩ : Owns starts rank (starts.getD rank 0 + i))
  rw [Nat.add_sub_cancel_left, Array.getElem?_eq_some_iff] at hvalue
  obtain ⟨_, hvalue⟩ := hvalue
  rw [Array.getElem_toList, hvalue, List.getElem_map, List.getElem_range]

section

variable {α β σ : Type} [NonUnitalNonAssocSemiring α] {starts : Array Nat} {size : Nat}
  {S : SparseMatrix α}

/-- The part of `rank` in the product of `S` and the `vector` of which every rank has its part. -/
def productPart (starts : Array Nat) (S : SparseMatrix α) (vector : Nat → Array α) (rank : Nat) :
    List α :=
  (List.range (starts.getD (rank + 1) 0 - starts.getD rank 0)).map fun i =>
    ∑ c ∈ range (globalSize starts),
      S.entry (starts.getD rank 0 + i) c * HaloPlan.supplied starts vector 0 c

/-- The parts of all ranks make up the product of `S` and the `vector`. -/
theorem stackedVector_productPart (hstarts : RowStarts starts size) (S : SparseMatrix α)
    {vector : Nat → Array α} (hvector : ∀ rank < size,
      (vector rank).size = starts.getD (rank + 1) 0 - starts.getD rank 0) :
    stackedVector size (productPart starts S vector) =
      List.ofFn (S.table (globalSize starts) (globalSize starts) *ᵥ fun j =>
        (stackedVector size fun rank => (vector rank).toList).getD j 0) := by
  have hvalues : (fun j : Fin (globalSize starts) =>
      (stackedVector size fun rank => (vector rank).toList).getD j 0) =
      fun j : Fin (globalSize starts) => HaloPlan.supplied starts vector 0 j := by
    funext j
    rw [stackedVector_toList hstarts hvector 0]
    simp
  rw [hvalues, SparseMatrix.ofFn_table_mulVec]
  exact hstarts.flatMap_eq fun _ _ => rfl

variable [Plain β α] [LawfulPlain β α] {M : Nat → DistributedMatrix α}
  (hstarts : RowStarts starts size) (hparts : Parts starts size M) (hS : Stacked starts size M S)
include hstarts hparts hS

/-- All ranks multiply their matrix by a `vector`. -/
theorem Collective.mul {vector : Nat → Array α} (hvector : ∀ rank < size,
      (vector rank).size = starts.getD (rank + 1) 0 - starts.getD rank 0) :
    Collective size (fun rank => ((M rank).mul (vector rank) : RankProgram β σ (List α)))
      (productPart starts S vector) := by
  have hvalue : ∀ rank < size, ∀ row, Owns starts rank row →
      (vector rank)[row - starts.getD rank 0]? = some (HaloPlan.supplied starts vector 0 row) :=
    fun rank hrank row howns => HaloPlan.getElem?_eq_supplied hstarts hvector 0 hrank howns
  have hexchange := Collective.haloExchange (β := β) (σ := σ) hstarts hparts.foreign Tag.product
    (HaloPlan.supplied starts vector 0) hvalue
  refine ((hexchange.map fun rank received => (M rank).rowProducts (vector rank) received).congr
    fun rank hrank => ?_).congr_results fun rank hrank => ?_
  · have hsize : (vector rank).size = (M rank).numLocalRows :=
      (hvector rank hrank).trans (hparts.numLocalRows_eq hrank).symm
    rw [DistributedMatrix.mul_eq hsize, hparts.plan_eq rank hrank]
  · rw [productPart, hparts.rowProducts_eq hstarts hrank (hvalue rank hrank),
      hparts.numLocalRows_eq hrank]
    refine List.map_congr_left fun i hi => sum_congr rfl fun c _ => ?_
    have hi := List.mem_range.mp hi
    have howns : Owns starts rank (starts.getD rank 0 + i) := ⟨by omega, by omega⟩
    rw [SparseMatrix.entry, SparseMatrix.entry, hS.get?_eq hstarts hparts hrank howns,
      Nat.add_sub_cancel_left, hparts.get?_toLocalRows hstarts hrank]

/-- All ranks come through `n` products. -/
theorem Collective.mulRounds {vector : Nat → Nat → List (List α) → Array α}
    (hvector : ∀ rank < size, ∀ m history,
      (vector rank m history).size = starts.getD (rank + 1) 0 - starts.getD rank 0) (n : Nat) :
    ∃ products : Nat → List (List α),
      Collective size (fun rank => (RankProgram.rounds ((M rank).mulRound (vector rank)) n :
        RankProgram β σ (List (List α)))) products ∧
      (∀ rank, (products rank).length = n) ∧
      ∀ m < n, ∀ rank, (products rank)[m]? =
        some (productPart starts S (fun peer => vector peer m ((products peer).take m)) rank) := by
  have hround : ∀ (m : Nat) (history : Nat → List (List α)), Collective (β := β) (σ := σ) size
      (fun rank => (M rank).mulRound (vector rank) m (history rank))
      (productPart starts S fun rank => vector rank m (history rank)) :=
    fun m history => Collective.mul hstarts hparts hS fun rank hrank =>
      hvector rank hrank m (history rank)
  exact Collective.rounds hround n

end

/-! ## Every way to make a matrix -/

/-- A rank whose `construction` may come to its end with `M` gives what fits. -/
theorem Construction.fits_of_mayReturn {α β σ : Type} [Zero α] [Add α] [Mul α] [Plain β Nat]
    [Plain β α] {starts : Array Nat} {size rank : Nat} (construction : Construction α)
    (hstarts : RowStarts starts size) (hrank : rank < size) {M : DistributedMatrix α}
    (h : (construction.program starts size rank : RankProgram β σ _).MayReturn M) :
    construction.Fits starts rank :=
  construction.fits_of_ne_fail hstarts hrank fun error hfail =>
    RankProgram.MayReturn.not_fail error (hfail ▸ h)

/-- The same for the choice between two constructions of a `block`. A Galerkin product has to fit
into an array only where the ranks may have chosen one. -/
theorem DistributedMatrix.fits_of_mayReturn {α β σ : Type} [Semiring α] [BEq α] [LawfulBEq α]
    [Plain β UInt8] [Plain β Nat] [Plain β α] {starts : Array Nat} {size rank : Nat}
    (hstarts : RowStarts starts size) (hrank : rank < size) {layout : Layout α}
    (hlayout : layout.rowStarts = starts) {block : SparseMatrix α} {shared : Bool}
    {M : DistributedMatrix α}
    (h : (fromLocalBlock ⟨rank, size⟩ layout block shared : RankProgram β σ _).MayReturn M) :
    ((layout.effective rank).nrows = block.nrows ∧
      (layout.effective rank).ncols = FemAssembly.globalSize starts ∧
      block.nrows = block.ncols) ∧
      (layout.isIdentity rank = .ok true ∨
        (FemAssembly.globalSize starts + 1) * 8 < Word.signedBound) := by
  rw [fromLocalBlock_eq hrank (hlayout ▸ hstarts)] at h
  obtain ⟨choice, hdecide, hbuild⟩ := h.exists_of_bind
  cases choice with
  | true =>
    -- no rank chooses a diagonal block unless its own prolongation is an identity
    obtain ⟨-, -, hdecide⟩ := RankProgram.MayReturn.exists_of_bind hdecide
    obtain ⟨identity, hidentity, hdecide⟩ := RankProgram.MayReturn.exists_of_bind hdecide
    obtain ⟨flags, -, hdecide⟩ := RankProgram.MayReturn.exists_of_bind hdecide
    have hown := RankProgram.MayReturn.eq_of_pure hdecide
    obtain rfl : identity = true := (Bool.and_eq_true_iff.mp hown).1
    have hidentity := RankProgram.MayReturn.eq_ok_of_liftM hidentity
    have hnumbers := Layout.numbersOwned_of_isIdentity hstarts hrank hlayout hidentity
    rw [buildChosen, hlayout] at hbuild
    obtain ⟨hnrows, hncols⟩ := Construction.fits_of_mayReturn
      (.blockDiagonal (fun _ => block) fun _ => shared) hstarts hrank hbuild
    exact ⟨⟨hnumbers.nrows_eq.trans hnrows.symm, hnumbers.ncols_eq, hnrows.trans hncols.symm⟩,
      .inl hidentity⟩
  | false =>
    obtain ⟨-, -, hbuild⟩ := RankProgram.MayReturn.exists_of_bind hbuild
    rw [hlayout] at hbuild
    obtain ⟨hshape, hroom⟩ := Construction.fits_of_mayReturn
      (.galerkin (fun _ => block) layout.effective) hstarts hrank hbuild
    exact ⟨hshape, .inr hroom⟩

/-- The ways to make a distributed matrix, those between which the ranks choose included. -/
inductive Origin (α : Type) where
  | given (construction : Construction α)
  | chosen (prolongation : Nat → Option (SparseMatrix α)) (block : Nat → SparseMatrix α)
      (shared : Nat → Bool)

namespace Origin

variable {α β σ : Type} [Semiring α] [BEq α] [Plain β UInt8] [Plain β Nat] [Plain β α]

/-- The part of `rank` in the making of a matrix by `origin`. -/
def program (starts : Array Nat) (size : Nat) (origin : Origin α) (rank : Nat) :
    RankProgram β σ (DistributedMatrix α) :=
  match origin with
  | given construction => construction.program starts size rank
  | chosen prolongation block shared =>
    DistributedMatrix.fromLocalBlock ⟨rank, size⟩ ⟨starts, prolongation rank⟩ (block rank)
      (shared rank)

/-- The matrices `M` that some interleaving ends with are those that all interleavings end with, and
they belong together. -/
theorem collective_of_mayFinish [LawfulBEq α] [LawfulPlain β UInt8] [LawfulIndices β]
    [LawfulPlain β α] {starts : Array Nat} {size : Nat} (origin : Origin α)
    (hstarts : RowStarts starts size) (hword : globalSize starts ≤ Word.bound)
    {M : Nat → DistributedMatrix α}
    (h : MayFinish size (origin.program starts size : Nat → RankProgram β σ _) M) :
    Collective size (origin.program starts size : Nat → RankProgram β σ _) M ∧
      Parts starts size M := by
  cases origin with
  | given construction => exact construction.collective_of_mayFinish hstarts hword h
  | chosen prolongation block shared =>
    have hfits := fun rank (hrank : rank < size) =>
      DistributedMatrix.fits_of_mayReturn hstarts hrank
        (rfl : (⟨starts, prolongation rank⟩ : Layout α).rowStarts = starts) (h.mayReturn hrank)
    obtain ⟨N, hN, hparts, -⟩ := Collective.fromLocalBlock (β := β) (σ := σ) hstarts
      (fun _ _ => rfl) hword shared (fun rank hrank => (hfits rank hrank).1) fun hnot => by
        -- some rank has no identity, and then the ranks have chosen a Galerkin product
        push Not at hnot
        obtain ⟨rank, hrank, hother⟩ := hnot
        exact (hfits rank hrank).2.resolve_left hother
    exact hparts.of_mayFinish hN h

/-- The rank `rank` makes a matrix, eliminates the rows in `rounds`, and multiplies the matrix that
it has then by `n` vectors. A `vector` may depend on the products before it. -/
def mulRounds (starts : Array Nat) (size : Nat) (origin : Origin α)
    (rounds : List EliminationRound) (vector : Nat → Nat → List (List α) → Array α) (n rank : Nat) :
    RankProgram β σ (DistributedMatrix α × List (List α)) := do
  let M ← origin.program starts size rank
  let N ← M.eliminateRounds rounds rank
  let products ← RankProgram.rounds (N.mulRound (vector rank)) n
  pure (N, products)

/-- Products with vectors over ranks. Whatever `origin` a matrix has and however many eliminations
follow in `rounds`, all ranks come through `n` products, in every interleaving. The parts of a
product are, one rank after the other, the product of the stacked rows `S` with the `vector` of
which each rank has its part. -/
theorem mulRounds_eq_mulVec [LawfulBEq α] [LawfulPlain β UInt8] [LawfulIndices β]
    [LawfulPlain β α] {starts : Array Nat} {size : Nat}
    (hstarts : checkRowStarts starts size = .ok ()) (hword : globalSize starts ≤ Word.bound)
    (origin : Origin α) {M : Nat → DistributedMatrix α}
    (hbuilt : MayFinish size (origin.program starts size : Nat → RankProgram β σ _) M)
    {rounds : List EliminationRound} (hrounds : ∀ round ∈ rounds, InOwnRange starts size round.rows)
    {vector : Nat → Nat → List (List α) → Array α}
    (hvector : ∀ rank < size, ∀ m history,
      (vector rank m history).size = starts.getD (rank + 1) 0 - starts.getD rank 0) (n : Nat) :
    ∃ (N : Nat → DistributedMatrix α) (S : SparseMatrix α) (products : Nat → List (List α)),
      (∀ (memory : Nat → σ) (e : Ensemble β σ (DistributedMatrix α × List (List α))),
        Ensemble.Reaches (Ensemble.start (World.new size) ((List.range size).map fun rank =>
          (origin.mulRounds starts size rounds vector n rank, memory rank))) e →
        e.OnTrack size fun rank => (N rank, products rank)) ∧
      Stacked starts size N S ∧
      (∀ rank, (products rank).length = n) ∧
      ∀ m < n, stackedVector size (fun rank => (products rank).getD m []) =
        List.ofFn (S.table (globalSize starts) (globalSize starts) *ᵥ fun j =>
          (stackedVector size fun rank =>
            (vector rank m ((products rank).take m)).toList).getD j 0) := by
  have hpartition := checkRowStarts_eq_ok_iff.mp hstarts
  obtain ⟨hmade, hparts⟩ := origin.collective_of_mayFinish hpartition hword hbuilt
  obtain ⟨N, heliminate, hafter⟩ :=
    Collective.exists_eliminateRounds (β := β) (σ := σ) hpartition hparts hrounds
  obtain ⟨S, hS, -⟩ := hafter.exists_stacked hpartition
  obtain ⟨products, hproducts, hlength, hproduct⟩ :=
    Collective.mulRounds (β := β) (σ := σ) hpartition hafter hS hvector n
  have hmultiply : Collective size (fun rank => (do
      let N ← (M rank).eliminateRounds rounds rank
      let products ← RankProgram.rounds (N.mulRound (vector rank)) n
      pure (N, products) : RankProgram β σ (DistributedMatrix α × List (List α))))
      fun rank => (N rank, products rank) :=
    Passes.bind heliminate (hproducts.map fun rank products => (N rank, products))
  have hall : Collective size
      (origin.mulRounds starts size rounds vector n : Nat → RankProgram β σ _)
      fun rank => (N rank, products rank) :=
    Passes.bind hmade hmultiply
  refine ⟨N, S, products, fun memory e he => hall.completes.onTrack he, hS, hlength,
    fun m hm => ?_⟩
  have hlast : (fun rank => (products rank).getD m []) =
      productPart starts S fun rank => vector rank m ((products rank).take m) := by
    funext rank
    rw [List.getD_eq_getElem?_getD, hproduct m hm rank, Option.getD_some]
  rw [hlast]
  exact stackedVector_productPart hpartition S fun rank hrank => hvector rank hrank m _

/-- Three ranks, of which the second one owns no rows. The third one has a block for all rows. -/
def chainLayout (rank : Nat) : Layout Int where
  rowStarts := #[0, 1, 1, 3]
  prolongation :=
    if rank = 2 then some (.ofTriplets 3 3 [(0, 0, 1), (1, 1, 1), (2, 2, 1)]) else none

def chainBlock (rank : Nat) : SparseMatrix Int :=
  match rank with
  | 0 => .ofTriplets 1 1 [(0, 0, 5)]
  | 1 => .ofTriplets 0 0 []
  | _ => .ofTriplets 3 3 [(0, 0, 2), (0, 1, -1), (1, 0, -1), (1, 1, 2), (1, 2, -1), (2, 1, -1),
      (2, 2, 2)]

def chain : Origin Int :=
  .chosen (fun rank => (chainLayout rank).prolongation) chainBlock fun _ => false

/-- The third rank eliminates the last row. -/
def lastRow : List EliminationRound :=
  [⟨fun rank => if rank = 2 then [1] else [], fun _ => .scan⟩]

/-- Ones at first, and then the product before. -/
def onesThenProducts (rank _m : Nat) (history : List (List Int)) : Array Int :=
  .ofFn fun i : Fin (#[0, 1, 1, 3].getD (rank + 1) 0 - #[0, 1, 1, 3].getD rank 0) =>
    (history.getLast?.getD [1, 1]).getD i 0

theorem mulRounds_eq_mulVec_chain :
    checkRowStarts #[0, 1, 1, 3] 3 = .ok () ∧ globalSize #[0, 1, 1, 3] ≤ Word.bound ∧
    (∃ M, MayFinish 3 (chain.program #[0, 1, 1, 3] 3 : Nat → RankProgram (Cell Int) Unit _) M) ∧
    (∀ round ∈ lastRow, InOwnRange #[0, 1, 1, 3] 3 round.rows) ∧
    (∀ rank < 3, ∀ m history, (onesThenProducts rank m history).size =
      #[0, 1, 1, 3].getD (rank + 1) 0 - #[0, 1, 1, 3].getD rank 0) ∧
    ∃ (N : Nat → DistributedMatrix Int) (S : SparseMatrix Int) (products : Nat → List (List Int)),
      (∀ e : Ensemble (Cell Int) Unit (DistributedMatrix Int × List (List Int)),
        Ensemble.Reaches (Ensemble.start (World.new 3) ((List.range 3).map fun rank =>
          (chain.mulRounds #[0, 1, 1, 3] 3 lastRow onesThenProducts 2 rank, ()))) e →
        e.OnTrack 3 fun rank => (N rank, products rank)) ∧
      Stacked #[0, 1, 1, 3] 3 N S ∧
      stackedVector 3 (fun rank => (products rank).getD 0 []) =
        List.ofFn (S.table 3 3 *ᵥ fun _ => 1) ∧
      stackedVector 3 (fun rank => (products rank).getD 1 []) =
        List.ofFn (S.table 3 3 *ᵥ fun j => (stackedVector 3 fun rank =>
          (onesThenProducts rank 1 ((products rank).take 1)).toList).getD j 0) := by
  have hstarts : checkRowStarts #[0, 1, 1, 3] 3 = .ok () := by decide
  have hword : globalSize #[0, 1, 1, 3] ≤ Word.bound := by decide
  have hbuilt : ∃ M, MayFinish 3
      (chain.program #[0, 1, 1, 3] 3 : Nat → RankProgram (Cell Int) Unit _) M := by
    have hshape : ∀ rank < 3, ((chainLayout rank).effective rank).nrows = (chainBlock rank).nrows ∧
        ((chainLayout rank).effective rank).ncols = globalSize #[0, 1, 1, 3] ∧
        (chainBlock rank).nrows = (chainBlock rank).ncols := by decide
    obtain ⟨M, hM, -⟩ := Collective.fromLocalBlock (β := Cell Int) (σ := Unit)
      (checkRowStarts_eq_ok_iff.mp hstarts) (fun _ _ => rfl) hword (fun _ => false) hshape
      fun _ => by decide
    exact ⟨M, hM.completes.mayFinish fun _ => ()⟩
  have hrounds : ∀ round ∈ lastRow, InOwnRange #[0, 1, 1, 3] 3 round.rows := by decide
  have hvector : ∀ rank < 3, ∀ m history, (onesThenProducts rank m history).size =
      #[0, 1, 1, 3].getD (rank + 1) 0 - #[0, 1, 1, 3].getD rank 0 :=
    fun _ _ _ _ => Array.size_ofFn
  refine ⟨hstarts, hword, hbuilt, hrounds, hvector, ?_⟩
  obtain ⟨M, hM⟩ := hbuilt
  obtain ⟨N, S, products, hruns, hS, -, hproduct⟩ :=
    mulRounds_eq_mulVec hstarts hword chain hM hrounds hvector 2
  refine ⟨N, S, products, fun e he => hruns (fun _ => ()) e he, hS, ?_, hproduct 1 (by decide)⟩
  refine (hproduct 0 (by decide)).trans ?_
  congr 2
  funext j
  fin_cases j <;> rfl

end Origin

end FemAssembly
