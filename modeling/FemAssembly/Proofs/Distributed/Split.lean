import FemAssembly.Proofs.Distributed.Elimination

/-!
# Splitting and joining rows

A rank splits its rows into two blocks, with two ways to number the columns, and joins the blocks to
rows again. Neither way anything is lost, not even a stored zero: rows determine their blocks, and
blocks in which every off-diagonal column has an entry are those of the rows that they make.

* `SplitFrom.eq_of_splitFrom`: rows determine their blocks.
* `Parts.splitFrom_toLocalRows`: the blocks of ranks that belong together are those of their rows.
* `DistributedMatrix.splitAgain`: a construction, eliminations, and the rows split once more.
* `DistributedMatrix.split_join`: both ways, in every interleaving.
-/

namespace FemAssembly

/-- The matrices `M` and `N` of a rank have the same blocks, and the same plan to exchange values.
-/
structure DistributedMatrix.SameBlocks {α : Type} (M N : DistributedMatrix α) : Prop where
  diagonal_eq : M.diagonal = N.diagonal
  offDiagonal_eq : M.offDiagonal = N.offDiagonal
  columns_eq : M.columns = N.columns
  plan_eq : M.plan = N.plan

section

variable {α : Type} {starts : Array Nat} {rank : Nat} {rows : SparseMatrix α}
  {M N : DistributedMatrix α}

namespace SplitFrom

/-- The `rows` determine the columns of their off-diagonal block. -/
theorem columns_eq (h : SplitFrom starts rank rows M) (h' : SplitFrom starts rank rows N) :
    M.columns = N.columns :=
  h.increasing.eq_of_mem_iff h'.increasing fun c => (h.mem_columns c).trans (h'.mem_columns c).symm

/-- The `rows` determine their blocks. -/
theorem eq_of_splitFrom (h : SplitFrom starts rank rows M) (h' : SplitFrom starts rank rows N) :
    M.diagonal = N.diagonal ∧ M.offDiagonal = N.offDiagonal := by
  have hcolumns := h.columns_eq h'
  constructor
  · refine SparseMatrix.ext_get? (h.nrows_diagonal.trans h'.nrows_diagonal.symm)
      (h.ncols_diagonal.trans h'.ncols_diagonal.symm) fun i j => ?_
    by_cases hj : j < starts.getD (rank + 1) 0 - starts.getD rank 0
    · rw [h.get?_diagonal i j hj, h'.get?_diagonal i j hj]
    · rw [SparseMatrix.get?_eq_none_of_not_lt fun hlt => hj (h.ncols_diagonal ▸ hlt.2),
        SparseMatrix.get?_eq_none_of_not_lt fun hlt => hj (h'.ncols_diagonal ▸ hlt.2)]
  · refine SparseMatrix.ext_get? (h.nrows_offDiagonal.trans h'.nrows_offDiagonal.symm)
      (by rw [h.ncols_offDiagonal, h'.ncols_offDiagonal, hcolumns]) fun i j => ?_
    by_cases hj : j < N.columns.length
    · rw [h.get?_offDiagonal i j (hcolumns ▸ hj), h'.get?_offDiagonal i j hj]
      simp only [hcolumns]
    · rw [SparseMatrix.get?_eq_none_of_not_lt fun hlt =>
          hj (hcolumns ▸ h.ncols_offDiagonal ▸ hlt.2),
        SparseMatrix.get?_eq_none_of_not_lt fun hlt => hj (h'.ncols_offDiagonal ▸ hlt.2)]

end SplitFrom

end

section

variable {α : Type} [Add α] {starts : Array Nat} {size : Nat} {M N : Nat → DistributedMatrix α}

/-- The blocks of ranks that belong together in `M` are those of their rows. -/
theorem Parts.splitFrom_toLocalRows (h : Parts starts size M) (hstarts : RowStarts starts size)
    {rank : Nat} (hrank : rank < size) :
    SplitFrom starts rank (M rank).toLocalRows (M rank) := by
  have hforeign := h.foreign rank hrank
  have hnodup : (M rank).columns.Nodup := hforeign.increasing.imp Nat.ne_of_lt
  have hnrows : (M rank).diagonal.nrows = (M rank).toLocalRows.nrows := nrows_toLocalRows _ |>.symm
  have hoffDiagonal : ∀ i j (hj : j < (M rank).columns.length),
      (M rank).offDiagonal.get? i j = (M rank).toLocalRows.get? i (M rank).columns[j] := by
    intro i j hj
    have hidx : (M rank).columns.idxOf? (M rank).columns[j] = some j :=
      (idxOf?_eq_some_iff hnodup).mpr (List.getElem?_eq_getElem hj)
    rw [h.get?_toLocalRows hstarts hrank,
      h.globalGet?_of_not_owns hrank (hforeign.not_owns _ (List.getElem_mem hj)), hidx,
      Option.bind_some]
  refine ⟨hnrows, ?_, (M rank).same_rows.trans hnrows, (M rank).mapped, fun i j hj => ?_,
    hoffDiagonal, hforeign.increasing, fun c => ⟨fun hc => ?_, ?_⟩⟩
  · rw [← (M rank).square]
    exact h.numLocalRows_eq hrank
  · rw [h.get?_toLocalRows hstarts hrank,
      h.globalGet?_of_owns hrank ⟨Nat.le_add_right .., by omega⟩, Nat.add_sub_cancel_left]
  · -- a column of the list has an entry
    obtain ⟨j, hj, rfl⟩ := List.getElem_of_mem hc
    obtain ⟨i, hi⟩ := h.used rank hrank j hj
    exact ⟨hforeign.not_owns _ hc, i, hoffDiagonal i j hj ▸ hi⟩
  · -- and an entry of another rank's column is found through the list
    rintro ⟨hnot, i, hi⟩
    rw [h.get?_toLocalRows hstarts hrank, h.globalGet?_of_not_owns hrank hnot] at hi
    obtain ⟨value, hvalue⟩ := Option.isSome_iff_exists.mp hi
    obtain ⟨j, hj, -⟩ := Option.bind_eq_some_iff.mp hvalue
    exact List.mem_of_getElem? ((idxOf?_eq_some_iff hnodup).mp hj)

/-- Ranks that split the rows of `M` into `N` have the same blocks and the same plan. -/
theorem Parts.sameBlocks (h : Parts starts size M) (h' : Parts starts size N)
    (hstarts : RowStarts starts size)
    (hsplit : ∀ rank < size, SplitFrom starts rank (M rank).toLocalRows (N rank)) {rank : Nat}
    (hrank : rank < size) : (N rank).SameBlocks (M rank) := by
  have hown : ∀ rank < size, SplitFrom starts rank (M rank).toLocalRows (M rank) :=
    fun rank hrank => h.splitFrom_toLocalRows hstarts hrank
  have hcolumns : ∀ rank < size, (N rank).columns = (M rank).columns :=
    fun rank hrank => (hsplit rank hrank).columns_eq (hown rank hrank)
  obtain ⟨hdiagonal, hoffDiagonal⟩ := (hsplit rank hrank).eq_of_splitFrom (hown rank hrank)
  refine ⟨hdiagonal, hoffDiagonal, hcolumns rank hrank, ?_⟩
  rw [h.plan_eq rank hrank, h'.plan_eq rank hrank]
  exact HaloPlan.planned_congr hcolumns hrank

end

namespace DistributedMatrix

section

variable {α β σ : Type} [Zero α] [One α] [Add α] [Mul α] [Plain β UInt8] [Plain β Nat] [Plain β α]

/-- The rank `rank` makes a matrix, eliminates the rows in `rounds`, and splits the rows that it has
then. It keeps both matrices. -/
def splitAgain (starts : Array Nat) (size : Nat) (construction : Construction α)
    (rounds : List EliminationRound) (rank : Nat) :
    RankProgram β σ (DistributedMatrix α × DistributedMatrix α) := do
  let M ← construction.program starts size rank
  let N ← M.eliminateRounds rounds rank
  let N' ← fromLocalRows ⟨rank, size⟩ starts N.toLocalRows
  pure (N, N')

/-- Splitting and joining rows, both ways. All ranks come through, however they are interleaved. The
`rows` that are split, `SplitFrom`, have their own columns in the diagonal block and all others in
the off-diagonal one, and the blocks are joined to the same rows. Whatever `construction` a matrix
comes from and however many eliminations follow in `rounds`, its joined rows are split into blocks
that are the same, `SameBlocks`. -/
theorem split_join [LawfulPlain β UInt8] [LawfulIndices β] [LawfulPlain β α] {starts : Array Nat}
    {size : Nat} (hstarts : checkRowStarts starts size = .ok ())
    (hword : FemAssembly.globalSize starts ≤ Word.bound) :
    (∀ rows : Nat → SparseMatrix α, (∀ rank < size,
        (rows rank).nrows = starts.getD (rank + 1) 0 - starts.getD rank 0 ∧
          (rows rank).ncols = FemAssembly.globalSize starts) →
      ∃ M : Nat → DistributedMatrix α,
        (∀ (memory : Nat → σ) (e : Ensemble β σ (DistributedMatrix α)),
          Ensemble.Reaches (Ensemble.start (World.new size) ((List.range size).map fun rank =>
            (fromLocalRows ⟨rank, size⟩ starts (rows rank), memory rank))) e →
          e.OnTrack size M) ∧
        ∀ rank < size, SplitFrom starts rank (rows rank) (M rank) ∧
          (M rank).toLocalRows = rows rank) ∧
    ∀ (construction : Construction α) (M : Nat → DistributedMatrix α)
      (rounds : List EliminationRound),
      MayFinish size (construction.program starts size : Nat → RankProgram β σ _) M →
      (∀ round ∈ rounds, InOwnRange starts size round.rows) →
      ∃ N N' : Nat → DistributedMatrix α,
        (∀ (memory : Nat → σ) (e : Ensemble β σ (DistributedMatrix α × DistributedMatrix α)),
          Ensemble.Reaches (Ensemble.start (World.new size) ((List.range size).map fun rank =>
            (splitAgain starts size construction rounds rank, memory rank))) e →
          e.OnTrack size fun rank => (N rank, N' rank)) ∧
        ∀ rank < size, (N' rank).SameBlocks (N rank) := by
  have hpartition := checkRowStarts_eq_ok_iff.mp hstarts
  refine ⟨fun rows hrows => ?_, fun construction M rounds hbuilt hrounds => ?_⟩
  · obtain ⟨M, hM, hparts, hsplit⟩ := Collective.splitRows (β := β) (σ := σ) hpartition hword rows
      (fun rank hrank => (hrows rank hrank).1) fun rank hrank => (hrows rank hrank).2
    refine ⟨M, fun memory e he => hM.completes.onTrack he, fun rank hrank =>
      ⟨hsplit rank hrank, ?_⟩⟩
    obtain ⟨hnrows, hncols⟩ := hrows rank hrank
    exact hparts.toLocalRows_eq hpartition hrank hnrows hncols
      ((hsplit rank hrank).globalGet?_eq (hparts.rank_eq rank hrank)
        (hparts.rowStarts_eq rank hrank))
  · obtain ⟨hcollective, hparts⟩ := construction.collective_of_mayFinish hpartition hword hbuilt
    obtain ⟨N, heliminate, hafter⟩ :=
      Collective.exists_eliminateRounds (β := β) (σ := σ) hpartition hparts hrounds
    obtain ⟨N', hN', hparts', hsplit⟩ := Collective.splitRows (β := β) (σ := σ) hpartition hword
      (fun rank => (N rank).toLocalRows)
      (fun rank hrank => (Parts.nrows_toLocalRows _).trans (hafter.numLocalRows_eq hrank))
      fun rank hrank => (Parts.ncols_toLocalRows _).trans (hafter.globalSize_eq hrank)
    have hagain : Collective size (fun rank => (do
        let N ← (M rank).eliminateRounds rounds rank
        let N' ← fromLocalRows ⟨rank, size⟩ starts N.toLocalRows
        pure (N, N') : RankProgram β σ (DistributedMatrix α × DistributedMatrix α)))
        fun rank => (N rank, N' rank) :=
      Passes.bind heliminate (hN'.map fun rank N' => (N rank, N'))
    have hall : Collective size
        (splitAgain starts size construction rounds : Nat → RankProgram β σ _)
        fun rank => (N rank, N' rank) :=
      Passes.bind hcollective hagain
    exact ⟨N, N', fun memory e he => hall.completes.onTrack he,
      fun rank hrank => hafter.sameBlocks hparts' hpartition hsplit hrank⟩

end

/-- A row for the first of three ranks, with a stored zero for the third one, and two rows for the
third one. The second one owns no rows. -/
def rowsWithZero (rank : Nat) : SparseMatrix Binary64 :=
  match rank with
  | 0 => .ofTriplets 1 3 [(0, 0, ⟨0x4000000000000000⟩), (0, 2, 0)]
  | 1 => .ofTriplets 0 3 []
  | _ => .ofTriplets 2 3 [(1, 0, ⟨0x7FF8000000000001⟩), (1, 2, ⟨0x4008000000000000⟩)]

/-- The third rank eliminates its second row. -/
def lastRowOnce : List EliminationRound :=
  [⟨fun rank => if rank = 2 then [1] else [], fun _ => .binarySearch⟩]

theorem split_join_rowsWithZero :
    checkRowStarts #[0, 1, 1, 3] 3 = .ok () ∧
    FemAssembly.globalSize #[0, 1, 1, 3] ≤ Word.bound ∧
    (∃ M : Nat → DistributedMatrix Binary64,
      (∀ rank < 3, (M rank).toLocalRows = rowsWithZero rank) ∧ (M 0).columns = [2] ∧
      (M 0).offDiagonal.get? 0 0 = some 0) ∧
    ∃ N N' : Nat → DistributedMatrix Binary64,
      (∀ e : Ensemble UInt8 Unit (DistributedMatrix Binary64 × DistributedMatrix Binary64),
        Ensemble.Reaches (Ensemble.start (World.new 3) ((List.range 3).map fun rank =>
          (splitAgain #[0, 1, 1, 3] 3 (.fromLocalRows rowsWithZero) lastRowOnce rank, ()))) e →
        e.OnTrack 3 fun rank => (N rank, N' rank)) ∧
      ∀ rank < 3, (N' rank).SameBlocks (N rank) := by
  have hstarts : checkRowStarts #[0, 1, 1, 3] 3 = .ok () := by decide
  have hword : FemAssembly.globalSize #[0, 1, 1, 3] ≤ Word.bound := by decide
  have hshape : ∀ rank < 3, (rowsWithZero rank).nrows =
      #[0, 1, 1, 3].getD (rank + 1) 0 - #[0, 1, 1, 3].getD rank 0 ∧
      (rowsWithZero rank).ncols = FemAssembly.globalSize #[0, 1, 1, 3] := by decide
  obtain ⟨hsplit, hrebuild⟩ := split_join (α := Binary64) (β := UInt8) (σ := Unit) hstarts hword
  refine ⟨hstarts, hword, ?_, ?_⟩
  · obtain ⟨M, -, hM⟩ := hsplit rowsWithZero hshape
    obtain ⟨hfirst, -⟩ := hM 0 (by decide)
    have hcolumns : (M 0).columns = [2] := by
      refine hfirst.increasing.eq_of_mem_iff (List.pairwise_singleton ..) fun c => ?_
      rw [hfirst.mem_columns, ← SparseMatrix.mem_columns,
        show (rowsWithZero 0).columns = [0, 2] from by decide +kernel]
      simp [Owns]
      omega
    refine ⟨M, fun rank hrank => (hM rank hrank).2, hcolumns, ?_⟩
    have hzero : (rowsWithZero 0).get? 0 2 = some 0 := rfl
    rw [hfirst.get?_offDiagonal 0 0 (by simp [hcolumns])]
    simpa only [hcolumns, List.getElem_cons_zero] using hzero
  · obtain ⟨M, hM, -⟩ := Collective.splitRows (β := UInt8) (σ := Unit)
      (checkRowStarts_eq_ok_iff.mp hstarts) hword rowsWithZero
      (fun rank hrank => (hshape rank hrank).1) fun rank hrank => (hshape rank hrank).2
    obtain ⟨N, N', hruns, hsame⟩ := hrebuild (.fromLocalRows rowsWithZero) M lastRowOnce
      (hM.completes.mayFinish fun _ => ()) (by decide)
    exact ⟨N, N', fun e he => hruns (fun _ => ()) e he, hsame⟩

end DistributedMatrix

end FemAssembly
