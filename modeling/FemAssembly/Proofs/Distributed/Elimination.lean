import FemAssembly.Proofs.Distributed.Dirichlet
import FemAssembly.Proofs.Distributed.Galerkin

/-!
# Exactly what elimination over ranks does

A distributed matrix is made by one of three constructions, and then its ranks eliminate essential
rows, perhaps several times. What the ranks are left with depends on the eliminated rows alone: not
on the strategies, not on the order or the repetition of rows, and not on the interleaving.

* `DistributedMatrix.afterElimination_congr`,
  `DistributedMatrix.afterElimination_afterElimination`: the eliminated rows decide, and two
  eliminations are one.
* `Collective.eliminateRounds`: any number of eliminations by all ranks.
* `Construction`: the constructions. `Construction.collective_of_mayFinish`: the matrices that come
  out of one of them.
* `EliminatedFrom`: what becomes of every entry.
* `Construction.eliminate_exact`: all of it together.
-/

namespace FemAssembly

/-! ## Blocks of one rank -/

/-- The eliminations of the rows `essential` and `essential'` make of a value what one with the rows
of both makes of it. -/
theorem eliminated_eliminated {α : Type} [Zero α] [One α] (essential essential' : Nat → Bool)
    (mirrored : Bool) (r c : Nat) (value : α) :
    eliminated (fun _ => 1) essential' mirrored r c
        (eliminated (fun _ => 1) essential mirrored r c value) =
      eliminated (fun _ => 1) (fun row => essential row || essential' row) mirrored r c value := by
  simp only [eliminated]
  grind

theorem isEssential_append (starts : Array Nat) (essential essential' : Nat → List Nat)
    (row : Nat) : isEssential starts (fun rank => essential rank ++ essential' rank) row =
      (isEssential starts essential row || isEssential starts essential' row) := by
  simp [isEssential]

namespace DistributedMatrix

variable {α : Type}

/-- The matrices `M` and `N` of a rank differ in their values alone. -/
structure SameFrame (M N : DistributedMatrix α) : Prop where
  rank_eq : M.rank = N.rank
  rowStarts_eq : M.rowStarts = N.rowStarts
  columns_eq : M.columns = N.columns
  plan_eq : M.plan = N.plan
  adopted_eq : M.adopted = N.adopted

/-- The matrix `M` is known from its frame and the entries of its blocks. -/
theorem SameFrame.ext_get? {M N : DistributedMatrix α} (h : SameFrame M N)
    (hdiagonal : ∀ i j, M.diagonal.get? i j = N.diagonal.get? i j)
    (hoffDiagonal : ∀ i j, M.offDiagonal.get? i j = N.offDiagonal.get? i j) : M = N := by
  have hrows : M.diagonal.nrows = N.diagonal.nrows := by
    rw [M.owned, N.owned, h.rank_eq, h.rowStarts_eq]
  have hd : M.diagonal = N.diagonal :=
    SparseMatrix.ext_get? hrows (by rw [← M.square, ← N.square, hrows]) hdiagonal
  have ho : M.offDiagonal = N.offDiagonal :=
    SparseMatrix.ext_get? (by rw [M.same_rows, N.same_rows, hrows])
      (by rw [M.mapped, N.mapped, h.columns_eq]) hoffDiagonal
  obtain ⟨hrank, hstarts, hcolumns, hplan, hadopted⟩ := h
  obtain ⟨_, _, _, _, _, _, _, _, _, _, _⟩ := M
  obtain ⟨_, _, _, _, _, _, _, _, _, _, _⟩ := N
  simp only at hrank hstarts hcolumns hplan hadopted hd ho
  subst hrank hstarts hcolumns hplan hadopted hd ho
  rfl

variable [Zero α] [One α] {M : DistributedMatrix α} {starts : Array Nat}
  {essential essential' : Nat → List Nat} {own own' : List Nat}

theorem sameFrame_afterElimination (strategy : ColumnElimination) :
    SameFrame (M.afterElimination starts essential own strategy) M :=
  ⟨rfl, rfl, rfl, rfl, rfl⟩

/-- An elimination depends on which rows `essential` and `own` have, and on nothing else. -/
theorem afterElimination_congr (hown : ∀ row, row ∈ own ↔ row ∈ own')
    (hcolumns : ∀ c ∈ M.columns, isEssential starts essential c = isEssential starts essential' c)
    (strategy strategy' : ColumnElimination) :
    M.afterElimination starts essential own strategy =
      M.afterElimination starts essential' own' strategy' := by
  have hcontains : own.contains = own'.contains := by
    funext row
    rw [Bool.eq_iff_iff, List.contains_iff_mem, List.contains_iff_mem, hown]
  refine SameFrame.ext_get? ⟨rfl, rfl, rfl, rfl, rfl⟩ (fun i j => ?_) fun i j => ?_
  · rw [get?_diagonal_afterElimination, get?_diagonal_afterElimination, hcontains]
  · have hany : M.columns[j]?.any (isEssential starts essential) =
        M.columns[j]?.any (isEssential starts essential') := by
      cases hc : M.columns[j]? with
      | none => rfl
      | some c => exact hcolumns c (List.mem_of_getElem? hc)
    rw [get?_offDiagonal_afterElimination, get?_offDiagonal_afterElimination, hcontains, hany]

/-- Two eliminations are one, with the rows of both. -/
theorem afterElimination_afterElimination (strategy strategy' strategy'' : ColumnElimination) :
    (M.afterElimination starts essential own strategy).afterElimination starts essential' own'
        strategy' =
      M.afterElimination starts (fun rank => essential rank ++ essential' rank) (own ++ own')
        strategy'' := by
  have hcontains : ∀ row, (own ++ own').contains row =
      (own.contains row || own'.contains row) := by
    simp
  refine SameFrame.ext_get? ⟨rfl, rfl, rfl, rfl, rfl⟩ (fun i j => ?_) fun i j => ?_
  · simp only [get?_diagonal_afterElimination, Option.isSome_map, Option.map_map, funext hcontains]
    congr 1
    funext value
    exact eliminated_eliminated ..
  · have hany : M.columns[j]?.any
        (isEssential starts fun rank => essential rank ++ essential' rank) =
        (M.columns[j]?.any (isEssential starts essential) ||
          M.columns[j]?.any (isEssential starts essential')) := by
      cases M.columns[j]? with
      | none => rfl
      | some c => exact isEssential_append ..
    rw [get?_offDiagonal_afterElimination, get?_offDiagonal_afterElimination,
      get?_offDiagonal_afterElimination, hany, hcontains, Option.map_map]
    change (M.offDiagonal.get? i j).map (fun value => if own'.contains i ||
      M.columns[j]?.any (isEssential starts essential') then 0 else if own.contains i ||
      M.columns[j]?.any (isEssential starts essential) then 0 else value) = _
    congr 1
    funext value
    cases own.contains i <;> cases own'.contains i <;>
      cases M.columns[j]?.any (isEssential starts essential) <;> simp

/-- Without rows nothing of `M` is eliminated. -/
theorem afterElimination_nil (strategy : ColumnElimination) :
    M.afterElimination starts (fun _ => []) [] strategy = M := by
  refine SameFrame.ext_get? ⟨rfl, rfl, rfl, rfl, rfl⟩ (fun i j => ?_) fun i j => ?_
  · rw [get?_diagonal_afterElimination]
    cases M.diagonal.get? i j <;> simp [eliminated]
  · have hany : M.columns[j]?.any (isEssential starts fun _ => []) = false := by
      cases M.columns[j]? <;> rfl
    rw [get?_offDiagonal_afterElimination, hany]
    cases M.offDiagonal.get? i j <;> simp

end DistributedMatrix

/-! ## Rounds of eliminations -/

/-- An elimination by all ranks: the `rows` of every rank, counted from its first row, and the
`strategy` by which it clears columns. -/
structure EliminationRound where
  rows : Nat → List Nat
  strategy : Nat → ColumnElimination

/-- Every rank lists in `rows` only rows that it owns, counted from its first row. -/
def InOwnRange (starts : Array Nat) (size : Nat) (rows : Nat → List Nat) : Prop :=
  ∀ rank < size, ∀ row ∈ rows rank, row < starts.getD (rank + 1) 0 - starts.getD rank 0

instance (starts : Array Nat) (size : Nat) (rows : Nat → List Nat) :
    Decidable (InOwnRange starts size rows) :=
  inferInstanceAs (Decidable (∀ rank < size, ∀ row ∈ rows rank, _))

section

variable {α β σ : Type} [Zero α] [One α] [Plain β UInt8] {starts : Array Nat} {size : Nat}

/-- The eliminations in `rounds`, one after the other. -/
def DistributedMatrix.eliminateRounds (rounds : List EliminationRound) (rank : Nat)
    (M : DistributedMatrix α) : RankProgram β σ (DistributedMatrix α) :=
  rounds.foldlM (fun M round => M.eliminate (round.rows rank) (round.strategy rank)) M

/-- The rows that `rank` lists in all `rounds`. -/
def allRows (rounds : List EliminationRound) (rank : Nat) : List Nat :=
  rounds.flatMap fun round => round.rows rank

/-- The matrices `M` of all ranks, after the rows in `essential` are eliminated. -/
def eliminatedParts (starts : Array Nat) (essential : Nat → List Nat)
    (M : Nat → DistributedMatrix α) (rank : Nat) : DistributedMatrix α :=
  (M rank).afterElimination starts essential (essential rank) .scan

/-- All ranks come through the eliminations in `rounds`, with the rows of all of them eliminated. -/
theorem Collective.eliminateRounds [LawfulPlain β UInt8] (hstarts : RowStarts starts size)
    {rounds : List EliminationRound} {M : Nat → DistributedMatrix α} (hparts : Parts starts size M)
    (hrows : ∀ round ∈ rounds, InOwnRange starts size round.rows) :
    Collective size (fun rank =>
        ((M rank).eliminateRounds rounds rank : RankProgram β σ (DistributedMatrix α)))
      (eliminatedParts starts (allRows rounds) M) := by
  induction rounds generalizing M with
  | nil =>
    refine Passes.congr_results (Passes.of_silent fun rank _ => .pure (M rank)) fun rank _ => ?_
    exact DistributedMatrix.afterElimination_nil .scan
  | cons round rounds ih =>
    obtain ⟨hround, hrest⟩ := List.forall_mem_cons.mp hrows
    have hfirst := Collective.eliminate (β := β) (σ := σ) round.rows round.strategy hstarts hparts
      fun rank hrank row hrow => hparts.numLocalRows_eq hrank ▸ hround rank hrank row hrow
    have hothers := ih (hparts.eliminate round.rows round.strategy) hrest
    simp only [DistributedMatrix.eliminateRounds, List.foldlM_cons]
    refine (Passes.bind (k := fun rank M => M.eliminateRounds rounds rank) hfirst
      hothers).congr_results fun rank _ => ?_
    exact (DistributedMatrix.afterElimination_afterElimination ..).symm

/-- The matrices `N` that all ranks have after the eliminations in `rounds` belong together. -/
theorem Collective.exists_eliminateRounds [LawfulPlain β UInt8] (hstarts : RowStarts starts size)
    {rounds : List EliminationRound} {M : Nat → DistributedMatrix α} (hparts : Parts starts size M)
    (hrows : ∀ round ∈ rounds, InOwnRange starts size round.rows) :
    ∃ N, Collective size (fun rank =>
        ((M rank).eliminateRounds rounds rank : RankProgram β σ (DistributedMatrix α))) N ∧
      Parts starts size N :=
  ⟨_, Collective.eliminateRounds hstarts hparts hrows,
    hparts.eliminate (allRows rounds) fun _ => .scan⟩

end

/-! ## Constructions -/

/-- The ways to make a distributed matrix, with what each rank gives. -/
inductive Construction (α : Type) where
  | fromLocalRows (rows : Nat → SparseMatrix α)
  | blockDiagonal (block : Nat → SparseMatrix α) (shared : Nat → Bool)
  | galerkin (block prolongation : Nat → SparseMatrix α)

namespace Construction

variable {α β σ : Type} [Zero α] [Add α] [Mul α] [Plain β Nat] [Plain β α] {starts : Array Nat}
  {size : Nat}

/-- The part of `rank` in a construction. -/
def program (starts : Array Nat) (size : Nat) (construction : Construction α) (rank : Nat) :
    RankProgram β σ (DistributedMatrix α) :=
  match construction with
  | fromLocalRows rows => DistributedMatrix.fromLocalRows ⟨rank, size⟩ starts (rows rank)
  | blockDiagonal block shared =>
    DistributedMatrix.blockDiagonal ⟨rank, size⟩ starts (block rank) (shared rank)
  | galerkin block prolongation =>
    DistributedMatrix.galerkin ⟨rank, size⟩ starts (block rank) (prolongation rank)

/-- What `rank` gives has the right dimensions, and the result of a Galerkin product fits into an
array. -/
def Fits (starts : Array Nat) (rank : Nat) : Construction α → Prop
  | fromLocalRows rows => (rows rank).nrows = starts.getD (rank + 1) 0 - starts.getD rank 0 ∧
      (rows rank).ncols = globalSize starts
  | blockDiagonal block _ =>
    (block rank).nrows = starts.getD (rank + 1) 0 - starts.getD rank 0 ∧
      (block rank).ncols = starts.getD (rank + 1) 0 - starts.getD rank 0
  | galerkin block prolongation =>
    ((prolongation rank).nrows = (block rank).nrows ∧
      (prolongation rank).ncols = globalSize starts ∧ (block rank).nrows = (block rank).ncols) ∧
      (globalSize starts + 1) * 8 < Word.signedBound

variable (construction : Construction α) (hstarts : RowStarts starts size)
include hstarts

/-- A `rank` that does not fail at once gives what fits. -/
theorem fits_of_ne_fail {rank : Nat} (hrank : rank < size)
    (h : ∀ error, (construction.program starts size rank : RankProgram β σ _) ≠ .fail error) :
    construction.Fits starts rank := by
  have hcheck := checkRowStarts_eq_ok_iff.mpr hstarts
  refine Classical.byContradiction fun hnot => ?_
  cases construction with
  | fromLocalRows rows =>
    simp only [program, DistributedMatrix.fromLocalRows, hcheck, hstarts.rowRange_eq_ok hrank,
      RankProgram.liftM_ok_bind] at h
    exact h _ (dif_neg hnot)
  | blockDiagonal block shared =>
    simp only [program, DistributedMatrix.blockDiagonal, hcheck, hstarts.rowRange_eq_ok hrank,
      RankProgram.liftM_ok_bind] at h
    exact h _ (dif_neg hnot)
  | galerkin block prolongation =>
    simp only [program, DistributedMatrix.galerkin, hcheck, RankProgram.liftM_ok_bind] at h
    by_cases hshape : (prolongation rank).nrows = (block rank).nrows ∧
        (prolongation rank).ncols = globalSize starts ∧ (block rank).nrows = (block rank).ncols
    · have hshape' : DistributedMatrix.checkProlongation (block rank) (prolongation rank)
          (globalSize starts) = .ok () := if_pos hshape
      have hroom : ¬ (globalSize starts + 1) * 8 < Word.signedBound := fun hroom =>
        hnot ⟨hshape, hroom⟩
      rw [hshape', RankProgram.liftM_ok_bind, Word.reserve, if_neg hroom] at h
      exact h _ rfl
    · rw [DistributedMatrix.checkProlongation, if_neg hshape] at h
      exact h _ rfl

/-- Where every rank gives what fits, all ranks come to the end of the construction. -/
theorem exists_collective [LawfulIndices β] [LawfulPlain β α]
    (hword : globalSize starts ≤ Word.bound)
    (h : ∀ rank < size, construction.Fits starts rank) :
    ∃ M, Collective size (construction.program starts size : Nat → RankProgram β σ _) M ∧
      Parts starts size M := by
  cases construction with
  | fromLocalRows rows =>
    obtain ⟨M, hM, hparts, -⟩ := Collective.fromLocalRows (β := β) (σ := σ) hstarts hword rows
      (fun rank hrank => (h rank hrank).1) fun rank hrank => (h rank hrank).2
    exact ⟨M, hM, hparts⟩
  | blockDiagonal block shared =>
    obtain ⟨M, hM, hparts, -⟩ := Collective.blockDiagonal (β := β) (σ := σ) hstarts hword block
      shared (fun rank hrank => (h rank hrank).1) fun rank hrank => (h rank hrank).2
    exact ⟨M, hM, hparts⟩
  | galerkin block prolongation =>
    -- without ranks there are no rows, and a list of no rows fits
    have hreserve : (globalSize starts + 1) * 8 < Word.signedBound := by
      rcases Nat.eq_zero_or_pos size with rfl | hpos
      · rw [hstarts.globalSize_eq, hstarts.zero]
        decide
      · exact (h 0 hpos).2
    obtain ⟨M, hM, hparts, -⟩ := Collective.galerkin (β := β) (σ := σ) hstarts hreserve
      fun rank hrank => (h rank hrank).1
    exact ⟨M, hM, hparts⟩

/-- The matrices `M` that some interleaving ends with are those that all interleavings end with, and
they belong together. -/
theorem collective_of_mayFinish [LawfulIndices β] [LawfulPlain β α]
    (hword : globalSize starts ≤ Word.bound) {M : Nat → DistributedMatrix α}
    (h : MayFinish size (construction.program starts size : Nat → RankProgram β σ _) M) :
    Collective size (construction.program starts size : Nat → RankProgram β σ _) M ∧
      Parts starts size M := by
  -- all checks of what a rank gives come before its first message
  obtain ⟨N, hN, hparts⟩ := construction.exists_collective (β := β) (σ := σ) hstarts hword
    fun rank hrank => construction.fits_of_ne_fail hstarts hrank fun error =>
      MayFinish.ne_fail h hrank error
  exact hparts.of_mayFinish hN h

end Construction

/-! ## Every entry -/

/-- The matrices `M` and `N` of all ranks before and after the rows in `essential` are eliminated.
What is stored stays the same, and of each stored entry it is known from its position what becomes
of it. -/
structure EliminatedFrom {α : Type} [Zero α] [One α] [Add α] (starts : Array Nat) (size : Nat)
    (essential : Nat → List Nat) (M N : Nat → DistributedMatrix α) : Prop where
  frame : ∀ rank < size, (N rank).SameFrame (M rank)
  diagonal_stored : ∀ rank < size, ∀ i j,
    ((N rank).diagonal.get? i j).isSome = ((M rank).diagonal.get? i j).isSome
  offDiagonal_stored : ∀ rank < size, ∀ i j,
    ((N rank).offDiagonal.get? i j).isSome = ((M rank).offDiagonal.get? i j).isSome
  entry : ∀ rank < size, ∀ row, Owns starts rank row → ∀ c,
    (N rank).toLocalRows.get? (row - starts.getD rank 0) c =
      ((M rank).toLocalRows.get? (row - starts.getD rank 0) c).map fun value =>
        if row = c then if isEssential starts essential row then 1 else value
        else if isEssential starts essential row then 0
        else if isEssential starts essential c ∧ (¬ Owns starts rank c ∨
          ((M rank).toLocalRows.get? (c - starts.getD rank 0) row).isSome) then 0
        else value

theorem eliminatedFrom_eliminatedParts {α : Type} [Zero α] [One α] [Add α] {starts : Array Nat}
    {size : Nat} {M : Nat → DistributedMatrix α} (hstarts : RowStarts starts size)
    (hparts : Parts starts size M) (essential : Nat → List Nat) :
    EliminatedFrom starts size essential M (eliminatedParts starts essential M) := by
  refine ⟨fun rank _ => DistributedMatrix.sameFrame_afterElimination .scan,
    fun rank _ i j => ?_, fun rank _ i j => ?_, fun rank hrank row howns c => ?_⟩
  · rw [eliminatedParts, DistributedMatrix.get?_diagonal_afterElimination, Option.isSome_map]
  · rw [eliminatedParts, DistributedMatrix.get?_offDiagonal_afterElimination, Option.isSome_map]
  · have hafter : Parts starts size (eliminatedParts starts essential M) :=
      hparts.eliminate essential fun _ => .scan
    rw [hafter.get?_toLocalRows hstarts hrank, hparts.get?_toLocalRows hstarts hrank,
      hparts.get?_toLocalRows hstarts hrank, eliminatedParts,
      hparts.globalGet?_eliminate essential (fun _ => .scan) hstarts hrank howns]
    congr 1
    funext value
    unfold eliminated
    by_cases hc : Owns starts rank c <;>
      cases ((M rank).globalGet? (c - starts.getD rank 0) row).isSome <;>
        cases isEssential starts essential row <;> cases isEssential starts essential c <;>
          simp [hc]

/-- Elimination over ranks, exactly. Let the ranks make a matrix `M` by any `construction`. However
often they eliminate rows then, with whatever strategies in `rounds`, every interleaving of the
whole program lets all ranks finish, and what they are left with, `after` these rows, is
`EliminatedFrom` `M`: it is decided by the set of rows that they eliminated, and without any it is
`M`. -/
theorem Construction.eliminate_exact {α β σ : Type} [Zero α] [One α] [Add α] [Mul α]
    [Plain β UInt8] [LawfulPlain β UInt8] [Plain β Nat] [LawfulIndices β] [Plain β α]
    [LawfulPlain β α] {starts : Array Nat} {size : Nat}
    (hstarts : checkRowStarts starts size = .ok ()) (hword : globalSize starts ≤ Word.bound)
    (construction : Construction α) {M : Nat → DistributedMatrix α}
    (hbuilt : MayFinish size (construction.program starts size : Nat → RankProgram β σ _) M) :
    ∃ after : (Nat → List Nat) → Nat → DistributedMatrix α,
      (∀ rounds : List EliminationRound,
        (∀ round ∈ rounds, InOwnRange starts size round.rows) →
        Completes size (fun rank => (construction.program starts size rank >>=
          fun M => M.eliminateRounds rounds rank : RankProgram β σ _)) (after (allRows rounds))) ∧
      (∀ rank < size, after (fun _ => []) rank = M rank) ∧
      (∀ essential, EliminatedFrom starts size essential M (after essential)) ∧
      ∀ essential essential', (∀ rank < size, ∀ row, row ∈ essential rank ↔ row ∈ essential' rank) →
        ∀ rank < size, after essential rank = after essential' rank := by
  have hpartition := checkRowStarts_eq_ok_iff.mp hstarts
  obtain ⟨hcollective, hparts⟩ := construction.collective_of_mayFinish hpartition hword hbuilt
  refine ⟨fun essential => eliminatedParts starts essential M, fun rounds hrounds => ?_,
    fun rank _ => DistributedMatrix.afterElimination_nil .scan,
    fun essential => eliminatedFrom_eliminatedParts hpartition hparts essential,
    fun essential essential' hsame rank hrank => ?_⟩
  · exact Collective.completes (Passes.bind hcollective
      (Collective.eliminateRounds hpartition hparts hrounds))
  · refine DistributedMatrix.afterElimination_congr (hsame rank hrank) (fun c hc => ?_) _ _
    have hlt := (hparts.foreign rank hrank).lt c hc
    obtain ⟨owner, howner, howns⟩ := hpartition.exists_owns hlt
    rw [isEssential_of_owns essential hpartition howner howns,
      isEssential_of_owns essential' hpartition howner howns, Bool.eq_iff_iff,
      List.contains_iff_mem, List.contains_iff_mem, hsame owner howner]

/-- A row for each of two ranks. The first one couples to the second by a NaN. -/
def rowsWithNaN (rank : Nat) : SparseMatrix Binary64 :=
  if rank = 0 then .ofTriplets 1 2 [(0, 0, ⟨0x4000000000000000⟩), (0, 1, ⟨0x7FF8000000000001⟩)]
  else .ofTriplets 1 2 [(0, 0, ⟨0x4008000000000000⟩), (0, 1, ⟨0x4010000000000000⟩)]

/-- The second rank eliminates its row, twice and by both strategies. -/
def secondRowTwice : List EliminationRound :=
  [⟨fun rank => if rank = 1 then [0, 0] else [], fun _ => .scan⟩,
    ⟨fun rank => if rank = 1 then [0] else [], fun _ => .binarySearch⟩]

theorem Construction.eliminate_exact_rowsWithNaN :
    checkRowStarts #[0, 1, 2] 2 = .ok () ∧ globalSize #[0, 1, 2] ≤ Word.bound ∧
    ∃ M, MayFinish 2 ((Construction.fromLocalRows rowsWithNaN).program #[0, 1, 2] 2 :
        Nat → RankProgram UInt8 Unit _) M ∧
      ∃ N, Completes 2 (fun rank => ((Construction.fromLocalRows rowsWithNaN).program #[0, 1, 2] 2
          rank >>= fun M => M.eliminateRounds secondRowTwice rank : RankProgram UInt8 Unit _)) N ∧
        (N 0).toLocalRows.get? 0 0 = some ⟨0x4000000000000000⟩ ∧
        (N 0).toLocalRows.get? 0 1 = some 0 ∧
        (N 1).toLocalRows.get? 0 0 = some 0 ∧ (N 1).toLocalRows.get? 0 1 = some 1 := by
  have hstarts : checkRowStarts #[0, 1, 2] 2 = .ok () := by decide
  have hword : globalSize #[0, 1, 2] ≤ Word.bound := by decide
  have hpartition := checkRowStarts_eq_ok_iff.mp hstarts
  obtain ⟨M, hM, hparts, hget⟩ := Collective.fromLocalRows (β := UInt8) (σ := Unit) hpartition hword
    rowsWithNaN (by decide) (by decide)
  have hbuilt : MayFinish 2 ((Construction.fromLocalRows rowsWithNaN).program #[0, 1, 2] 2 :
      Nat → RankProgram UInt8 Unit _) M := hM.completes.mayFinish fun _ => ()
  obtain ⟨after, hcompletes, -, hexact, -⟩ :=
    Construction.eliminate_exact hstarts hword (.fromLocalRows rowsWithNaN) hbuilt
  have hfirst : isEssential #[0, 1, 2] (allRows secondRowTwice) 0 = false :=
    isEssential_of_owns _ hpartition (show 0 < 2 by decide) (by decide)
  have hsecond : isEssential #[0, 1, 2] (allRows secondRowTwice) 1 = true :=
    isEssential_of_owns _ hpartition (show 1 < 2 by decide) (by decide)
  have hbefore : ∀ rank < 2, ∀ i c, (M rank).toLocalRows.get? i c = (rowsWithNaN rank).get? i c :=
    fun rank hrank i c => (hparts.get?_toLocalRows hpartition hrank i c).trans (hget rank hrank i c)
  have hafter := (hexact (allRows secondRowTwice)).entry
  refine ⟨hstarts, hword, M, hbuilt, after (allRows secondRowTwice),
    hcompletes _ (by decide), ?_, ?_, ?_, ?_⟩
  · refine (hafter 0 (by decide) 0 (by decide) 0).trans ?_
    simp only [hbefore 0 (by decide), hfirst]
    rfl
  · refine (hafter 0 (by decide) 0 (by decide) 1).trans ?_
    simp only [hbefore 0 (by decide), hfirst, hsecond]
    rfl
  · refine (hafter 1 (by decide) 1 (by decide) 0).trans ?_
    simp only [hbefore 1 (by decide), hsecond]
    rfl
  · refine (hafter 1 (by decide) 1 (by decide) 1).trans ?_
    simp only [hbefore 1 (by decide), hsecond]
    rfl

end FemAssembly
