import FemAssembly.Proofs.Distributed.Dirichlet

/-!
# Elimination and the partition

The rows of one matrix can be shared out to ranks in many ways. After an elimination the stacked
rows are those of the matrix with every essential row cleared, and with the essential columns
cleared in the rows of other ranks. Within the rows of one rank a column is cleared through the row
of the same number, so that an entry without a stored transpose keeps its value.

* `SparseMatrix.mapEntries`, `SparseMatrix.rowBlock`: new values at all positions, and the rows of
  one rank.
* `SparseMatrix.clearedAt`: all essential rows and columns cleared.
* `SparseMatrix.eliminatedOver`, `exists_stackedRows_eliminate`: what the ranks are left with.
* `stackedRows_eliminate_iff`: when these are the same.
-/

namespace FemAssembly

/-! ## Matrices -/

namespace SparseMatrix

variable {α : Type} (A : SparseMatrix α)

/-- New values `f r c` for all stored entries of `A`, by position. -/
def mapEntries (f : Nat → Nat → α → α) : SparseMatrix α :=
  (List.range A.nrows).foldl (fun M row => M.mapRow row (f row)) A

theorem sameShape_mapEntries (f : Nat → Nat → α → α) : SameShape (A.mapEntries f) A :=
  sameShape_foldl (fun M _ => sameShape_mapRow M ..) _ A

theorem get?_mapEntries (f : Nat → Nat → α → α) (r c : Nat) :
    (A.mapEntries f).get? r c = (A.get? r c).map (f r c) := by
  rw [mapEntries, DistributedMatrix.get?_foldl_mapRow]
  cases hget : A.get? r c with
  | none => simp
  | some value => rw [if_pos (lt_of_get?_eq_some hget).1]

/-- Two ways `f` and `g` to give new values come to the same if they do so at the stored entries. -/
theorem rows_mapEntries_eq_iff (f g : Nat → Nat → α → α) :
    (A.mapEntries f).rows.toList = (A.mapEntries g).rows.toList ↔
      ∀ r c value, A.get? r c = some value → f r c value = g r c value := by
  constructor
  · intro hrows r c value hget
    have hrow : (A.mapEntries f).get? r c = (A.mapEntries g).get? r c := by
      rw [get?, get?, row, row, Array.toList_inj.mp hrows]
    rw [get?_mapEntries, get?_mapEntries, hget] at hrow
    exact Option.some.inj hrow
  · intro hvalues
    have hf := A.sameShape_mapEntries f
    have hg := A.sameShape_mapEntries g
    refine congrArg (fun M => M.rows.toList)
      (ext_get? (hf.1.trans hg.1.symm) (hf.2.trans hg.2.symm) fun r c => ?_)
    rw [get?_mapEntries, get?_mapEntries]
    cases hget : A.get? r c with
    | none => rfl
    | some value => exact congrArg some (hvalues r c value hget)

/-- The rows of `A` from `start` to `stop`. -/
def rowBlock (start stop : Nat) : SparseMatrix α where
  ncols := A.ncols
  rows := A.rows.extract start stop
  sorted i h := by
    rw [Array.getElem_extract]
    exact A.sorted _ _
  below i h := by
    rw [Array.getElem_extract]
    exact A.below _ _

variable {A}

theorem nrows_rowBlock {start stop : Nat} (h : stop ≤ A.nrows) :
    (A.rowBlock start stop).nrows = stop - start := by
  simp only [nrows, rowBlock, Array.size_extract] at h ⊢
  omega

theorem get?_rowBlock {start stop i : Nat} (h : start + i < stop) (c : Nat) :
    (A.rowBlock start stop).get? i c = A.get? (start + i) c := by
  have hrow : (A.rowBlock start stop).row i = A.row (start + i) := by
    simp only [row, rowBlock, Array.getD_eq_getD_getElem?, Array.getElem?_extract]
    grind
  rw [get?, get?, hrow]

/-- All entries of `A` in the rows and columns of `dofs` cleared, apart from ones on the diagonal.
-/
def clearedAt [Zero α] [One α] (A : SparseMatrix α) (dofs : List Nat) : SparseMatrix α :=
  A.mapEntries fun r c value =>
    if r = c then if r ∈ dofs then 1 else value
    else if r ∈ dofs ∨ c ∈ dofs then 0
    else value

end SparseMatrix

/-- One rank owns both `r` and `c`. -/
def SharedOwner (starts : Array Nat) (size r c : Nat) : Prop :=
  ∃ rank < size, Owns starts rank r ∧ Owns starts rank c

instance (starts : Array Nat) (size r c : Nat) : Decidable (SharedOwner starts size r c) :=
  inferInstanceAs (Decidable (∃ rank < size, _))

/-- What an elimination of `dofs` over ranks makes of `A`: in an essential column, an entry whose
transpose belongs to the same rank is cleared only where the transpose is stored. -/
def SparseMatrix.eliminatedOver {α : Type} [Zero α] [One α] (starts : Array Nat) (size : Nat)
    (A : SparseMatrix α) (dofs : List Nat) : SparseMatrix α :=
  A.mapEntries fun r c value =>
    if r = c then if r ∈ dofs then 1 else value
    else if r ∈ dofs ∨ c ∈ dofs ∧ (SharedOwner starts size r c → (A.get? c r).isSome) then 0
    else value

/-! ## The rows of all ranks -/

section

variable {α β σ : Type} [Zero α] [One α] [Plain β UInt8] [Plain β Nat] {starts : Array Nat}
  {size : Nat}

/-- The rank `rank` splits its rows of `A` into blocks and eliminates some of them. -/
def splitAndEliminate (starts : Array Nat) (size : Nat) (A : SparseMatrix α)
    (essential : Nat → List Nat) (strategy : Nat → ColumnElimination) (rank : Nat) :
    RankProgram β σ (DistributedMatrix α) := do
  let M ← DistributedMatrix.fromLocalRows ⟨rank, size⟩ starts
    (A.rowBlock (starts.getD rank 0) (starts.getD (rank + 1) 0))
  M.eliminate (essential rank) (strategy rank)

variable [Add α] [LawfulPlain β UInt8] [LawfulIndices β] {A : SparseMatrix α} {dofs : List Nat}
  {essential : Nat → List Nat}

/-- However the rows of `A` are shared out, all ranks come through, and it is known what they are
left with. -/
theorem exists_stackedRows_eliminate (hstarts : RowStarts starts size)
    (hword : globalSize starts ≤ Word.bound) (hnrows : A.nrows = globalSize starts)
    (hncols : A.ncols = globalSize starts) (hessential : EssentialRows starts size dofs essential)
    (strategy : Nat → ColumnElimination) :
    ∃ N, Completes size (splitAndEliminate starts size A essential strategy :
        Nat → RankProgram β σ _) N ∧
      stackedRows size N = (A.eliminatedOver starts size dofs).rows.toList := by
  have hstop : ∀ rank < size, starts.getD (rank + 1) 0 ≤ A.nrows := fun rank hrank => by
    rw [hnrows, hstarts.globalSize_eq]
    exact hstarts.mono hrank (Nat.le_refl size)
  obtain ⟨M, hM, hparts, hget⟩ := Collective.fromLocalRows (β := β) (σ := σ) hstarts hword
    (fun rank => A.rowBlock (starts.getD rank 0) (starts.getD (rank + 1) 0))
    (fun rank hrank => SparseMatrix.nrows_rowBlock (hstop rank hrank)) fun _ _ => hncols
  have hbefore : ∀ rank < size, ∀ row, Owns starts rank row → ∀ c,
      (M rank).globalGet? (row - starts.getD rank 0) c = A.get? row c := by
    intro rank hrank row howns c
    have hback : starts.getD rank 0 + (row - starts.getD rank 0) = row :=
      Nat.add_sub_cancel' howns.1
    rw [hget rank hrank, SparseMatrix.get?_rowBlock (by rw [hback]; exact howns.2), hback]
  have hrange : ∀ rank < size, ∀ row ∈ essential rank, row < (M rank).numLocalRows := by
    intro rank hrank row hrow
    have howns := ((hessential rank hrank row).mp hrow).1.2
    rw [hparts.numLocalRows_eq hrank]
    omega
  have hall := Passes.bind (k := fun rank M => M.eliminate (essential rank) (strategy rank)) hM
    (Collective.eliminate essential strategy hstarts hparts hrange)
  refine ⟨_, Collective.completes hall, ?_⟩
  have hshape : (A.eliminatedOver starts size dofs).nrows = A.nrows :=
    (A.sameShape_mapEntries _).1
  refine (hparts.eliminate essential strategy).stackedRows_eq hstarts (hshape.trans hnrows)
    fun rank hrank row howns c => ?_
  rw [hparts.globalGet?_eliminate essential strategy hstarts hrank howns,
    hbefore rank hrank row howns, SparseMatrix.eliminatedOver, SparseMatrix.get?_mapEntries]
  cases hvalue : A.get? row c with
  | none => rfl
  | some value =>
    have hrow : row < globalSize starts := hstarts.lt_globalSize hrank howns
    have hcolumn : c < globalSize starts := hncols ▸ (SparseMatrix.lt_of_get?_eq_some hvalue).2
    -- the row has one owner, so it shares an owner with the column if that one owns the column
    have hshared : SharedOwner starts size row c ↔ Owns starts rank c := by
      constructor
      · rintro ⟨other, hother, hrow', hc⟩
        rwa [hstarts.owner_eq hrank hother howns hrow']
      · exact fun hc => ⟨rank, hrank, howns, hc⟩
    have hmirrored : Owns starts rank c → ((M rank).globalGet? (c - starts.getD rank 0) row) =
        A.get? c row := fun hc => hbefore rank hrank c hc row
    simp only [Option.map_some, eliminated, isEssential_eq_contains hstarts hessential hrow,
      isEssential_eq_contains hstarts hessential hcolumn, List.contains_iff_mem, hshared]
    by_cases hc : Owns starts rank c
    · rw [hmirrored hc]
      simp [hc]
    · simp [hc]

/-- The elimination of `dofs` over ranks, `eliminatedOver`, against the one that clears whole
columns, `clearedAt`. They agree exactly where every entry of `A` that stays is zero anyway, so they
agree for all partitions where the columns in `dofs` have their transposes stored. -/
theorem stackedRows_eliminate_iff (hstarts : checkRowStarts starts size = .ok ())
    (hword : globalSize starts ≤ Word.bound) (hnrows : A.nrows = globalSize starts)
    (hncols : A.ncols = globalSize starts) (hessential : EssentialRows starts size dofs essential)
    (strategy : Nat → ColumnElimination) :
    ∃ N, Completes size (splitAndEliminate starts size A essential strategy :
        Nat → RankProgram β σ _) N ∧
      stackedRows size N = (A.eliminatedOver starts size dofs).rows.toList ∧
      (stackedRows size N = (A.clearedAt dofs).rows.toList ↔
        ∀ r c value, A.get? r c = some value → r ≠ c → c ∈ dofs → r ∉ dofs →
          SharedOwner starts size r c → A.get? c r = none → value = 0) ∧
      ((∀ r c, c ∈ dofs → (A.get? r c).isSome → (A.get? c r).isSome) →
        stackedRows size N = (A.clearedAt dofs).rows.toList) := by
  obtain ⟨N, hN, hrows⟩ := exists_stackedRows_eliminate (β := β) (σ := σ)
    (checkRowStarts_eq_ok_iff.mp hstarts) hword hnrows hncols hessential strategy
  have hiff : stackedRows size N = (A.clearedAt dofs).rows.toList ↔
      ∀ r c value, A.get? r c = some value → r ≠ c → c ∈ dofs → r ∉ dofs →
        SharedOwner starts size r c → A.get? c r = none → value = 0 := by
    rw [hrows, SparseMatrix.eliminatedOver, SparseMatrix.clearedAt,
      SparseMatrix.rows_mapEntries_eq_iff]
    refine forall₄_congr fun r c value _ => ?_
    by_cases hrc : r = c <;> by_cases hr : r ∈ dofs <;> by_cases hc : c ∈ dofs <;>
      by_cases hshared : SharedOwner starts size r c <;> cases A.get? c r <;>
        simp [hrc, hr, hc, hshared]
  refine ⟨N, hN, hrows, hiff, fun hmirrored => hiff.mpr fun r c value hget _ hc _ _ hnone => ?_⟩
  have hsome := hmirrored r c hc (by rw [hget]; rfl)
  rw [hnone] at hsome
  cases hsome

end

/-! ## A coupling in one direction -/

/-- Two rows, of which the first couples to the second, and not the other way round. -/
def coupledOneWay : SparseMatrix Int := .ofTriplets 2 2 [(0, 0, 2), (0, 1, 5), (1, 1, 3)]

theorem essentialRows_oneRank : EssentialRows #[0, 2] 1 [1] fun _ => [1] := by
  intro rank hrank row
  obtain rfl : rank = 0 := by omega
  simp only [List.mem_singleton, Owns]
  exact ⟨fun h => by subst h; decide, fun h => by simpa using h.2⟩

theorem essentialRows_twoRanks :
    EssentialRows #[0, 1, 2] 2 [1] fun rank => if rank = 1 then [0] else [] := by
  intro rank hrank row
  interval_cases rank
  · simp [Owns]
    omega
  · simp [Owns]

/-- One rank keeps the coupling of `coupledOneWay` to the row that it eliminates. Two ranks clear
it. -/
theorem exists_column_kept :
    ∃ N N', Completes 1 (splitAndEliminate #[0, 2] 1 coupledOneWay (fun _ => [1])
        (fun _ => .scan) : Nat → RankProgram UInt8 Unit _) N ∧
      Completes 2 (splitAndEliminate #[0, 1, 2] 2 coupledOneWay
        (fun rank => if rank = 1 then [0] else []) (fun _ => .scan) :
          Nat → RankProgram UInt8 Unit _) N' ∧
      stackedRows 1 N = [[(0, 2), (1, 5)], [(1, 1)]] ∧
      stackedRows 2 N' = [[(0, 2), (1, 0)], [(1, 1)]] := by
  obtain ⟨N, hN, hrows⟩ := exists_stackedRows_eliminate (β := UInt8) (σ := Unit)
    (A := coupledOneWay) (checkRowStarts_eq_ok_iff.mp (by decide)) (by decide) (by decide)
    (by decide) essentialRows_oneRank fun _ => .scan
  obtain ⟨N', hN', hrows'⟩ := exists_stackedRows_eliminate (β := UInt8) (σ := Unit)
    (A := coupledOneWay) (checkRowStarts_eq_ok_iff.mp (by decide)) (by decide) (by decide)
    (by decide) essentialRows_twoRanks fun _ => .scan
  exact ⟨N, N', hN, hN', hrows.trans (by decide +kernel), hrows'.trans (by decide +kernel)⟩

theorem stackedRows_eliminate_iff_coupledOneWay :
    checkRowStarts #[0, 2] 1 = .ok () ∧ globalSize #[0, 2] ≤ Word.bound ∧
    coupledOneWay.nrows = globalSize #[0, 2] ∧ coupledOneWay.ncols = globalSize #[0, 2] ∧
    EssentialRows #[0, 2] 1 [1] (fun _ => [1]) ∧
    ∃ N, Completes 1 (splitAndEliminate #[0, 2] 1 coupledOneWay (fun _ => [1])
        (fun _ => .binarySearch) : Nat → RankProgram UInt8 Unit _) N ∧
      stackedRows 1 N ≠ (coupledOneWay.clearedAt [1]).rows.toList := by
  have hstarts : checkRowStarts #[0, 2] 1 = .ok () := by decide
  have hword : globalSize #[0, 2] ≤ Word.bound := by decide
  have hnrows : coupledOneWay.nrows = globalSize #[0, 2] := by decide
  have hncols : coupledOneWay.ncols = globalSize #[0, 2] := by decide
  obtain ⟨N, hN, -, hiff, -⟩ := stackedRows_eliminate_iff (β := UInt8) (σ := Unit) hstarts hword
    hnrows hncols essentialRows_oneRank fun _ => .binarySearch
  refine ⟨hstarts, hword, hnrows, hncols, essentialRows_oneRank, N, hN, fun hrows => ?_⟩
  have hzero : (5 : Int) = 0 :=
    hiff.mp hrows 0 1 5 (by decide) (by decide) (by decide) (by decide) (by decide) (by decide)
  exact absurd hzero (by decide)

end FemAssembly
