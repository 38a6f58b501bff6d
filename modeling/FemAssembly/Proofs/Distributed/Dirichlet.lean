import FemAssembly.Distributed.Dirichlet
import FemAssembly.Proofs.Assembly.Dirichlet
import FemAssembly.Proofs.Distributed.Matrix

/-!
# Elimination over ranks

What becomes of a stored entry of a distributed matrix depends on whether its row and its column are
essential, whoever owns them.

* `isEssential`: the rows that their owners eliminate. `EssentialRows`: these rows are given ones.
* `DistributedMatrix.get?_clearEssential`: both ways to clear columns do the same.
* `DistributedMatrix.get?_diagonal_afterElimination`,
  `DistributedMatrix.get?_offDiagonal_afterElimination`: the two blocks of a rank.
* `Collective.eliminate`: the elimination by all ranks.
* `Parts.globalGet?_eliminate`: what becomes of the entries.
-/

namespace FemAssembly

/-! ## Rows and columns of one rank -/

namespace DistributedMatrix

open SparseMatrix (get?_mapRow get?_replace)

variable {α : Type} [Zero α]

theorem get?_foldl_eliminateRow [One α] (rows : List Nat) (M : SparseMatrix α) (r c : Nat) :
    (rows.foldl eliminateRow M).get? r c =
      (M.get? r c).map (eliminated (fun _ => 1) rows.contains (M.get? c r).isSome r c) := by
  refine SparseMatrix.get?_foldl_eliminate (fun _ => 1) (fun _ => rfl)
    (fun M row r c => ?_) rows M r c
  rw [eliminateRow, get?_replace, SparseMatrix.get?_decoupleRow, Option.map_map]
  by_cases h : row = r ∧ c = row
  · obtain ⟨rfl, rfl⟩ := h
    simp only [and_self, if_true]
    congr 1
    funext value
    simp [eliminated]
  · rw [if_neg h]
    congr 1
    funext value
    simp only [eliminated]
    grind

theorem get?_foldl_clearRow (rows : List Nat) (M : SparseMatrix α) (r c : Nat) :
    (rows.foldl clearRow M).get? r c =
      (M.get? r c).map fun value => if rows.contains r then 0 else value := by
  induction rows generalizing M with
  | nil => simp
  | cons row rows ih =>
    rw [List.foldl_cons, ih, clearRow, get?_mapRow]
    cases M.get? r c with
    | none => simp
    | some value =>
      by_cases hrow : row = r
      · simp [hrow]
      · simp [hrow, Ne.symm hrow]

/-- The column `column` of `M`, cleared row by row. -/
theorem get?_clearColumn (n column : Nat) (M : SparseMatrix α) (r c : Nat) :
    ((List.range n).foldl (fun M row => M.replace row column 0) M).get? r c =
      (M.get? r c).map fun value => if r < n ∧ c = column then 0 else value := by
  induction n with
  | zero => simp
  | succ n ih =>
    rw [List.range_succ, List.foldl_append, List.foldl_cons, List.foldl_nil, get?_replace, ih]
    cases M.get? r c with
    | none => simp
    | some value =>
      simp only [Option.map_some]
      grind

theorem get?_clearByScan (columns : List Nat) (M : SparseMatrix α) (r c : Nat) :
    (clearByScan M columns).get? r c =
      (M.get? r c).map fun value => if c ∈ columns then 0 else value := by
  rw [clearByScan]
  induction columns generalizing M with
  | nil => simp
  | cons column columns ih =>
    rw [List.foldl_cons, ih, get?_clearColumn]
    cases hget : M.get? r c with
    | none => simp
    | some value =>
      have hr := (SparseMatrix.lt_of_get?_eq_some hget).1
      simp only [Option.map_some, hr, true_and, List.mem_cons]
      grind

omit [Zero α] in
/-- New values `f row` for the entries of every row of `M`. -/
theorem get?_foldl_mapRow (n : Nat) (f : Nat → Nat → α → α) (M : SparseMatrix α) (r c : Nat) :
    ((List.range n).foldl (fun M row => M.mapRow row (f row)) M).get? r c =
      if r < n then (M.get? r c).map (f r c) else M.get? r c := by
  induction n with
  | zero => simp
  | succ n ih =>
    rw [List.range_succ, List.foldl_append, List.foldl_cons, List.foldl_nil, get?_mapRow, ih]
    grind

theorem get?_clearBySearch {columns : List Nat} (h : columns.Pairwise (· < ·)) (M : SparseMatrix α)
    (r c : Nat) : (clearBySearch M columns).get? r c =
      (M.get? r c).map fun value => if c ∈ columns then 0 else value := by
  simp only [clearBySearch, get?_foldl_mapRow]
  cases hget : M.get? r c with
  | none => simp
  | some value =>
    simp only [(SparseMatrix.lt_of_get?_eq_some hget).1, if_true, Option.map_some,
      containsSorted_iff h]

/-- Both ways to clear the `columns` of `M` do the same. -/
theorem get?_clearEssential (strategy : ColumnElimination) {columns : List Nat}
    (h : columns.Pairwise (· < ·)) (M : SparseMatrix α) (r c : Nat) :
    (clearEssential strategy M columns).get? r c =
      (M.get? r c).map fun value => if c ∈ columns then 0 else value := by
  cases strategy with
  | scan => exact get?_clearByScan columns M r c
  | binarySearch => exact get?_clearBySearch h M r c

omit [Zero α] in
theorem mem_flagged {flags : List UInt8} {j : Nat} :
    j ∈ flagged flags ↔ ∃ flag, flags[j]? = some flag ∧ flag ≠ 0 := by
  simp only [flagged, List.mem_map, List.mem_filter, Prod.exists, List.mem_zipIdx_iff_getElem?]
  constructor
  · rintro ⟨flag, _, ⟨hget, hne⟩, rfl⟩
    exact ⟨flag, hget, by simpa using hne⟩
  · rintro ⟨flag, hget, hne⟩
    exact ⟨flag, j, ⟨hget, by simpa using hne⟩, rfl⟩

omit [Zero α] in
theorem pairwise_flagged (flags : List UInt8) : (flagged flags).Pairwise (· < ·) := by
  have hzip : flags.zipIdx.Pairwise (fun x y => x.2 < y.2) := by
    rw [List.pairwise_iff_getElem]
    intro i j hi hj hij
    simpa using hij
  exact List.pairwise_map.mpr (hzip.filter _)

end DistributedMatrix

/-! ## All ranks -/

/-- Whether the owner of `row` eliminates it. The lists in `essential` count the rows of each rank
from its first. -/
def isEssential (starts : Array Nat) (essential : Nat → List Nat) (row : Nat) : Bool :=
  (essential (owner starts row)).contains (row - starts.getD (owner starts row) 0)

/-- Every rank lists in `essential` those of `rows` that it owns, counted from its first row. -/
def EssentialRows (starts : Array Nat) (size : Nat) (rows : List Nat) (essential : Nat → List Nat) :
    Prop :=
  ∀ rank < size, ∀ row, row ∈ essential rank ↔
    Owns starts rank (starts.getD rank 0 + row) ∧ starts.getD rank 0 + row ∈ rows

/-- The matrix `M` of a rank after the elimination. The rank eliminates its rows `own`, and clears
the columns that their owners eliminate. -/
def DistributedMatrix.afterElimination {α : Type} [Zero α] [One α] (M : DistributedMatrix α)
    (starts : Array Nat) (essential : Nat → List Nat) (own : List Nat)
    (strategy : ColumnElimination) : DistributedMatrix α :=
  (M.eliminateOwnRows own).clearColumns strategy
    (flagged (M.columns.map fun c => if isEssential starts essential c then 1 else 0))

namespace DistributedMatrix

variable {α : Type} [Zero α] [One α] (M : DistributedMatrix α) (starts : Array Nat)
  (essential : Nat → List Nat) (own : List Nat) (strategy : ColumnElimination)

/-- In the diagonal block everything depends on the rows `own`. -/
theorem get?_diagonal_afterElimination (i j : Nat) :
    (M.afterElimination starts essential own strategy).diagonal.get? i j =
      (M.diagonal.get? i j).map
        (eliminated (fun _ => 1) own.contains (M.diagonal.get? j i).isSome i j) :=
  get?_foldl_eliminateRow own M.diagonal i j

/-- In the off-diagonal block the rows `own` and the essential columns are cleared. -/
theorem get?_offDiagonal_afterElimination (i j : Nat) :
    (M.afterElimination starts essential own strategy).offDiagonal.get? i j =
      (M.offDiagonal.get? i j).map fun value =>
        if own.contains i || M.columns[j]?.any (isEssential starts essential) then 0
        else value := by
  have hflag : j ∈ flagged (M.columns.map fun c =>
      if isEssential starts essential c then (1 : UInt8) else 0) ↔
      M.columns[j]?.any (isEssential starts essential) = true := by
    rw [mem_flagged, List.getElem?_map]
    cases M.columns[j]? with
    | none => simp
    | some c => cases h : isEssential starts essential c <;> simp [h]
  change (clearEssential strategy (own.foldl clearRow M.offDiagonal) _).get? i j = _
  rw [get?_clearEssential _ (pairwise_flagged _), get?_foldl_clearRow, Option.map_map]
  congr 1
  funext value
  simp only [Function.comp, hflag]
  cases own.contains i <;> simp

end DistributedMatrix

section

variable {α β σ : Type} [Zero α] [One α] {starts : Array Nat} {size : Nat}
  {M : Nat → DistributedMatrix α} (essential : Nat → List Nat)
  (strategy : Nat → ColumnElimination)

theorem isEssential_of_owns (hstarts : RowStarts starts size) {rank row : Nat} (hrank : rank < size)
    (howns : Owns starts rank row) : isEssential starts essential row =
      (essential rank).contains (row - starts.getD rank 0) := by
  rw [isEssential, (hstarts.owner_eq_iff hrank (hstarts.lt_globalSize hrank howns)).mpr howns]

omit [Zero α] [One α] in
theorem isEssential_eq_contains (hstarts : RowStarts starts size) {essential : Nat → List Nat}
    {rows : List Nat} (hessential : EssentialRows starts size rows essential) {row : Nat}
    (hrow : row < globalSize starts) :
    isEssential starts essential row = rows.contains row := by
  obtain ⟨rank, hrank, howns⟩ := hstarts.exists_owns hrow
  have hback : starts.getD rank 0 + (row - starts.getD rank 0) = row :=
    Nat.add_sub_cancel' howns.1
  have hmem := hessential rank hrank (row - starts.getD rank 0)
  rw [hback, and_iff_right howns] at hmem
  rw [isEssential_of_owns essential hstarts hrank howns, Bool.eq_iff_iff]
  simpa using hmem

/-- All ranks eliminate their `essential` rows. -/
theorem Collective.eliminate [Plain β UInt8] [LawfulPlain β UInt8] (hstarts : RowStarts starts size)
    (hparts : Parts starts size M)
    (hessential : ∀ rank < size, ∀ row ∈ essential rank, row < (M rank).numLocalRows) :
    Collective size (fun rank => ((M rank).eliminate (essential rank) (strategy rank) :
        RankProgram β σ (DistributedMatrix α)))
      fun rank => (M rank).afterElimination starts essential (essential rank) (strategy rank) := by
  have hstart : ∀ rank < size, ((M rank).startElimination (essential rank) :
      RankProgram β σ (DistributedMatrix α × Exchange)).Exchanges ⟨rank, size⟩ (fun _ => [])
        (fun peer => if peer < size then haloTraffic starts (fun rank => (M rank).columns)
          Tag.elimination (fun c => if isEssential starts essential c then (1 : UInt8) else 0)
          rank peer else [])
        ((M rank).eliminateOwnRows (essential rank),
          (M rank).plan.awaited rank Tag.elimination) := by
    intro rank hrank
    have hfind : (essential rank).find? ((M rank).numLocalRows ≤ ·) = none := by
      rw [List.find?_eq_none]
      exact fun row hrow => by simpa using hessential rank hrank row hrow
    have hflags : ∀ row, Owns starts rank row →
        (Array.ofFn fun i : Fin (M rank).numLocalRows =>
          if (essential rank).contains i.val then (1 : UInt8) else 0)[row - starts.getD rank 0]? =
          some (if isEssential starts essential row then 1 else 0) := by
      intro row howns
      have hlt : row - starts.getD rank 0 < (M rank).numLocalRows := by
        have := howns.1
        have := howns.2
        rw [hparts.numLocalRows_eq hrank]
        omega
      rw [isEssential_of_owns essential hstarts hrank howns, Array.getElem?_ofFn, dif_pos hlt]
    unfold DistributedMatrix.startElimination
    simp only [hfind]
    rw [hparts.plan_eq rank hrank]
    exact (HaloPlan.exchanges_startExchange _ hstarts hparts.foreign hrank hflags
      Tag.elimination).silent_bind
      (k := fun exchange => pure ((M rank).eliminateOwnRows (essential rank), exchange)) (.pure _)
  refine Collective.round _ _ hstart (fun rank hrank peer hpeer => if_neg (Nat.not_lt.mpr hpeer))
    fun rank hrank => ?_
  have hwait := Exchange.exchanges_wait (β := β) (σ := σ) (fun c =>
    if isEssential starts essential c then (1 : UInt8) else 0) hstarts hparts.foreign hrank
    Tag.elimination
  rw [← hparts.plan_eq rank hrank] at hwait
  simp only [if_pos hrank]
  refine hwait.silent_bind (k := fun flags => do
    RankProgram.noteEvent (.ranksEliminated ((M rank).eliminateOwnRows (essential rank)).rank
      (essential rank).length (DistributedMatrix.flagged flags).length)
    pure (((M rank).eliminateOwnRows (essential rank)).clearColumns (strategy rank)
      (DistributedMatrix.flagged flags))) ?_
  exact (RankProgram.Exchanges.note _).bind_of_silent (.pure _)

variable (hstarts : RowStarts starts size) (hparts : Parts starts size M)
include hparts

/-- Elimination keeps the matrices `M` of all ranks together. -/
theorem Parts.eliminate : Parts starts size fun rank =>
    (M rank).afterElimination starts essential (essential rank) (strategy rank) := by
  refine ⟨hparts.rank_eq, hparts.rowStarts_eq, hparts.foreign, hparts.plan_eq,
    fun rank hrank j hj => ?_⟩
  obtain ⟨i, hi⟩ := hparts.used rank hrank j hj
  exact ⟨i, by rwa [DistributedMatrix.get?_offDiagonal_afterElimination, Option.isSome_map]⟩

include hstarts

/-- What becomes of the entry of `row` and `c`: an essential diagonal becomes one; an essential row
becomes zero, and so does an essential column at the rows of other ranks and wherever its owner
stores the transposed entry. -/
theorem Parts.globalGet?_eliminate {rank row : Nat} (hrank : rank < size)
    (howns : Owns starts rank row) (c : Nat) :
    ((M rank).afterElimination starts essential (essential rank) (strategy rank)).globalGet?
        (row - starts.getD rank 0) c =
      ((M rank).globalGet? (row - starts.getD rank 0) c).map
        (eliminated (fun _ => 1) (isEssential starts essential)
          (!decide (Owns starts rank c) ||
            ((M rank).globalGet? (c - starts.getD rank 0) row).isSome) row c) := by
  have hafter := hparts.eliminate essential strategy
  have hrow := isEssential_of_owns essential hstarts hrank howns
  by_cases hc : Owns starts rank c
  · have hcolumn := isEssential_of_owns essential hstarts hrank hc
    rw [hafter.globalGet?_of_owns hrank hc, DistributedMatrix.get?_diagonal_afterElimination,
      hparts.globalGet?_of_owns hrank hc, hparts.globalGet?_of_owns hrank howns]
    congr 1
    funext value
    have heq : row - starts.getD rank 0 = c - starts.getD rank 0 ↔ row = c := by
      have := howns.1
      have := hc.1
      omega
    simp only [eliminated, heq, hrow, hcolumn, hc, decide_true, Bool.not_true, Bool.false_or]
  · have hne : row ≠ c := fun heq => hc (heq ▸ howns)
    rw [hafter.globalGet?_of_not_owns hrank hc, hparts.globalGet?_of_not_owns hrank hc]
    change ((M rank).columns.idxOf? c).bind _ = _
    cases hidx : (M rank).columns.idxOf? c with
    | none => rfl
    | some j =>
      have hnodup : (M rank).columns.Nodup :=
        (hparts.foreign rank hrank).increasing.imp Nat.ne_of_lt
      rw [Option.bind_some, Option.bind_some, DistributedMatrix.get?_offDiagonal_afterElimination,
        (idxOf?_eq_some_iff hnodup).mp hidx]
      congr 1
      funext value
      simp only [eliminated, hne, if_false, hrow, hc, decide_false, Bool.not_false, Bool.true_or,
        Bool.and_true, Option.any_some]

/-- Without essential rows nothing changes at `row` and `c`. -/
theorem Parts.globalGet?_eliminate_nil {rank row : Nat} (hrank : rank < size)
    (howns : Owns starts rank row) (c : Nat) :
    ((M rank).afterElimination starts (fun _ => []) [] (strategy rank)).globalGet?
        (row - starts.getD rank 0) c = (M rank).globalGet? (row - starts.getD rank 0) c := by
  rw [hparts.globalGet?_eliminate (fun _ => []) strategy hstarts hrank howns]
  have hnone : ∀ r, isEssential starts (fun _ => []) r = false := fun _ => rfl
  cases (M rank).globalGet? (row - starts.getD rank 0) c <;> simp [eliminated, hnone]

end

end FemAssembly
