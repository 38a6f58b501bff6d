import FemAssembly.Assembly.Assembler
import FemAssembly.Proofs.Sequence.Ranges
import FemAssembly.Proofs.Sequence.Results

/-!
# What the passes do

The count pass reserves a range of the storage for every row, and the fill pass claims the places of
each range from its start. Under schedules of the same visits, no row asks for more places than were
reserved, so the outcome is the matrix of all entries.

* `countPass_eq_ok`: the counts, by `rowCount`.
* `Filled`: the invariant of the fill pass. Every row holds its entries so far, in their order, and
  its cursor is at their end. `Filled.put` is its step and `Filled.foldl_put` a whole run.
* `Filled.foldlM_fillVisit`, `fillPass_eq`: while rows have room, nothing but an entry without a
  value makes the fill pass fail.
* `Assembler.result_assembleUnder`: the outcome of both passes, without cursors and storage.
-/

namespace FemAssembly

/-! ## The count pass -/

/-- The number of visits of `row` in `schedule`. -/
def rowCount (schedule : List Visit) (row : Nat) : Nat := schedule.countP (·.row.index = row)

theorem rowCount_cons (visit : Visit) (schedule : List Visit) (row : Nat) :
    rowCount (visit :: schedule) row =
      rowCount schedule row + if visit.row.index = row then 1 else 0 := by
  simp [rowCount, List.countP_cons]

theorem rowCount_eq_of_perm {schedule schedule' : List Visit} (h : schedule.Perm schedule') :
    rowCount schedule = rowCount schedule' := by
  funext row
  exact h.countP_eq _

private theorem foldlM_countVisit {schedule : List Visit} {counts : Array Nat}
    (h : ∀ visit ∈ schedule, visit.row.index < counts.size) :
    ∃ counts', schedule.foldlM countVisit counts = .ok counts' ∧
      ∀ row, counts'[row]? = counts[row]?.map (· + rowCount schedule row) := by
  induction schedule generalizing counts with
  | nil =>
    refine ⟨counts, rfl, ?_⟩
    intro row
    cases counts[row]? <;> rfl
  | cons visit schedule ih =>
    obtain ⟨hrow, hrest⟩ := List.forall_mem_cons.mp h
    have hsize : (counts.modify visit.row.index (· + 1)).size = counts.size := Array.size_modify
    obtain ⟨counts', hrun, hcounts⟩ := ih (hsize ▸ hrest)
    refine ⟨counts', ?_, ?_⟩
    · rw [List.foldlM_cons, countVisit, if_pos hrow]
      exact hrun
    · intro row
      rw [hcounts, Array.getElem?_modify, rowCount_cons]
      cases counts[row]? with
      | none => by_cases hrow : visit.row.index = row <;> simp [hrow]
      | some old =>
        by_cases hrow : visit.row.index = row
        · simp only [hrow, ↓reduceIte, Option.map_some, Option.some.injEq]
          omega
        · simp [hrow]

/-- The count pass over `schedule` counts the visits of every row. -/
theorem countPass_eq_ok {n : Nat} {schedule : List Visit}
    (h : ∀ visit ∈ schedule, visit.row.index < n) :
    countPass n schedule = .ok ((List.range n).map (rowCount schedule)).toArray := by
  have hrows : ∀ visit ∈ schedule, visit.row.index < (Array.replicate n 0).size := by
    simpa using h
  obtain ⟨counts, hrun, hcounts⟩ := foldlM_countVisit hrows
  rw [countPass, hrun]
  congr 1
  apply Array.ext_getElem?
  intro row
  rw [hcounts]
  by_cases hrow : row < n <;> simp [hrow]

/-! ## Entries -/

/-- An entry of a matrix, as the fill pass writes it. -/
structure Entry (α : Type) where
  row : Nat
  column : Nat
  value : α

variable {α : Type}

/-- The entries of row `row`, in the order in which they are written. -/
def rowEntries (entries : List (Entry α)) (row : Nat) : SparseRow α :=
  (entries.filter (·.row = row)).map fun entry => (entry.column, entry.value)

theorem rowEntries_append (entries entries' : List (Entry α)) (row : Nat) :
    rowEntries (entries ++ entries') row = rowEntries entries row ++ rowEntries entries' row := by
  simp [rowEntries]

theorem rowEntries_cons (entry : Entry α) (entries : List (Entry α)) (row : Nat) :
    rowEntries (entry :: entries) row =
      if entry.row = row then (entry.column, entry.value) :: rowEntries entries row
      else rowEntries entries row := by
  by_cases h : entry.row = row <;> simp [rowEntries, h]

theorem rowEntries_concat (entries : List (Entry α)) (entry : Entry α) (row : Nat) :
    rowEntries (entries ++ [entry]) row = rowEntries entries row ++
      if entry.row = row then [(entry.column, entry.value)] else [] := by
  rw [rowEntries_append, rowEntries_cons]
  rfl

theorem length_rowEntries_concat (entries : List (Entry α)) (entry : Entry α) (row : Nat) :
    (rowEntries (entries ++ [entry]) row).length =
      (rowEntries entries row).length + if entry.row = row then 1 else 0 := by
  rw [rowEntries_concat]
  by_cases h : entry.row = row <;> simp [h]

theorem mem_rowEntries {entries : List (Entry α)} {row column : Nat} {value : α} :
    (column, value) ∈ rowEntries entries row ↔ ⟨row, column, value⟩ ∈ entries := by
  simp only [rowEntries, List.mem_map, List.mem_filter, decide_eq_true_eq, Prod.mk.injEq]
  constructor
  · rintro ⟨entry, ⟨hmem, rfl⟩, rfl, rfl⟩
    exact hmem
  · intro hmem
    exact ⟨_, ⟨hmem, rfl⟩, rfl, rfl⟩

theorem rowEntries_perm {entries entries' : List (Entry α)} (h : entries.Perm entries')
    (row : Nat) :
    (rowEntries entries row).Perm (rowEntries entries' row) :=
  (h.filter _).map _

/-! ## The fill pass -/

/-- The storage `s` holds `entries`: those of every row from its start in `offsets`, and the cursors
are at their ends. -/
structure Filled (offsets : Array Nat) (n : Nat) (entries : List (Entry α)) (s : FillState α) :
    Prop where
  size_cursors : s.cursors.size = n
  size_columns : s.columns.size = offsets.getD n 0
  size_values : s.values.size = offsets.getD n 0
  cursor_eq : ∀ row < n, s.cursors[row]? =
    some (offsets.getD row 0 + (rowEntries entries row).length)
  stored : ∀ row < n, ∀ k < (rowEntries entries row).length,
    (s.columns.zip s.values)[offsets.getD row 0 + k]? = (rowEntries entries row)[k]?

section

variable {offsets : Array Nat} {n : Nat} {count : Nat → Nat} {entries : List (Entry α)}
  {s : FillState α}

theorem filled_start [Zero α] (h : Ranges offsets n count) :
    Filled offsets n [] (FillState.start offsets : FillState α) := by
  have hsize : offsets.size - 1 = n := by
    rw [h.size_eq]
    rfl
  refine ⟨by simp [FillState.start, hsize], by simp [FillState.start, hsize],
    by simp [FillState.start, hsize], ?_, ?_⟩
  · intro row hrow
    rw [FillState.start, Array.getElem?_pop, if_pos (by omega), h.getElem?_eq (Nat.le_of_lt hrow)]
    rfl
  · intro row hrow k hk
    exact absurd hk (Nat.not_lt_zero k)

/-- Writing `column` and `value` to two arrays at one `place`, seen in the array of pairs. -/
theorem getElem?_zip_setIfInBounds {columns : Array Nat} {values : Array α}
    (hsize : columns.size = values.size) {place : Nat} (hplace : place < columns.size)
    (column : Nat) (value : α) (q : Nat) :
    ((columns.setIfInBounds place column).zip (values.setIfInBounds place value))[q]? =
      if q = place then some (column, value) else (columns.zip values)[q]? := by
  simp only [Array.zip, Array.getElem?_zipWith, Array.getElem?_setIfInBounds]
  by_cases h : q = place
  · subst h
    simp [hplace, hsize ▸ hplace]
  · simp [h, Ne.symm h]

/-- The storage `s` with `entry` at the cursor of its row, and the cursor after it. -/
def FillState.put (s : FillState α) (entry : Entry α) : FillState α where
  cursors := s.cursors.setIfInBounds entry.row (s.cursors.getD entry.row 0 + 1)
  columns := s.columns.setIfInBounds (s.cursors.getD entry.row 0) entry.column
  values := s.values.setIfInBounds (s.cursors.getD entry.row 0) entry.value

namespace Filled

theorem cursor_getD (h : Filled offsets n entries s) {row : Nat} (hrow : row < n) :
    s.cursors.getD row 0 = offsets.getD row 0 + (rowEntries entries row).length := by
  rw [Array.getD_eq_getD_getElem?, h.cursor_eq row hrow, Option.getD_some]

/-- A `row` that has a place left claims the one after its entries. -/
theorem inRange_cursor (hranges : Ranges offsets n count) (h : Filled offsets n entries s)
    {row : Nat} (hrow : row < n) (hleft : (rowEntries entries row).length < count row) :
    InRange offsets row (s.cursors.getD row 0) := by
  have hsucc := hranges.succ_eq row hrow
  have hcursor := h.cursor_getD hrow
  exact ⟨by omega, by omega⟩

theorem write_eq_ok (hranges : Ranges offsets n count) (h : Filled offsets n entries s)
    {row : Nat} (hrow : row < n) (hleft : (rowEntries entries row).length < count row)
    (column : Nat) (value : α) :
    s.write offsets row column value = .ok (s.put ⟨row, column, value⟩) := by
  have hplace := h.inRange_cursor hranges hrow hleft
  have hcursor : s.cursors[row]? = some (s.cursors.getD row 0) := by
    rw [h.cursor_eq row hrow, h.cursor_getD hrow]
  unfold FillState.write
  rw [hcursor, hranges.getElem?_eq hrow]
  simp only [Word.orFault_some, bind, Except.bind]
  exact if_neg (Nat.not_le_of_lt hplace.2)

/-- The step of the fill pass for `entry`. No row has more entries than places, also after it. -/
theorem put (hranges : Ranges offsets n count) (h : Filled offsets n entries s) {entry : Entry α}
    (hrow : entry.row < n)
    (hfits : ∀ row < n, (rowEntries (entries ++ [entry]) row).length ≤ count row) :
    Filled offsets n (entries ++ [entry]) (s.put entry) := by
  have hleft := hfits entry.row hrow
  rw [length_rowEntries_concat, if_pos rfl] at hleft
  have hclaimed := h.inRange_cursor hranges hrow hleft
  have hcursor := h.cursor_getD hrow
  refine ⟨?_, ?_, ?_, ?_, ?_⟩
  · simpa [FillState.put] using h.size_cursors
  · simpa [FillState.put] using h.size_columns
  · simpa [FillState.put] using h.size_values
  · intro row hlt
    rw [length_rowEntries_concat, FillState.put, Array.getElem?_setIfInBounds, h.cursor_eq row hlt]
    by_cases heq : entry.row = row
    · subst heq
      simp [h.size_cursors, hrow, hcursor, Nat.add_assoc]
    · simp [heq]
  · intro row hlt k hk
    have hfit := hfits row hlt
    have hsucc := hranges.succ_eq row hlt
    rw [FillState.put, getElem?_zip_setIfInBounds (h.size_columns.trans h.size_values.symm)
      (h.size_columns.symm ▸ hranges.lt_of_mem hrow hclaimed)]
    by_cases hq : offsets.getD row 0 + k = s.cursors.getD entry.row 0
    · -- only the row itself reaches the claimed place
      have heq : entry.row = row := hranges.eq_of_mem hrow hlt hclaimed ⟨by omega, by omega⟩
      subst heq
      have hk : k = (rowEntries entries entry.row).length := by omega
      rw [if_pos hq, rowEntries_concat, if_pos rfl, hk, List.getElem?_concat_length]
    · have hold : k < (rowEntries entries row).length := by
        rw [length_rowEntries_concat] at hk
        by_cases heq : entry.row = row
        · subst heq
          rw [if_pos rfl] at hk
          omega
        · rwa [if_neg heq] at hk
      rw [if_neg hq, h.stored row hlt k hold, rowEntries_concat, List.getElem?_append_left hold]

theorem foldl_put (hranges : Ranges offsets n count) (h : Filled offsets n entries s)
    {new : List (Entry α)} (hrows : ∀ entry ∈ new, entry.row < n)
    (hfits : ∀ row < n, (rowEntries (entries ++ new) row).length ≤ count row) :
    Filled offsets n (entries ++ new) (new.foldl FillState.put s) := by
  induction new generalizing entries s with
  | nil => simpa using h
  | cons entry new ih =>
    obtain ⟨hrow, hrest⟩ := List.forall_mem_cons.mp hrows
    rw [List.append_cons] at hfits ⊢
    refine ih (h.put hranges hrow ?_) hrest hfits
    intro row hlt
    have := hfits row hlt
    rw [rowEntries_append, List.length_append] at this
    omega

/-! ### Full rows -/

theorem checkFilled_eq_ok (hranges : Ranges offsets n count) (h : Filled offsets n entries s)
    (hfull : ∀ row < n, (rowEntries entries row).length = count row) :
    s.checkFilled offsets = .ok () := by
  unfold FillState.checkFilled
  split
  · rename_i cursor row hfind
    have hget := Array.mem_zipIdx_iff_getElem?.mp (Array.mem_of_find?_eq_some hfind)
    have hrow : row < n := by
      obtain ⟨hlt, -⟩ := Array.getElem?_eq_some_iff.mp hget
      exact h.size_cursors ▸ hlt
    have hcursor : cursor = offsets.getD (row + 1) 0 := by
      rw [h.cursor_eq row hrow, hfull row hrow, ← hranges.succ_eq row hrow] at hget
      exact (Option.some.inj hget).symm
    have hne := Array.find?_some hfind
    simp [hcursor] at hne
  · rfl

/-- The places of a full `row` hold its entries. -/
theorem extract_eq (hranges : Ranges offsets n count) (h : Filled offsets n entries s) {row : Nat}
    (hrow : row < n) (hfull : (rowEntries entries row).length = count row) :
    ((s.columns.zip s.values).extract (offsets.getD row 0) (offsets.getD (row + 1) 0)).toList =
      rowEntries entries row := by
  have hsucc := hranges.succ_eq row hrow
  have hend := hranges.le_of_le (show row + 1 ≤ n from hrow) (Nat.le_refl n)
  have hsize : (s.columns.zip s.values).size = offsets.getD n 0 := by
    rw [Array.size_zip, h.size_columns, h.size_values, Nat.min_self]
  apply List.ext_getElem?
  intro k
  rw [Array.getElem?_toList, Array.getElem?_extract, hsize]
  by_cases hk : k < count row
  · rw [if_pos (by omega)]
    exact h.stored row hrow k (hfull ▸ hk)
  · rw [if_neg (by omega), List.getElem?_eq_none (by omega)]

end Filled

/-- The rows of a matrix with these `entries`. -/
def rowsOf (n : Nat) (entries : List (Entry α)) : Array (SparseRow α) :=
  ((List.range n).map (rowEntries entries)).toArray

@[simp] theorem size_rowsOf (n : Nat) (entries : List (Entry α)) :
    (rowsOf n entries).size = n := by
  simp [rowsOf]

@[simp] theorem getElem_rowsOf {n : Nat} {entries : List (Entry α)} {row : Nat}
    (h : row < (rowsOf n entries).size) : (rowsOf n entries)[row] = rowEntries entries row := by
  simp [rowsOf]

/-- The matrix of storage `s` whose rows are full. -/
theorem Filled.matrixOfStorage_eq (hranges : Ranges offsets n count)
    (h : Filled offsets n entries s)
    (hfull : ∀ row < n, (rowEntries entries row).length = count row)
    (ncols : Nat) :
    matrixOfStorage ncols offsets s = SparseMatrix.ofUnsortedRows ncols (rowsOf n entries) := by
  have hsize : offsets.size - 1 = n := by
    rw [hranges.size_eq]
    rfl
  have hrows : (Array.ofFn (n := offsets.size - 1) fun i =>
      ((s.columns.zip s.values).extract (offsets.getD i 0) (offsets.getD (i + 1) 0)).toList) =
      rowsOf n entries := by
    apply Array.ext
    · simp [hsize]
    · intro row h1 h2
      have hrow : row < n := by simpa using h2
      rw [Array.getElem_ofFn, getElem_rowsOf]
      exact h.extract_eq hranges hrow (hfull row hrow)
  exact congrArg (SparseMatrix.ofUnsortedRows ncols) hrows

end

/-! ## Runs -/

section

variable {offsets : Array Nat} {n : Nat} {count : Nat → Nat} {entries new : List (Entry α)}
  {s : FillState α} {visit : Visit} {schedule : List Visit}

/-- The rows with `entries` have as many places left as the visits of `schedule` ask for. -/
def Room (n : Nat) (count : Nat → Nat) (entries : List (Entry α)) (schedule : List Visit) : Prop :=
  ∀ row < n, (rowEntries entries row).length + rowCount schedule row ≤ count row

theorem room_nil (n : Nat) (schedule : List Visit) :
    Room n (rowCount schedule) ([] : List (Entry α)) schedule := by
  intro row _
  simp [rowEntries]

namespace Room

theorem tail (h : Room n count entries (visit :: schedule)) (column : Nat) (value : α) :
    Room n count (entries ++ [⟨visit.row.index, column, value⟩]) schedule := by
  intro row hrow
  have := h row hrow
  rw [rowCount_cons] at this
  rw [length_rowEntries_concat]
  show _ + (if visit.row.index = row then 1 else 0) + _ ≤ _
  omega

theorem fits (h : Room n count entries schedule) {row : Nat} (hrow : row < n) :
    (rowEntries entries row).length ≤ count row :=
  Nat.le_trans (Nat.le_add_right _ _) (h row hrow)

theorem left (h : Room n count entries (visit :: schedule)) (hrow : visit.row.index < n) :
    (rowEntries entries visit.row.index).length < count visit.row.index := by
  have := h _ hrow
  rw [rowCount_cons, if_pos rfl] at this
  omega

end Room

variable {r : Restriction} {t : Template} {v : ElementValues α}
variable [Zero α] [One α] [Neg α] [Add α] [Mul α]

/-- The entry of `visit`. -/
def entryOf (r : Restriction) (t : Template) (v : ElementValues α) (visit : Visit) :
    Except Error (Entry α) :=
  (entryValue r t v visit).map fun value => ⟨visit.row.index, visit.column.index, value⟩

theorem entryOf_eq_ok_iff {entry : Entry α} :
    entryOf r t v visit = .ok entry ↔ entry.row = visit.row.index ∧
      entry.column = visit.column.index ∧ entryValue r t v visit = .ok entry.value := by
  obtain ⟨row, column, value⟩ := entry
  unfold entryOf
  cases entryValue r t v visit with
  | error error => simp [Except.map]
  | ok value' =>
    simp only [Except.map, Except.ok.injEq, Entry.mk.injEq]
    constructor
    · rintro ⟨rfl, rfl, rfl⟩
      exact ⟨rfl, rfl, rfl⟩
    · rintro ⟨rfl, rfl, rfl⟩
      exact ⟨rfl, rfl, rfl⟩

/-- The columns of the entries of `row` are those of its visits. -/
theorem columns_rowEntries_of_mapM (h : schedule.mapM (entryOf r t v) = .ok entries) (row : Nat) :
    SparseRow.columns (rowEntries entries row) =
      (schedule.filter (·.row.index = row)).map (·.column.index) := by
  induction schedule generalizing entries with
  | nil =>
    cases h
    rfl
  | cons visit schedule ih =>
    obtain ⟨entry, rest, hentry, hrest, rfl⟩ := mapM_cons_eq_ok_iff.mp h
    obtain ⟨hrow, hcolumn, -⟩ := entryOf_eq_ok_iff.mp hentry
    rw [rowEntries_cons, List.filter_cons, ← hrow]
    by_cases heq : entry.row = row
    · simpa [heq, SparseRow.columns, hcolumn] using ih hrest
    · simpa [heq] using ih hrest

/-- The row `row` has as many entries as visits. -/
theorem length_rowEntries_of_mapM (h : schedule.mapM (entryOf r t v) = .ok entries) (row : Nat) :
    (rowEntries entries row).length = rowCount schedule row := by
  have hlength := congrArg List.length (columns_rowEntries_of_mapM h row)
  rw [SparseRow.columns, List.length_map, List.length_map] at hlength
  rw [hlength, rowCount, List.countP_eq_length_filter]

theorem row_lt_of_mapM (h : schedule.mapM (entryOf r t v) = .ok entries)
    (hrows : ∀ visit ∈ schedule, visit.row.index < n) : ∀ entry ∈ entries, entry.row < n := by
  intro entry hmem
  obtain ⟨visit, hvisit, hentry⟩ := (mem_of_mapM_eq_ok h).mp hmem
  rw [(entryOf_eq_ok_iff.mp hentry).1]
  exact hrows visit hvisit

namespace Filled

/-- A `visit` with a value puts its entry at the cursor, if its row has a place left. -/
theorem fillVisit_eq_ok (hranges : Ranges offsets n count) (h : Filled offsets n entries s)
    (hrow : visit.row.index < n)
    (hleft : (rowEntries entries visit.row.index).length < count visit.row.index) {value : α}
    (hvalue : entryValue r t v visit = .ok value) :
    fillVisit r t v offsets s visit = .ok (s.put ⟨visit.row.index, visit.column.index, value⟩) := by
  rw [fillVisit, hvalue]
  exact h.write_eq_ok hranges hrow hleft _ _

/-- While there is room, a run of the fill pass over `schedule` forms the entries of its visits and
puts them at the cursors. It fails only where an entry has no value. -/
theorem foldlM_fillVisit (hranges : Ranges offsets n count)
    (hrows : ∀ visit ∈ schedule, visit.row.index < n) (h : Filled offsets n entries s)
    (hroom : Room n count entries schedule) :
    schedule.foldlM (fillVisit r t v offsets) s =
      (schedule.mapM (entryOf r t v)).map (·.foldl FillState.put s) := by
  induction schedule generalizing entries s with
  | nil => rfl
  | cons visit schedule ih =>
    obtain ⟨hrow, hrest⟩ := List.forall_mem_cons.mp hrows
    rw [List.foldlM_cons]
    cases hvalue : entryValue r t v visit with
    | error error =>
      have hentry : entryOf r t v visit = .error error := by
        rw [entryOf, hvalue]
        rfl
      rw [fillVisit, hvalue, mapM_cons_of_error hentry]
      rfl
    | ok value =>
      have hentry : entryOf r t v visit = .ok ⟨visit.row.index, visit.column.index, value⟩ :=
        entryOf_eq_ok_iff.mpr ⟨rfl, rfl, hvalue⟩
      have htail := hroom.tail visit.column.index value
      have hput := h.put hranges hrow fun _ => htail.fits
      rw [h.fillVisit_eq_ok hranges hrow (hroom.left hrow) hvalue, mapM_cons_of_ok hentry]
      refine (ih hrest hput htail).trans ?_
      cases schedule.mapM (entryOf r t v) <;> rfl

/-- The storage after the visits of a whole `schedule` holds their `entries`. -/
theorem foldl_put_of_mapM (hranges : Ranges offsets n (rowCount schedule))
    (hrows : ∀ visit ∈ schedule, visit.row.index < n) (h : Filled offsets n [] s)
    (hentries : schedule.mapM (entryOf r t v) = .ok entries) :
    Filled offsets n entries (entries.foldl FillState.put s) := by
  apply h.foldl_put hranges (row_lt_of_mapM hentries hrows)
  intro row _
  exact Nat.le_of_eq (length_rowEntries_of_mapM hentries row)

end Filled

/-- The fill pass over `schedule` fails only where an entry has no value. -/
theorem fillPass_eq (hranges : Ranges offsets n (rowCount schedule))
    (hrows : ∀ visit ∈ schedule, visit.row.index < n) :
    fillPass r t v offsets schedule =
      (schedule.mapM (entryOf r t v)).map (·.foldl FillState.put (FillState.start offsets)) := by
  have hstart : Filled offsets n [] (FillState.start offsets : FillState α) := filled_start hranges
  unfold fillPass
  rw [hstart.foldlM_fillVisit hranges hrows (room_nil n schedule)]
  cases hentries : schedule.mapM (entryOf r t v) with
  | error error => rfl
  | ok entries =>
    have hfilled := hstart.foldl_put_of_mapM hranges hrows hentries
    have hchecked := hfilled.checkFilled_eq_ok hranges fun row _ =>
      length_rowEntries_of_mapM hentries row
    simp only [Except.map, bind, Except.bind, hchecked]
    rfl

/-- The outcome of both passes, under `counting` and `filling`: the matrix of all entries. -/
theorem Assembler.result_assembleUnder (a : Assembler α) {counting filling : List Visit}
    (hperm : counting.Perm filling) (hrows : ∀ visit ∈ filling, visit.row.index < a.numDofs) :
    (a.assembleUnder counting filling).result =
      (filling.mapM (entryOf a.restriction a.template a.values)).bind fun entries =>
        SparseMatrix.ofUnsortedRows a.numDofs (rowsOf a.numDofs entries) := by
  have hranges := ranges_offsets a.numDofs (rowCount filling)
  have hcounting : ∀ visit ∈ counting, visit.row.index < a.numDofs := by
    intro visit hmem
    exact hrows visit (hperm.mem_iff.mp hmem)
  have hfill := fillPass_eq (r := a.restriction) (t := a.template) (v := a.values) hranges hrows
  unfold assembleUnder
  simp only [Noted.result_bind, Noted.result_liftM, Noted.result_note, Noted.result_pure,
    countPass_eq_ok hcounting, rowCount_eq_of_perm hperm]
  simp only [bind, Except.bind, hfill]
  cases hentries : filling.mapM (entryOf a.restriction a.template a.values) with
  | error error => rfl
  | ok entries =>
    have hfilled := (filled_start hranges).foldl_put_of_mapM hranges hrows hentries
    have hmatrix := hfilled.matrixOfStorage_eq hranges
      (fun row _ => length_rowEntries_of_mapM hentries row) a.numDofs
    simp only [Except.map, hmatrix]
    cases SparseMatrix.ofUnsortedRows a.numDofs (rowsOf a.numDofs entries) <;> rfl

end

end FemAssembly
