import FemAssembly.Proofs.Assembly.Correctness
import FemAssembly.Proofs.Sequence.Interleaving

/-!
# Schedules

The visits of the tasks may be made in any order, and in different orders by the two passes. A step
is one atomic increment of a counter, or one atomic claim of a place together with the entry for it.

* `claims`: which entries a run of the fill pass puts where.
* `claimsFrom`: the same, from the entries alone. `mem_places_claimsFrom` and
  `nodup_places_claimsFrom` say which places are claimed, and that none is claimed twice.
* `ClaimsAll`: every place is claimed once, and the claimed entries may be stored in any order, at
  any later time. `exists_claimsAll`: so it is after a run in which no visit fails.
* `Options.Admits`: the schedules that an execution may take.
* `Assembler.schedule_independent`: all schedules give the same counts, claim the same places and
  have the same outcome.
-/

namespace FemAssembly

variable {α : Type}

/-! ## Claims -/

/-- An entry and the place that was claimed for it. -/
structure Claim (α : Type) where
  entry : Entry α
  place : Nat

/-- The claims for the entries of a list in turn, in rows that hold `entries` already. -/
def claimsFrom (offsets : Array Nat) (entries : List (Entry α)) : List (Entry α) → List (Claim α)
  | [] => []
  | entry :: new =>
    ⟨entry, offsets.getD entry.row 0 + (rowEntries entries entry.row).length⟩ ::
      claimsFrom offsets (entries ++ [entry]) new

theorem map_entry_claimsFrom (offsets : Array Nat) (entries new : List (Entry α)) :
    (claimsFrom offsets entries new).map Claim.entry = new := by
  induction new generalizing entries with
  | nil => rfl
  | cons entry new ih => rw [claimsFrom, List.map_cons, ih]

/-- The rows of `entries` do not shrink when the entries `new` come after them. -/
theorem length_rowEntries_le_append (entries new : List (Entry α)) (row : Nat) :
    (rowEntries entries row).length ≤ (rowEntries (entries ++ new) row).length := by
  rw [rowEntries_append, List.length_append]
  exact Nat.le_add_right _ _

section

variable {offsets : Array Nat} {n : Nat} {count : Nat → Nat} {entries new : List (Entry α)}

/-- The places claimed for the entries `new` are those between the old and the new ends of the rows.
-/
theorem mem_places_claimsFrom (hrows : ∀ entry ∈ new, entry.row < n) {place : Nat} :
    place ∈ (claimsFrom offsets entries new).map Claim.place ↔
      ∃ row < n, offsets.getD row 0 + (rowEntries entries row).length ≤ place ∧
        place < offsets.getD row 0 + (rowEntries (entries ++ new) row).length := by
  induction new generalizing entries with
  | nil =>
    rw [List.append_nil]
    constructor
    · intro hmem
      cases hmem
    · rintro ⟨row, -, hge, hlt⟩
      omega
  | cons entry new ih =>
    obtain ⟨hentry, hrest⟩ := List.forall_mem_cons.mp hrows
    have hlength := length_rowEntries_concat entries entry
    rw [claimsFrom, List.map_cons, List.mem_cons, ih hrest, List.append_cons entries entry new]
    constructor
    · rintro (rfl | ⟨row, hrow, hge, hlt⟩)
      · have hle := length_rowEntries_le_append (entries ++ [entry]) new entry.row
        rw [hlength, if_pos rfl] at hle
        exact ⟨entry.row, hentry, Nat.le_refl _, Nat.add_lt_add_left hle _⟩
      · rw [hlength] at hge
        exact ⟨row, hrow, by omega, hlt⟩
    · rintro ⟨row, hrow, hge, hlt⟩
      by_cases hfirst : entry.row = row ∧
          place = offsets.getD row 0 + (rowEntries entries row).length
      · obtain ⟨rfl, hplace⟩ := hfirst
        exact .inl hplace
      · refine .inr ⟨row, hrow, ?_, hlt⟩
        rw [hlength]
        by_cases heq : entry.row = row
        · have hother : place ≠ offsets.getD row 0 + (rowEntries entries row).length := by
            intro hplace
            exact hfirst ⟨heq, hplace⟩
          rw [if_pos heq]
          omega
        · rw [if_neg heq]
          exact hge

/-- No place is claimed twice for the entries `new`, when every row has as many places as `count`
says and they suffice. -/
theorem nodup_places_claimsFrom (hranges : Ranges offsets n count)
    (hrows : ∀ entry ∈ new, entry.row < n)
    (hfits : ∀ row < n, (rowEntries (entries ++ new) row).length ≤ count row) :
    ((claimsFrom offsets entries new).map Claim.place).Nodup := by
  induction new generalizing entries with
  | nil => exact List.nodup_nil
  | cons entry new ih =>
    obtain ⟨hentry, hrest⟩ := List.forall_mem_cons.mp hrows
    have hlength := length_rowEntries_concat entries entry
    rw [List.append_cons entries entry new] at hfits
    rw [claimsFrom, List.map_cons, List.nodup_cons, mem_places_claimsFrom hrest]
    refine ⟨?_, ih hrest hfits⟩
    -- a later claim of the same place would be in the same row, after this one
    rintro ⟨row, hrow, hge, hlt⟩
    dsimp only at hge hlt
    have hle := length_rowEntries_le_append (entries ++ [entry]) new entry.row
    have hown := hfits entry.row hentry
    have hother := hfits row hrow
    have hsucc := hranges.succ_eq row hrow
    have hsucc' := hranges.succ_eq entry.row hentry
    rw [hlength] at hge hle
    rw [if_pos rfl] at hle
    have hmine : InRange offsets entry.row
        (offsets.getD entry.row 0 + (rowEntries entries entry.row).length) :=
      ⟨Nat.le_add_right _ _, by omega⟩
    have heq : entry.row = row := hranges.eq_of_mem hentry hrow hmine ⟨by omega, by omega⟩
    rw [if_pos heq, heq] at hge
    omega

/-- The place of a claim is in the range of its row, and holds the entry when `s` holds `entries`
and `new`. -/
theorem claimed_of_mem_claimsFrom {s : FillState α} (hranges : Ranges offsets n count)
    (hrows : ∀ entry ∈ new, entry.row < n)
    (hfits : ∀ row < n, (rowEntries (entries ++ new) row).length ≤ count row)
    (hfilled : Filled offsets n (entries ++ new) s) {claim : Claim α}
    (hmem : claim ∈ claimsFrom offsets entries new) :
    InRange offsets claim.entry.row claim.place ∧
      (s.columns.zip s.values)[claim.place]? = some (claim.entry.column, claim.entry.value) := by
  induction new generalizing entries with
  | nil => cases hmem
  | cons entry new ih =>
    obtain ⟨hentry, hrest⟩ := List.forall_mem_cons.mp hrows
    rcases List.mem_cons.mp hmem with rfl | hmem
    · have hsplit : rowEntries (entries ++ entry :: new) entry.row =
          rowEntries entries entry.row ++
            (entry.column, entry.value) :: rowEntries new entry.row := by
        rw [rowEntries_append, rowEntries_cons, if_pos rfl]
      have hlt : (rowEntries entries entry.row).length <
          (rowEntries (entries ++ entry :: new) entry.row).length := by
        rw [hsplit, List.length_append, List.length_cons]
        omega
      have hfit := hfits entry.row hentry
      have hsucc := hranges.succ_eq entry.row hentry
      refine ⟨⟨Nat.le_add_right _ _, ?_⟩, ?_⟩
      · show offsets.getD entry.row 0 + (rowEntries entries entry.row).length <
          offsets.getD (entry.row + 1) 0
        omega
      · rw [hfilled.stored entry.row hentry _ hlt, hsplit]
        simp
    · rw [List.append_cons] at hfits hfilled
      exact ih hrest hfits hfilled hmem

end

/-! ## Stores -/

/-- Store the entry of `claim` at its place in `s`. The cursors stay. -/
def FillState.store (s : FillState α) (claim : Claim α) : FillState α where
  cursors := s.cursors
  columns := s.columns.setIfInBounds claim.place claim.entry.column
  values := s.values.setIfInBounds claim.place claim.entry.value

section

variable {s : FillState α} {claim : Claim α} {stores : List (Claim α)}

@[simp] theorem size_columns_store : (s.store claim).columns.size = s.columns.size :=
  Array.size_setIfInBounds

@[simp] theorem size_values_store : (s.store claim).values.size = s.values.size :=
  Array.size_setIfInBounds

@[simp] theorem size_columns_foldl_store :
    (stores.foldl FillState.store s).columns.size = s.columns.size := by
  induction stores generalizing s with
  | nil => rfl
  | cons claim stores ih => rw [List.foldl_cons, ih, size_columns_store]

@[simp] theorem size_values_foldl_store :
    (stores.foldl FillState.store s).values.size = s.values.size := by
  induction stores generalizing s with
  | nil => rfl
  | cons claim stores ih => rw [List.foldl_cons, ih, size_values_store]

theorem getElem?_zip_store (hsize : s.columns.size = s.values.size)
    (hplace : claim.place < s.columns.size) (q : Nat) :
    ((s.store claim).columns.zip (s.store claim).values)[q]? =
      if q = claim.place then some (claim.entry.column, claim.entry.value)
      else (s.columns.zip s.values)[q]? :=
  getElem?_zip_setIfInBounds hsize hplace _ _ q

/-- A `place` that no claim of `stores` names stays as it is. -/
theorem getElem?_foldl_store_of_not_mem (hsize : s.columns.size = s.values.size)
    (hplaces : ∀ claim ∈ stores, claim.place < s.columns.size) {place : Nat}
    (hplace : place ∉ stores.map Claim.place) :
    ((stores.foldl FillState.store s).columns.zip (stores.foldl FillState.store s).values)[place]? =
      (s.columns.zip s.values)[place]? := by
  induction stores generalizing s with
  | nil => rfl
  | cons claim stores ih =>
    obtain ⟨hfirst, hrest⟩ := List.forall_mem_cons.mp hplaces
    rw [List.map_cons, List.mem_cons, not_or] at hplace
    have hsize' : (s.store claim).columns.size = (s.store claim).values.size := by simpa using hsize
    rw [List.foldl_cons, ih hsize' (by simpa using hrest) hplace.2,
      getElem?_zip_store hsize hfirst, if_neg hplace.1]

/-- Where no two claims of `stores` have the same place, the place of `claim` holds its entry. -/
theorem getElem?_foldl_store_of_mem (hsize : s.columns.size = s.values.size)
    (hplaces : ∀ claim ∈ stores, claim.place < s.columns.size)
    (hnodup : (stores.map Claim.place).Nodup) (hmem : claim ∈ stores) :
    ((stores.foldl FillState.store s).columns.zip
      (stores.foldl FillState.store s).values)[claim.place]? =
      some (claim.entry.column, claim.entry.value) := by
  induction stores generalizing s with
  | nil => cases hmem
  | cons first stores ih =>
    obtain ⟨hfirst, hrest⟩ := List.forall_mem_cons.mp hplaces
    obtain ⟨hnew, hnodup⟩ := List.nodup_cons.mp hnodup
    have hsize' : (s.store first).columns.size = (s.store first).values.size := by simpa using hsize
    have hrest' : ∀ claim ∈ stores, claim.place < (s.store first).columns.size := by
      simpa using hrest
    rw [List.foldl_cons]
    rcases List.mem_cons.mp hmem with rfl | hmem
    · rw [getElem?_foldl_store_of_not_mem hsize' hrest' hnew, getElem?_zip_store hsize hfirst,
        if_pos rfl]
    · exact ih hsize' hrest' hnodup hmem

end

/-! ## Runs of the fill pass -/

section

variable {offsets : Array Nat} {n : Nat} {s : FillState α} [Zero α]

/-- The list `claimed` has the claims of a whole run: every place is claimed once, in the range of
the row that claims it. The storage `s` holds the claimed entries, in whichever order they are
stored. -/
structure ClaimsAll (offsets : Array Nat) (n : Nat) (claimed : List (Claim α)) (s : FillState α) :
    Prop where
  perm_range : (claimed.map Claim.place).Perm (List.range (offsets.getD n 0))
  inRange : ∀ claim ∈ claimed, InRange offsets claim.entry.row claim.place
  stored : ∀ claim ∈ claimed,
    (s.columns.zip s.values)[claim.place]? = some (claim.entry.column, claim.entry.value)
  stores : ∀ stores : List (Claim α), stores.Perm claimed →
    (stores.foldl FillState.store (FillState.start offsets)).columns.zip
      (stores.foldl FillState.store (FillState.start offsets)).values = s.columns.zip s.values

/-- Storage that is given all places of the ranges by `stores`, in any order, is the `s` whose
entries they are. -/
private theorem zip_foldl_store_eq
    (hstart : Filled offsets n [] (FillState.start offsets : FillState α))
    (hsizes : s.columns.size = offsets.getD n 0 ∧ s.values.size = offsets.getD n 0)
    {stores : List (Claim α)}
    (hperm : (stores.map Claim.place).Perm (List.range (offsets.getD n 0)))
    (hstored : ∀ claim ∈ stores,
      (s.columns.zip s.values)[claim.place]? = some (claim.entry.column, claim.entry.value)) :
    (stores.foldl FillState.store (FillState.start offsets)).columns.zip
      (stores.foldl FillState.store (FillState.start offsets)).values = s.columns.zip s.values := by
  have hsize := hstart.size_columns.trans hstart.size_values.symm
  have hplaces : ∀ claim ∈ stores,
      claim.place < (FillState.start offsets : FillState α).columns.size := by
    intro claim hmem
    rw [hstart.size_columns]
    exact List.mem_range.mp (hperm.mem_iff.mp (List.mem_map_of_mem hmem))
  apply Array.ext_getElem?
  intro place
  by_cases hplace : place < offsets.getD n 0
  · obtain ⟨claim, hmem, rfl⟩ : ∃ claim ∈ stores, claim.place = place :=
      List.mem_map.mp (hperm.mem_iff.mpr (List.mem_range.mpr hplace))
    rw [getElem?_foldl_store_of_mem hsize hplaces (hperm.nodup_iff.mpr List.nodup_range) hmem,
      hstored claim hmem]
  · rw [Array.getElem?_eq_none, Array.getElem?_eq_none]
    · rw [Array.size_zip, hsizes.1, hsizes.2]
      omega
    · rw [Array.size_zip, size_columns_foldl_store, size_values_foldl_store, hstart.size_columns,
        hstart.size_values]
      omega

variable {r : Restriction} {t : Template} {v : ElementValues α} {count : Nat → Nat}
  {entries new : List (Entry α)} {schedule : List Visit}
variable [One α] [Neg α] [Add α] [Mul α]

/-- The claims of a run of the fill pass from some storage, in the order of its visits. -/
def claims (r : Restriction) (t : Template) (v : ElementValues α) (offsets : Array Nat) :
    FillState α → List Visit → Except Error (List (Claim α))
  | _, [] => .ok []
  | s, visit :: schedule => do
    let entry ← entryOf r t v visit
    let next ← fillVisit r t v offsets s visit
    let rest ← claims r t v offsets next schedule
    pure (⟨entry, s.cursors.getD visit.row.index 0⟩ :: rest)

theorem claims_eq_ok (hranges : Ranges offsets n count)
    (hrows : ∀ visit ∈ schedule, visit.row.index < n) (h : Filled offsets n entries s)
    (hroom : Room n count entries schedule)
    (hnew : schedule.mapM (entryOf r t v) = .ok new) :
    claims r t v offsets s schedule = .ok (claimsFrom offsets entries new) := by
  induction schedule generalizing entries s new with
  | nil =>
    cases hnew
    rfl
  | cons visit schedule ih =>
    obtain ⟨hrow, hrest⟩ := List.forall_mem_cons.mp hrows
    obtain ⟨⟨row, column, value⟩, rest, hentry, hmapM, rfl⟩ := mapM_cons_eq_ok_iff.mp hnew
    obtain ⟨rfl, rfl, hvalue⟩ := entryOf_eq_ok_iff.mp hentry
    have hstep := h.fillVisit_eq_ok hranges hrow (hroom.left hrow) hvalue
    have htail := hroom.tail visit.column.index value
    have hput := h.put hranges hrow fun _ => htail.fits
    have hclaims := ih hrest hput htail hmapM
    rw [claims, hentry, hstep]
    simp only [bind, Except.bind, hclaims, h.cursor_getD hrow]
    rfl

/-- The claims of a run over a whole `schedule`, for which the places of the rows were counted. -/
theorem claimsAll_of_mapM (hranges : Ranges offsets n (rowCount schedule))
    (hrows : ∀ visit ∈ schedule, visit.row.index < n)
    (hnew : schedule.mapM (entryOf r t v) = .ok new) :
    ClaimsAll offsets n (claimsFrom offsets [] new)
      (new.foldl FillState.put (FillState.start offsets)) := by
  have hstart : Filled offsets n [] (FillState.start offsets : FillState α) := filled_start hranges
  have hfilled := hstart.foldl_put_of_mapM hranges hrows hnew
  have hlength := length_rowEntries_of_mapM hnew
  have hnewRows := row_lt_of_mapM hnew hrows
  have hfits : ∀ row < n, (rowEntries ([] ++ new) row).length ≤ rowCount schedule row := by
    intro row _
    exact Nat.le_of_eq (hlength row)
  have hperm : ((claimsFrom offsets [] new).map Claim.place).Perm
      (List.range (offsets.getD n 0)) := by
    have hnodup := nodup_places_claimsFrom hranges hnewRows hfits
    refine (List.perm_ext_iff_of_nodup hnodup List.nodup_range).mpr ?_
    intro place
    rw [mem_places_claimsFrom hnewRows, List.mem_range]
    constructor
    · rintro ⟨row, hrow, hge, hlt⟩
      rw [List.nil_append, hlength, ← hranges.succ_eq row hrow] at hlt
      exact hranges.lt_of_mem hrow ⟨hge, hlt⟩
    · intro hplace
      obtain ⟨row, hrow, hge, hlt⟩ := hranges.exists_mem hplace
      rw [hranges.succ_eq row hrow, ← hlength] at hlt
      exact ⟨row, hrow, hge, hlt⟩
  have hclaimed : ∀ claim ∈ claimsFrom offsets [] new, _ := fun _ hmem =>
    claimed_of_mem_claimsFrom hranges hnewRows hfits hfilled hmem
  refine ⟨hperm, fun claim hmem => (hclaimed claim hmem).1,
    fun claim hmem => (hclaimed claim hmem).2, ?_⟩
  intro stores hstores
  apply zip_foldl_store_eq hstart ⟨hfilled.size_columns, hfilled.size_values⟩
    ((hstores.map _).trans hperm)
  intro claim hmem
  exact (hclaimed claim (hstores.mem_iff.mp hmem)).2

/-- A run of the fill pass over `schedule` in which no visit fails claims all places of its result
`s`. -/
theorem exists_claimsAll (hranges : Ranges offsets n (rowCount schedule))
    (hrows : ∀ visit ∈ schedule, visit.row.index < n)
    (h : schedule.foldlM (fillVisit r t v offsets) (FillState.start offsets) = .ok s) :
    ∃ claimed, claims r t v offsets (FillState.start offsets) schedule = .ok claimed ∧
      claimed.length = schedule.length ∧ ClaimsAll offsets n claimed s := by
  have hstart : Filled offsets n [] (FillState.start offsets : FillState α) := filled_start hranges
  have hroom := room_nil (α := α) n schedule
  rw [hstart.foldlM_fillVisit hranges hrows hroom] at h
  cases hnew : schedule.mapM (entryOf r t v) with
  | error error =>
    rw [hnew] at h
    cases h
  | ok new =>
    rw [hnew] at h
    cases h
    refine ⟨_, claims_eq_ok hranges hrows hstart hroom hnew, ?_,
      claimsAll_of_mapM hranges hrows hnew⟩
    have hentries := congrArg List.length (map_entry_claimsFrom offsets [] new)
    have hvisits := congrArg List.length (mapM_eq_ok_iff.mp hnew)
    rw [List.length_map] at hentries
    rw [List.length_map, List.length_map] at hvisits
    exact hentries.trans hvisits.symm

end

/-! ## Executions -/

/-- The schedules of `tasks` that an execution may take. Workers are given neighbouring tasks, at
least as many as `options` says, unless there are fewer in all. -/
def Options.Admits {β : Type} (options : Options) (tasks : List (List β)) (schedule : List β) :
    Prop :=
  match options.execution with
  | .serial => schedule = tasks.flatten
  | .parallel => ∃ shares : List (List (List β)), shares.flatten = tasks ∧
      (∀ share ∈ shares, min (max options.minShare 1) tasks.length ≤ share.length) ∧
      Interleaving (shares.map List.flatten) schedule

theorem Options.Admits.perm {β : Type} {options : Options} {tasks : List (List β)}
    {schedule : List β} (h : options.Admits tasks schedule) : schedule.Perm tasks.flatten := by
  unfold Admits at h
  split at h
  · rw [h]
  · obtain ⟨shares, rfl, -, hmixed⟩ := h
    rw [List.flatten_flatten]
    exact hmixed.perm

/-- Every execution may take `tasks` one after the other. -/
theorem Options.admits_flatten {β : Type} (options : Options) (tasks : List (List β)) :
    options.Admits tasks tasks.flatten := by
  unfold Admits
  split
  · rfl
  · refine ⟨[tasks], List.flatten_singleton, ?_, ?_⟩
    · intro share hmem
      rw [List.mem_singleton.mp hmem]
      exact Nat.min_le_right _ _
    · have h := Interleaving.flatten [tasks.flatten]
      rwa [List.flatten_singleton] at h

namespace Assembler

variable {a : Assembler α}

theorem row_lt_of_perm_visits {schedule : List Visit} (h : schedule.Perm a.visits) :
    ∀ visit ∈ schedule, visit.row.index < a.numDofs :=
  fun _ hmem => row_lt_of_mem_visits (h.mem_iff.mp hmem)

variable [Zero α] [One α] [Neg α] [Add α] [Mul α]

/-- A matrix `A` that the visits make in the order of `schedule` is made in the order of
`schedule'`. -/
private theorem bind_mapM_of_perm {schedule schedule' : List Visit}
    (hperm : schedule.Perm schedule') {A : SparseMatrix α}
    (h : ((schedule.mapM (entryOf a.restriction a.template a.values)).bind fun entries =>
      SparseMatrix.ofUnsortedRows a.numDofs (rowsOf a.numDofs entries)) = .ok A) :
    ((schedule'.mapM (entryOf a.restriction a.template a.values)).bind fun entries =>
      SparseMatrix.ofUnsortedRows a.numDofs (rowsOf a.numDofs entries)) = .ok A := by
  cases hentries : schedule.mapM (entryOf a.restriction a.template a.values) with
  | error error =>
    rw [hentries] at h
    cases h
  | ok entries =>
    obtain ⟨entries', hentries', hsame⟩ := mapM_eq_ok_of_perm hperm hentries
    have hrows : ∀ i (h : i < (rowsOf a.numDofs entries).size)
        (h' : i < (rowsOf a.numDofs entries').size),
        (rowsOf a.numDofs entries)[i].Perm (rowsOf a.numDofs entries')[i] := by
      intro i _ _
      rw [getElem_rowsOf, getElem_rowsOf]
      exact rowEntries_perm hsame i
    rw [hentries] at h
    rw [hentries']
    exact (SparseMatrix.ofUnsortedRows_congr (by simp) hrows).symm.trans h

theorem result_assembleUnder_eq_ok_iff {counting filling : List Visit}
    (hcounting : counting.Perm a.visits) (hfilling : filling.Perm a.visits) (A : SparseMatrix α) :
    (a.assembleUnder counting filling).result = .ok A ↔
      a.assembleWithoutEssential.result = .ok A := by
  rw [result_assembleUnder a (hcounting.trans hfilling.symm) (row_lt_of_perm_visits hfilling),
    result_eq]
  exact ⟨bind_mapM_of_perm hfilling, bind_mapM_of_perm hfilling.symm⟩

/-- Whatever the schedules `counting` and `filling` of the two passes: the `counts` are the same, a
run of the fill pass in which no visit fails claims every place once and in the range of its row,
and the outcome is a matrix under all schedules or under none, and always the same matrix. So it is
for every execution. -/
theorem schedule_independent (a : Assembler α) :
    ∃ tasks counts, FemAssembly.tasks a.restriction a.template = .ok tasks ∧
      (∀ counting, Interleaving tasks counting → countPass a.numDofs counting = .ok counts) ∧
      (∀ filling, Interleaving tasks filling → ∀ s,
        filling.foldlM (fillVisit a.restriction a.template a.values (offsets counts.toList).toArray)
          (FillState.start (offsets counts.toList).toArray) = .ok s →
        ∃ claimed, claims a.restriction a.template a.values (offsets counts.toList).toArray
            (FillState.start (offsets counts.toList).toArray) filling = .ok claimed ∧
          claimed.length = filling.length ∧
          ClaimsAll (offsets counts.toList).toArray a.numDofs claimed s) ∧
      (∀ counting filling, Interleaving tasks counting → Interleaving tasks filling → ∀ A,
        (a.assembleUnder counting filling).result = .ok A ↔
          a.assembleWithoutEssential.result = .ok A) ∧
      ∀ options : Options, ∀ counting filling, options.Admits tasks counting →
        options.Admits tasks filling → ∀ A, (a.assembleUnder counting filling).result = .ok A ↔
          a.assembleWithoutEssential.result = .ok A := by
  refine ⟨taskVisits a.restriction a.template,
    ((List.range a.numDofs).map (rowCount a.visits)).toArray, tasks_eq_ok a.template_slots,
    ?_, ?_, ?_, ?_⟩
  · intro counting hcounting
    have hperm : counting.Perm a.visits := hcounting.perm
    rw [countPass_eq_ok (row_lt_of_perm_visits hperm), rowCount_eq_of_perm hperm]
  · intro filling hfilling s hs
    have hperm : filling.Perm a.visits := hfilling.perm
    rw [← rowCount_eq_of_perm hperm] at hs ⊢
    exact exists_claimsAll (ranges_offsets a.numDofs (rowCount filling))
      (row_lt_of_perm_visits hperm) hs
  · intro counting filling hcounting hfilling A
    exact result_assembleUnder_eq_ok_iff hcounting.perm hfilling.perm A
  · intro options counting filling hcounting hfilling A
    exact result_assembleUnder_eq_ok_iff hcounting.perm hfilling.perm A

/-- The assembler `chain`, with the tasks in order when they are counted and in reverse when they
are filled: its seven places are claimed once each, and its matrix is made. -/
theorem schedule_independent_chain :
    ∃ tasks claimed A, FemAssembly.tasks chain.restriction chain.template = .ok tasks ∧
      claims chain.restriction chain.template chain.values #[0, 2, 5, 7]
        (FillState.start #[0, 2, 5, 7]) tasks.reverse.flatten = .ok claimed ∧
      (claimed.map Claim.place).Perm (List.range 7) ∧
      (chain.assembleUnder tasks.flatten tasks.reverse.flatten).result = .ok A := by
  obtain ⟨tasks, counts, htasks, hcounts, hclaims, hsame, -⟩ := schedule_independent chain
  have hserial := Interleaving.flatten tasks
  have hreversed := (Interleaving.flatten tasks.reverse).of_perm (List.reverse_perm tasks)
  obtain rfl : taskVisits chain.restriction chain.template = tasks :=
    Except.ok.inj ((tasks_eq_ok rfl).symm.trans htasks)
  obtain rfl : #[2, 3, 2] = counts := Except.ok.inj (hcounts _ hserial)
  obtain ⟨A, hA⟩ := exists_result_eq_ok (a := chain) (by decide +kernel) (by decide +kernel)
  cases hrun : (taskVisits chain.restriction chain.template).reverse.flatten.foldlM
      (fillVisit chain.restriction chain.template chain.values #[0, 2, 5, 7])
      (FillState.start #[0, 2, 5, 7]) with
  | error error =>
    have hok : ((taskVisits chain.restriction chain.template).reverse.flatten.foldlM
        (fillVisit chain.restriction chain.template chain.values #[0, 2, 5, 7])
        (FillState.start #[0, 2, 5, 7])).toBool = true := by decide +kernel
    rw [hrun] at hok
    cases hok
  | ok s =>
    obtain ⟨claimed, hclaimed, -, hall⟩ := hclaims _ hreversed s hrun
    exact ⟨_, claimed, A, htasks, hclaimed, hall.perm_range,
      (hsame _ _ hserial hreversed A).mpr hA⟩

end Assembler

end FemAssembly
