import FemAssembly.Proofs.Assembly.Passes
import FemAssembly.Proofs.Restriction.Incidence

/-!
# The sorted positions of a restriction

The transpose of a gather map in one list is made by counting: the references of every degree of
freedom (DOF) are counted, the counts are added up to offsets, and then every position goes to the
cursor of its DOF. The cursors move as those of the fill pass do, where the DOFs are the rows.

* `ranges_referenceOffsets`: counting and adding up. The offset of a DOF is the number of entries
  that reference a smaller one (`Ranges.getD_eq_countP`).
* `sortPositions_spec`: what placing the positions leaves between the offsets of a DOF.
* `Restriction.Transposed`: the sorted positions as the transpose of the gather map.
  `Restriction.transposed` says that they are.
* `Restriction.ofGatherMap_transposes`: which gather maps are accepted, and what they give.
-/

namespace FemAssembly

/-! ## Offsets -/

private theorem getD_modify {α : Type} (a : Array α) (i j : Nat) (f : α → α) (d : α) :
    (a.modify i f).getD j d = if i = j ∧ j < a.size then f (a.getD j d) else a.getD j d := by
  simp only [Array.getD_eq_getD_getElem?, Array.getElem?_modify]
  by_cases hj : j < a.size
  · by_cases hij : i = j <;> simp [hij, hj]
  · simp [hj]

private theorem getElem?_foldl_count (list : List SignedIndex) (counts : Array Nat) (i : Nat) :
    (list.foldl (fun counts s => counts.modify (s.index + 1) (· + 1)) counts)[i]? =
      counts[i]?.map (· + list.countP fun s => s.index + 1 = i) := by
  induction list generalizing counts with
  | nil => simp
  | cons s list ih =>
    rw [List.foldl_cons, ih, Array.getElem?_modify, List.countP_cons]
    cases counts[i]? with
    | none => by_cases h : s.index + 1 = i <;> simp [h]
    | some count =>
      by_cases h : s.index + 1 = i
      · simp only [h, ↓reduceIte, Option.map_some, decide_true, Option.some.injEq]
        omega
      · simp [h]

theorem countReferences_getElem? (numDofs : Nat) (gather : Array SignedIndex) {i : Nat}
    (hi : i ≤ numDofs) : (countReferences numDofs gather)[i]? =
      some (gather.toList.countP fun s => s.index + 1 = i) := by
  unfold countReferences
  rw [← Array.foldl_toList, getElem?_foldl_count, Array.getElem?_replicate, if_pos (by omega)]
  simp

theorem size_accumulate (steps : Nat) (counts : Array Nat) :
    (accumulate steps counts).size = counts.size := by
  unfold accumulate
  induction steps with
  | zero => rfl
  | succ steps ih => simpa [List.range_succ] using ih

theorem accumulate_succ (steps : Nat) (counts : Array Nat) :
    accumulate (steps + 1) counts =
      (accumulate steps counts).modify (steps + 1)
        (· + (accumulate steps counts).getD steps 0) := by
  unfold accumulate
  rw [List.range_succ, List.foldl_append]
  rfl

/-- After `steps` steps the entries of `counts` that were reached are running totals, and the others
are still counts. -/
private theorem accumulate_spec {steps : Nat} {counts : Array Nat} (h : steps < counts.size) :
    (accumulate steps counts).getD 0 0 = counts.getD 0 0 ∧
    (∀ i < steps, (accumulate steps counts).getD (i + 1) 0 =
      (accumulate steps counts).getD i 0 + counts.getD (i + 1) 0) ∧
    ∀ i > steps, (accumulate steps counts).getD i 0 = counts.getD i 0 := by
  induction steps with
  | zero => exact ⟨rfl, fun i hi => absurd hi (Nat.not_lt_zero i), fun i _ => rfl⟩
  | succ steps ih =>
    obtain ⟨hfirst, hreached, hrest⟩ := ih (by omega)
    have hget : ∀ i, (accumulate (steps + 1) counts).getD i 0 =
        if i = steps + 1 then counts.getD i 0 + (accumulate steps counts).getD steps 0
        else (accumulate steps counts).getD i 0 := by
      intro i
      rw [accumulate_succ, getD_modify, size_accumulate]
      by_cases hi : i = steps + 1
      · rw [if_pos ⟨hi.symm, by omega⟩, if_pos hi, hrest i (by omega)]
      · rw [if_neg fun heq => hi heq.1.symm, if_neg hi]
    refine ⟨?_, fun i hi => ?_, fun i hi => ?_⟩
    · rw [hget, if_neg (by omega), hfirst]
    · rw [hget i, if_neg (by omega), hget (i + 1)]
      by_cases hlast : i = steps
      · subst hlast
        rw [if_pos rfl]
        omega
      · rw [if_neg (by omega), hreached i (by omega)]
    · rw [hget, if_neg (by omega), hrest i (by omega)]

/-- The offsets cut the sorted positions of `gather` into one range for each DOF. -/
theorem ranges_referenceOffsets (numDofs : Nat) (gather : Array SignedIndex) :
    Ranges (referenceOffsets numDofs gather) numDofs
      fun dof => gather.toList.countP (·.index = dof) := by
  have hsize : (countReferences numDofs gather).size = numDofs + 1 := by
    unfold countReferences
    rw [← Array.foldl_toList]
    have hfold : ∀ (list : List SignedIndex) (counts : Array Nat),
        (list.foldl (fun counts s => counts.modify (s.index + 1) (· + 1)) counts).size =
          counts.size := by
      intro list
      induction list with
      | nil => exact fun _ => rfl
      | cons s list ih => exact fun counts => (ih _).trans Array.size_modify
    rw [hfold, Array.size_replicate]
  have hcount : ∀ i ≤ numDofs, (countReferences numDofs gather).getD i 0 =
      gather.toList.countP fun s => s.index + 1 = i := by
    intro i hi
    rw [Array.getD_eq_getD_getElem?, countReferences_getElem? numDofs gather hi, Option.getD_some]
  obtain ⟨hfirst, hreached, -⟩ := accumulate_spec
    (show numDofs < (countReferences numDofs gather).size by omega)
  refine ⟨?_, ?_, fun i hi => ?_⟩
  · unfold referenceOffsets
    rw [size_accumulate, hsize]
  · unfold referenceOffsets
    rw [hfirst, hcount 0 (Nat.zero_le _)]
    simp
  · unfold referenceOffsets
    rw [hreached i hi, hcount (i + 1) hi]
    simp

/-- The offset of `i` is the number of entries of `list` that reference a smaller DOF. -/
theorem Ranges.getD_eq_countP {offsets : Array Nat} {n : Nat} {list : List SignedIndex}
    (h : Ranges offsets n fun dof => list.countP (·.index = dof)) {i : Nat} (hi : i ≤ n) :
    offsets.getD i 0 = list.countP (·.index < i) := by
  have hsucc : ∀ (list : List SignedIndex) i, list.countP (·.index < i + 1) =
      list.countP (·.index < i) + list.countP (·.index = i) := by
    intro list i
    induction list with
    | nil => rfl
    | cons s list ih =>
      simp only [List.countP_cons, ih, decide_eq_true_eq]
      split <;> split <;> split <;> omega
  induction i with
  | zero =>
    rw [h.zero_eq]
    simp
  | succ i ih => rw [h.succ_eq i hi, ih (by omega), hsucc]

/-! ## Places -/

/-- The positions among some `entries` of a gather map that reference `dof`, each with the
orientation of its entry. -/
def positionsOf (entries : List (SignedIndex × Nat)) (dof : Nat) : List SignedIndex :=
  entries.filterMap fun (s, position) =>
    if s.index = dof then some (s.withIndex position) else none

/-- The position `x.2` of the gather map as an entry of a matrix, in the row of its DOF `x.1.index`.
-/
private def entryAt (x : SignedIndex × Nat) : Entry SignedIndex :=
  ⟨x.1.index, x.2, x.1.withIndex x.2⟩

private theorem map_rowEntries (entries : List (SignedIndex × Nat)) (dof : Nat) :
    (rowEntries (entries.map entryAt) dof).map Prod.snd = positionsOf entries dof := by
  unfold rowEntries positionsOf
  induction entries with
  | nil => rfl
  | cons x entries ih =>
    obtain ⟨s, position⟩ := x
    by_cases h : s.index = dof
    · simpa [entryAt, h] using ih
    · simpa [entryAt, h] using ih

/-- Sorting the positions of `gather` writes what the fill pass writes, where the DOFs are the rows.
-/
private theorem exists_foldl_put_eq (offsets columns : Array Nat) (gather : Array SignedIndex) :
    ∃ cursors columns', (gather.toList.zipIdx.map entryAt).foldl FillState.put
        ⟨offsets.pop, columns, Array.replicate gather.size (.positive 0)⟩ =
      ⟨cursors, columns', sortPositions offsets gather⟩ := by
  have hrun : ∀ (entries : List (SignedIndex × Nat)) (sort : PositionSort) (columns : Array Nat),
      ∃ columns', (entries.map entryAt).foldl FillState.put ⟨sort.cursors, columns, sort.indices⟩ =
        ⟨(entries.foldl (fun sort (s, position) => sort.place s position) sort).cursors, columns',
          (entries.foldl (fun sort (s, position) => sort.place s position) sort).indices⟩ := by
    intro entries
    induction entries with
    | nil => exact fun _ columns => ⟨columns, rfl⟩
    | cons x entries ih => exact fun sort _ => ih (sort.place x.1 x.2) _
  obtain ⟨columns', h⟩ := hrun gather.toList.zipIdx
    ⟨offsets.pop, Array.replicate gather.size (.positive 0)⟩ columns
  simp only [sortPositions, ← Array.foldl_toList, Array.toList_zipIdx]
  exact ⟨_, columns', h⟩

theorem length_positionsOf (gather : Array SignedIndex) (dof : Nat) :
    (positionsOf gather.toList.zipIdx dof).length = gather.toList.countP (·.index = dof) := by
  have hentries : gather.toList = gather.toList.zipIdx.map Prod.fst := by simp
  conv => rhs; rw [hentries]
  unfold positionsOf
  rw [List.countP_map]
  induction gather.toList.zipIdx with
  | nil => rfl
  | cons x entries ih =>
    obtain ⟨s, position⟩ := x
    by_cases h : s.index = dof
    · simpa [h] using ih
    · simpa [h] using ih

private theorem length_rowEntries (gather : Array SignedIndex) (dof : Nat) :
    (rowEntries (gather.toList.zipIdx.map entryAt) dof).length =
      gather.toList.countP (·.index = dof) := by
  rw [← length_positionsOf, ← map_rowEntries, List.length_map]

/-- There is a place for every position of `gather`, and the places from the offset of `dof` on hold
its positions, in their order. -/
theorem sortPositions_spec {numDofs : Nat} {gather : Array SignedIndex}
    (hlt : ∀ s ∈ gather, s.index < numDofs) :
    (sortPositions (referenceOffsets numDofs gather) gather).size = gather.size ∧
    ∀ dof < numDofs, ∀ k < (positionsOf gather.toList.zipIdx dof).length,
      (sortPositions (referenceOffsets numDofs gather) gather)[
          (referenceOffsets numDofs gather).getD dof 0 + k]? =
        (positionsOf gather.toList.zipIdx dof)[k]? := by
  have hranges := ranges_referenceOffsets numDofs gather
  have htotal : (referenceOffsets numDofs gather).getD numDofs 0 = gather.size := by
    rw [hranges.getD_eq_countP (Nat.le_refl _), ← Array.length_toList, List.countP_eq_length]
    exact fun s hs => by simpa using hlt s (Array.mem_toList_iff.mp hs)
  let _ : Zero SignedIndex := ⟨.positive 0⟩
  have hstart : (FillState.start (referenceOffsets numDofs gather) : FillState SignedIndex) =
      ⟨(referenceOffsets numDofs gather).pop, Array.replicate gather.size 0,
        Array.replicate gather.size (.positive 0)⟩ := by
    unfold FillState.start
    rw [hranges.size_eq, Nat.add_sub_cancel, htotal]
    rfl
  have hrows : ∀ entry ∈ gather.toList.zipIdx.map entryAt, entry.row < numDofs := by
    intro entry hentry
    obtain ⟨⟨s, position⟩, hmem, rfl⟩ := List.mem_map.mp hentry
    exact hlt s (Array.mem_toList_iff.mp (List.fst_mem_of_mem_zipIdx hmem))
  have hfilled := (filled_start hranges).foldl_put hranges hrows fun dof _ =>
    Nat.le_of_eq (length_rowEntries gather dof)
  obtain ⟨cursors, columns, hrun⟩ := exists_foldl_put_eq (referenceOffsets numDofs gather)
    (Array.replicate gather.size 0) gather
  rw [hstart, hrun, List.nil_append] at hfilled
  refine ⟨hfilled.size_values.trans htotal, fun dof hdof k hk => ?_⟩
  have hstored := hfilled.stored dof hdof k
    (by rwa [length_rowEntries, ← length_positionsOf])
  rw [← map_rowEntries, List.getElem?_map, ← hstored]
  have hsize := hfilled.size_columns.trans hfilled.size_values.symm
  simp only [Array.zip, Array.getElem?_zipWith]
  generalize (referenceOffsets numDofs gather).getD dof 0 + k = place
  by_cases hplace : place < columns.size
  · simp [hplace, show place < (sortPositions (referenceOffsets numDofs gather) gather).size by
      simpa [hsize] using hplace]
  · simp [hplace, show ¬ place < (sortPositions (referenceOffsets numDofs gather) gather).size by
      simpa [hsize] using hplace]

theorem mem_positionsOf {gather : Array SignedIndex} {dof : Nat} {index : SignedIndex} :
    index ∈ positionsOf gather.toList.zipIdx dof ↔ ∃ (position : Nat) (s : SignedIndex),
      gather[position]? = some s ∧ s.index = dof ∧ s.withIndex position = index := by
  simp only [positionsOf, List.mem_filterMap, Prod.exists, List.mk_mem_zipIdx_iff_getElem?,
    Array.getElem?_toList, Option.ite_none_right_eq_some, Option.some.injEq]
  exact exists_comm

/-- The positions of `gather` are visited in order, so the list of `dof` increases. -/
theorem pairwise_positionsOf {gather : Array SignedIndex} (hsize : gather.size < Word.signedBound)
    (dof : Nat) : (positionsOf gather.toList.zipIdx dof).Pairwise (·.index < ·.index) := by
  have hpositions : gather.toList.zipIdx.Pairwise fun x y => x.2 < y.2 := by
    rw [List.pairwise_iff_getElem]
    intro i j _ _ hij
    simpa using hij
  have hlt : ∀ x ∈ gather.toList.zipIdx, x.2 < Word.signedBound := fun x hx => by
    have := List.snd_lt_of_mem_zipIdx hx
    simp only [Array.length_toList] at this
    omega
  unfold positionsOf
  rw [List.pairwise_filterMap]
  refine hpositions.imp_of_mem ?_
  rintro ⟨s, i⟩ ⟨t, j⟩ hi hj hij a ha b hb
  simp only [Option.ite_none_right_eq_some, Option.some.injEq] at ha hb
  obtain ⟨-, rfl⟩ := ha
  obtain ⟨-, rfl⟩ := hb
  rwa [SignedIndex.index_withIndex s (hlt _ hi), SignedIndex.index_withIndex t (hlt _ hj)]

namespace Restriction

variable (r : Restriction)

/-! ## The transpose of a restriction -/

/-- The part of the sorted positions of `r` between the offsets of `dof`. -/
def listOf (dof : Nat) : List SignedIndex :=
  (r.indices.take (r.offsets.getD (dof + 1) 0)).drop (r.offsets.getD dof 0)

/-- The sorted positions of `r` are the transpose of its gather map. -/
structure Transposed : Prop where
  length_offsets : r.offsets.length = r.numDofs + 1
  offsets_zero : r.offsets[0]? = some 0
  offsets_last : r.offsets[r.numDofs]? = some r.gather.size
  pairwise_offsets : r.offsets.Pairwise (· ≤ ·)
  length_indices : r.indices.length = r.gather.size
  /-- every slot of an element is at one place, in the list of its DOF and with its orientation -/
  exists_place : ∀ e < r.numElements, ∀ i < r.slots, ∃ place index,
    InRange r.offsets.toArray (r.dof e i).index place ∧ r.indices[place]? = some index ∧
    index.index = r.slots * e + i ∧ index.isReversed = (r.dof e i).isReversed ∧
    ∀ place' index', r.indices[place']? = some index' → index'.index = r.slots * e + i →
      place' = place
  increasing : ∀ dof < r.numDofs, (r.listOf dof).Pairwise (·.index < ·.index)
  incidentIndices_eq : ∀ dof < r.numDofs, r.incidentIndices dof = .ok (r.listOf dof)
  /-- a DOF lists the slots that reference it, each once, by increasing element -/
  incidence_eq : ∀ dof < r.numDofs, ∃ references : List (Nat × Nat),
    r.incidence dof = .ok (references.map fun (e, i) => (e, (r.dof e i).withIndex i)) ∧
    references.Nodup ∧ (references.map Prod.fst).Pairwise (· ≤ ·) ∧
    ∀ e i, (e, i) ∈ references ↔ e < r.numElements ∧ i < r.slots ∧ (r.dof e i).index = dof

variable {r}

theorem ranges_offsets (r : Restriction) :
    Ranges r.offsets.toArray r.numDofs fun dof => r.gather.toList.countP (·.index = dof) := by
  unfold offsets
  rw [Array.toArray_toList]
  exact ranges_referenceOffsets r.numDofs r.gather

theorem offsets_last (r : Restriction) : r.offsets.toArray.getD r.numDofs 0 = r.gather.size := by
  rw [r.ranges_offsets.getD_eq_countP (Nat.le_refl _), ← Array.length_toList, List.countP_eq_length]
  exact fun s hs => by simpa using r.index_lt s (Array.mem_toList_iff.mp hs)

theorem indices_getElem? {dof k : Nat} (hdof : dof < r.numDofs)
    (hk : k < (positionsOf r.gather.toList.zipIdx dof).length) :
    r.indices[r.offsets.toArray.getD dof 0 + k]? =
      (positionsOf r.gather.toList.zipIdx dof)[k]? := by
  have := (sortPositions_spec r.index_lt).2 dof hdof k hk
  unfold offsets indices
  rwa [Array.toArray_toList, Array.getElem?_toList]

theorem length_indices (r : Restriction) : r.indices.length = r.gather.size := by
  unfold indices
  rw [Array.length_toList, (sortPositions_spec r.index_lt).1]

theorem listOf_eq {dof : Nat} (hdof : dof < r.numDofs) :
    r.listOf dof = positionsOf r.gather.toList.zipIdx dof := by
  have hsucc := r.ranges_offsets.succ_eq dof hdof
  have hlength := length_positionsOf r.gather dof
  have hend := r.ranges_offsets.le_of_le (show dof + 1 ≤ r.numDofs from hdof) (Nat.le_refl _)
  have hoffset : ∀ i, r.offsets.getD i 0 = r.offsets.toArray.getD i 0 := fun i => by
    simp [Array.getD_eq_getD_getElem?, List.getD_eq_getElem?_getD]
  rw [← hlength] at hsucc
  apply List.ext_getElem?
  intro k
  unfold listOf
  rw [List.getElem?_drop, List.getElem?_take, hoffset, hoffset]
  by_cases hk : k < (positionsOf r.gather.toList.zipIdx dof).length
  · rw [if_pos (by omega), indices_getElem? hdof hk]
  · rw [if_neg (by omega), List.getElem?_eq_none (by omega)]

theorem incidentIndices_eq_ok {dof : Nat} (hdof : dof < r.numDofs) :
    r.incidentIndices dof = .ok (r.listOf dof) := by
  rw [incidentIndices, r.incident_eq, incidenceTable_getElem? hdof, listOf_eq hdof]
  rfl

theorem gather_getElem? {e i : Nat} (he : e < r.numElements) (hi : i < r.slots) :
    r.gather[r.slots * e + i]? = some (r.dof e i) := by
  have h := position_lt he hi
  simp [dof, Array.getD, h]

/-- The position of slot `i` of element `e` is written once, to the list of its DOF. -/
theorem exists_place {e i : Nat} (he : e < r.numElements) (hi : i < r.slots) :
    ∃ place, InRange r.offsets.toArray (r.dof e i).index place ∧
      r.indices[place]? = some ((r.dof e i).withIndex (r.slots * e + i)) ∧
      ∀ place' index', r.indices[place']? = some index' → index'.index = r.slots * e + i →
        place' = place := by
  have hdof := dof_index_lt he hi
  have hposition := position_lt_signedBound he hi
  have hin : ∀ {dof k}, dof < r.numDofs → k < (positionsOf r.gather.toList.zipIdx dof).length →
      InRange r.offsets.toArray dof (r.offsets.toArray.getD dof 0 + k) := by
    intro dof k hdof hk
    have hsucc := r.ranges_offsets.succ_eq dof hdof
    rw [← length_positionsOf] at hsucc
    exact ⟨by omega, by omega⟩
  obtain ⟨k, hk, hget⟩ := List.mem_iff_getElem.mp
    (mem_positionsOf.mpr ⟨_, _, gather_getElem? he hi, rfl, rfl⟩)
  refine ⟨r.offsets.toArray.getD (r.dof e i).index 0 + k, hin hdof hk, ?_, ?_⟩
  · rw [indices_getElem? hdof hk, List.getElem?_eq_getElem hk, hget]
  · intro place' index' hget' hindex'
    -- the other place is in the list of some DOF, too
    have hlt : place' < r.offsets.toArray.getD r.numDofs 0 := by
      rw [r.offsets_last, ← r.length_indices]
      exact (List.getElem?_eq_some_iff.mp hget').1
    obtain ⟨dof', hdof', hin'⟩ := r.ranges_offsets.exists_mem hlt
    have hsucc := r.ranges_offsets.succ_eq dof' hdof'
    rw [← length_positionsOf] at hsucc
    obtain ⟨k', rfl⟩ := Nat.exists_eq_add_of_le hin'.1
    have hk' : k' < (positionsOf r.gather.toList.zipIdx dof').length := by
      have := hin'.2
      omega
    rw [indices_getElem? hdof' hk', List.getElem?_eq_getElem hk'] at hget'
    have hmem := List.getElem_mem hk'
    obtain ⟨position', s', hgather', rfl, hwith'⟩ := mem_positionsOf.mp hmem
    have hposition' : position' < Word.signedBound :=
      Nat.lt_trans (Array.getElem?_eq_some_iff.mp hgather').1 r.size_lt
    obtain rfl : position' = r.slots * e + i := by
      rw [← hindex', ← Option.some.inj hget', ← hwith', SignedIndex.index_withIndex _ hposition']
    obtain rfl : s' = r.dof e i := Option.some.inj (hgather'.symm.trans (gather_getElem? he hi))
    have hincreasing :=
      List.pairwise_iff_getElem.mp (pairwise_positionsOf r.size_lt (r.dof e i).index)
    have hsame : ((positionsOf r.gather.toList.zipIdx (r.dof e i).index)[k]).index =
        ((positionsOf r.gather.toList.zipIdx (r.dof e i).index)[k']).index := by rw [hget, hwith']
    rcases Nat.lt_trichotomy k k' with hlt | rfl | hlt
    · exact absurd hsame (Nat.ne_of_lt (hincreasing k k' hk hk' hlt))
    · rfl
    · exact absurd hsame.symm (Nat.ne_of_lt (hincreasing k' k hk' hk hlt))

/-- Counting, adding up and placing make the transpose, for every restriction `r`. -/
theorem transposed (r : Restriction) : r.Transposed where
  length_offsets := by
    have := r.ranges_offsets.size_eq
    simpa using this
  offsets_zero := by
    have := r.ranges_offsets.getElem?_eq (Nat.zero_le _)
    rwa [r.ranges_offsets.zero_eq, List.getElem?_toArray] at this
  offsets_last := by
    have := r.ranges_offsets.getElem?_eq (Nat.le_refl _)
    rwa [r.offsets_last, List.getElem?_toArray] at this
  pairwise_offsets := by
    rw [List.pairwise_iff_getElem]
    intro i j hi hj hij
    have hsize := r.ranges_offsets.size_eq
    rw [List.size_toArray] at hsize
    have := r.ranges_offsets.le_of_le (Nat.le_of_lt hij) (by omega)
    simpa [Array.getD, hi, hj] using this
  length_indices := r.length_indices
  exists_place e he i hi := by
    have hposition := position_lt_signedBound he hi
    obtain ⟨place, hin, hget, hunique⟩ := exists_place he hi
    exact ⟨place, _, hin, hget, SignedIndex.index_withIndex _ hposition,
      SignedIndex.isReversed_withIndex _ hposition, hunique⟩
  increasing dof hdof := by
    rw [listOf_eq hdof]
    exact pairwise_positionsOf r.size_lt dof
  incidentIndices_eq _ hdof := incidentIndices_eq_ok hdof
  incidence_eq dof hdof := ⟨r.references dof, incidence_eq_ok hdof, nodup_references dof,
    pairwise_fst_references dof, fun _ _ => mem_references⟩

/-- The map `gather` is refused exactly if it is not valid, and a valid one makes a restriction
exactly if the offsets of its `numDofs` DOFs fit into an array. The restriction `r` has the given
map, and its sorted positions are the transpose. -/
theorem ofGatherMap_transposes (numDofs slots : Nat) (gather : Array SignedIndex)
    (hsize : gather.size < Word.signedBound) :
    ((∃ reason, (ofGatherMap numDofs slots gather).result = .error (.inconsistent reason)) ↔
      ¬ ValidGatherMap numDofs slots gather) ∧
    ((∃ r, (ofGatherMap numDofs slots gather).result = .ok r) ↔
      ValidGatherMap numDofs slots gather ∧ (numDofs + 1) * 8 < Word.signedBound) ∧
    (ValidGatherMap numDofs slots gather → ¬ (numDofs + 1) * 8 < Word.signedBound →
      (ofGatherMap numDofs slots gather).result = .error (.fault .overflow)) ∧
    ∀ r, (ofGatherMap numDofs slots gather).result = .ok r →
      r.numDofs = numDofs ∧ r.slots = slots ∧ r.gather = gather ∧ r.Transposed := by
  have hmakes : ValidGatherMap numDofs slots gather → (numDofs + 1) * 8 < Word.signedBound →
      ∃ r, (ofGatherMap numDofs slots gather).result = .ok r := by
    intro hvalid hrows
    obtain ⟨hdvd, hlt⟩ := validGatherMap_iff.mp hvalid
    obtain ⟨r, hr, -⟩ := exists_ofGatherMap hdvd hlt hsize hrows
    exact ⟨r, hr⟩
  refine ⟨⟨?_, exists_inconsistent_of_not_valid⟩, ⟨?_, fun h => hmakes h.1 h.2⟩,
    result_ofGatherMap_of_not_fits, fun r hr => ?_⟩
  · rintro ⟨reason, hreason⟩ hvalid
    by_cases hrows : (numDofs + 1) * 8 < Word.signedBound
    · obtain ⟨r, hr⟩ := hmakes hvalid hrows
      rw [hr] at hreason
      cases hreason
    · rw [result_ofGatherMap_of_not_fits hvalid hrows] at hreason
      cases hreason
  · rintro ⟨r, hr⟩
    refine ⟨?_, (of_ofGatherMap_eq_ok hr).2.2.2⟩
    by_cases hvalid : ValidGatherMap numDofs slots gather
    · exact hvalid
    · obtain ⟨reason, hreason⟩ := exists_inconsistent_of_not_valid hvalid
      rw [hr] at hreason
      cases hreason
  · obtain ⟨hnumDofs, hslots, hgather, -⟩ := of_ofGatherMap_eq_ok hr
    exact ⟨hnumDofs, hslots, hgather, r.transposed⟩

/-- Two elements of which the second references the DOF `1` through both slots, with different
orientations. The DOF `0` is reversed, and `2` is not referenced. -/
def foldedGather : Array SignedIndex := #[.positive 1, .reversed 0, .positive 1, .reversed 1]

theorem ofGatherMap_transposes_folded :
    foldedGather.size < Word.signedBound ∧ ∃ r, (ofGatherMap 3 2 foldedGather).result = .ok r ∧
      r.Transposed ∧ r.offsets = [0, 1, 4, 4] ∧
      r.indices = [.reversed 1, .positive 0, .positive 2, .reversed 3] ∧
      r.incidence 1 = .ok [(0, .positive 0), (1, .positive 0), (1, .reversed 1)] := by
  obtain ⟨-, hmakes, -, hfields⟩ := ofGatherMap_transposes 3 2 foldedGather (by decide)
  obtain ⟨r, hr⟩ := hmakes.mpr ⟨.inr ⟨by decide, by decide, by decide⟩, by decide⟩
  obtain ⟨hnumDofs, hslots, hgather, htransposed⟩ := hfields r hr
  refine ⟨by decide, r, hr, htransposed, ?_, ?_, ?_⟩
  · rw [offsets, hnumDofs, hgather]
    decide +kernel
  · rw [indices, hnumDofs, hgather]
    decide +kernel
  · rw [incidence, incidentIndices, r.incident_eq, hnumDofs, hslots, hgather]
    rfl

end Restriction

end FemAssembly
