import FemAssembly.Assembly.Visit
import FemAssembly.Proofs.Sequence.Results

/-!
# The incidence of a restriction

The transpose of a gather map, which is built by one pass over it, seen from the elements: the slots
that reference a degree of freedom (DOF) are listed element by element.

* `Restriction.dof`: the signed DOF of a slot, without the check of its position.
* `Restriction.slotsOf`, `Restriction.references`: the slots of one element, and of all elements,
  that reference a DOF.
* `Restriction.ValidGatherMap`: the gather maps that are accepted.
* `incidenceTable_getElem?`: what one pass over the gather map leaves in the list of a DOF.
* `Restriction.incidence_eq_ok`, `Restriction.degree_eq_ok`: the incidence of a DOF and its degree,
  by `Restriction.references`.
* `Restriction.firstCommonElement_eq_ok`: the element that is elected for two DOFs is the least one
  that references both.
-/

namespace FemAssembly

namespace SignedIndex

theorem withIndex_withIndex (s : SignedIndex) {index : Nat} (h : index < Word.signedBound)
    (other : Nat) : (s.withIndex index).withIndex other = s.withIndex other := by
  unfold withIndex at *
  rw [isReversed_encode h]

end SignedIndex

/-! ## One pass over the gather map -/

/-- The step of the pass for `s` adds a position to the list of the DOF `i`, and to no other one. -/
private theorem getElem?_modify_push (table : Array (Array SignedIndex)) (i dof : Nat)
    (s : SignedIndex) :
    (table.modify i (·.push s))[dof]? =
      table[dof]?.map fun list => (list.toList ++ if i = dof then [s] else []).toArray := by
  rw [Array.getElem?_modify]
  by_cases h : i = dof
  · simp only [h, ↓reduceIte]
    cases table[dof]? with
    | none => rfl
    | some list => exact congrArg some (Array.ext' (by simp))
  · simp only [h, ↓reduceIte, List.append_nil, Array.toArray_toList]
    cases table[dof]? <;> rfl

/-- The list of `dof` after the positions of `entries`: those that were in `table`, and then those
of `entries` that reference `dof`, in order. -/
private theorem getElem?_foldl_push (entries : List (SignedIndex × Nat))
    (table : Array (Array SignedIndex)) (dof : Nat) :
    (entries.foldl (fun table (s, position) =>
        table.modify s.index (·.push (s.withIndex position))) table)[dof]? =
      table[dof]?.map fun list => (list.toList ++ entries.filterMap fun (s, position) =>
        if s.index = dof then some (s.withIndex position) else none).toArray := by
  induction entries generalizing table with
  | nil => cases h : table[dof]? <;> simp [h]
  | cons entry entries ih =>
    obtain ⟨s, position⟩ := entry
    rw [List.foldl_cons, ih, getElem?_modify_push, List.filterMap_cons]
    cases table[dof]? with
    | none => rfl
    | some list => by_cases h : s.index = dof <;> simp [h]

theorem incidenceTable_getElem? {numDofs dof : Nat} (h : dof < numDofs)
    (gather : Array SignedIndex) :
    (incidenceTable numDofs gather)[dof]? =
      some (gather.toList.zipIdx.filterMap fun (s, position) =>
        if s.index = dof then some (s.withIndex position) else none).toArray := by
  unfold incidenceTable
  rw [← Array.foldl_toList, Array.toList_zipIdx]
  refine (getElem?_foldl_push _ _ dof).trans ?_
  simp [h]

namespace Restriction

variable (r : Restriction)

/-! ## Slots -/

/-- The signed DOF that `slot` of `element` references. -/
def dof (element slot : Nat) : SignedIndex :=
  r.gather.getD (r.slots * element + slot) (.positive 0)

/-- The slot `slot` of `element` references `dof`. -/
def ReferencesAt (element slot dof : Nat) : Prop :=
  element < r.numElements ∧ slot < r.slots ∧ (r.dof element slot).index = dof

instance (element slot dof : Nat) : Decidable (r.ReferencesAt element slot dof) :=
  inferInstanceAs (Decidable (_ ∧ _))

/-- Some slot of `element` references `dof`. -/
def References (element dof : Nat) : Prop := ∃ slot, r.ReferencesAt element slot dof

/-- The slots of `element` that reference `dof`. -/
def slotsOf (element dof : Nat) : List Nat :=
  (List.range r.slots).filter fun slot => (r.dof element slot).index = dof

/-- The elements and slots that reference `dof`, element by element. -/
def references (dof : Nat) : List (Nat × Nat) :=
  (List.range r.numElements).flatMap fun element => (r.slotsOf element dof).map (element, ·)

/-- A map `gather` without mistakes whose sizes fit makes a restriction. -/
theorem exists_ofGatherMap {numDofs slots : Nat} {gather : Array SignedIndex}
    (hdvd : slots ∣ gather.size) (hlt : ∀ s ∈ gather, s.index < numDofs)
    (hsize : gather.size < Word.signedBound) (hrows : (numDofs + 1) * 8 < Word.signedBound) :
    ∃ r, (ofGatherMap numDofs slots gather).result = .ok r ∧ r.numDofs = numDofs ∧
      r.slots = slots ∧ r.gather = gather := by
  have hadd : Word.add numDofs 1 = .ok (numDofs + 1) :=
    Word.add_eq_ok (Word.lt_bound (by omega))
  unfold ofGatherMap
  rw [dif_pos hdvd]
  split
  · rename_i s hfind
    have := hlt s (Array.mem_of_find?_eq_some hfind)
    have := Array.find?_some hfind
    simp only [decide_eq_true_eq] at this
    omega
  · rw [dif_pos hsize]
    simp only [Noted.result_bind, Noted.result_liftM, hadd]
    simp only [bind, Except.bind, Word.reserve_eq_ok hrows]
    split <;> exact ⟨_, rfl, rfl, rfl, rfl⟩

/-- What a restriction `r` of `gather` is made of. -/
theorem of_ofGatherMap_eq_ok {numDofs slots : Nat} {gather : Array SignedIndex} {r : Restriction}
    (h : (ofGatherMap numDofs slots gather).result = .ok r) : r.numDofs = numDofs ∧
      r.slots = slots ∧ r.gather = gather ∧ (numDofs + 1) * 8 < Word.signedBound := by
  unfold ofGatherMap at h
  split at h
  · split at h
    · cases h
    · split at h
      · simp only [Noted.result_bind, Noted.result_liftM] at h
        obtain ⟨rows, hrows, h⟩ := bind_eq_ok_iff.mp h
        obtain ⟨-, rfl⟩ := Word.fit_eq_ok_iff.mp hrows
        obtain ⟨_, hreserve, h⟩ := bind_eq_ok_iff.mp h
        have hrows := Word.reserve_eq_ok_iff.mp hreserve
        split at h <;> cases h <;> exact ⟨rfl, rfl, rfl, hrows⟩
      · cases h
  · split at h <;> cases h

/-- The map `gather` is valid: for elements without slots it is empty. Otherwise it is a whole
number of elements, and all DOFs that it references are below `numDofs`. -/
def ValidGatherMap (numDofs slots : Nat) (gather : Array SignedIndex) : Prop :=
  (slots = 0 ∧ gather.size = 0) ∨
    (0 < slots ∧ slots ∣ gather.size ∧ ∀ s ∈ gather, s.index < numDofs)

theorem validGatherMap_iff {numDofs slots : Nat} {gather : Array SignedIndex} :
    ValidGatherMap numDofs slots gather ↔
      slots ∣ gather.size ∧ ∀ s ∈ gather, s.index < numDofs := by
  unfold ValidGatherMap
  rcases Nat.eq_zero_or_pos slots with rfl | hpos
  · simp only [Nat.zero_dvd, Nat.lt_irrefl, false_and, or_false, true_and]
    refine ⟨fun h => ⟨h, fun s hs => ?_⟩, And.left⟩
    simp [Array.size_eq_zero_iff.mp h] at hs
  · simp only [Nat.ne_of_gt hpos, false_and, hpos, true_and, false_or]

theorem exists_inconsistent_of_not_valid {numDofs slots : Nat} {gather : Array SignedIndex}
    (h : ¬ ValidGatherMap numDofs slots gather) :
    ∃ reason, (ofGatherMap numDofs slots gather).result = .error (.inconsistent reason) := by
  rw [validGatherMap_iff] at h
  unfold ofGatherMap
  split
  · rename_i hdvd
    split
    · exact ⟨_, rfl⟩
    · rename_i hfind
      refine absurd ⟨hdvd, fun s hs => ?_⟩ h
      simpa using Array.find?_eq_none.mp hfind s hs
  · split <;> exact ⟨_, rfl⟩

/-- A valid map `gather` fails for its size, and in no other way. -/
theorem ofGatherMap_ne_error {numDofs slots : Nat} {gather : Array SignedIndex}
    (h : ValidGatherMap numDofs slots gather) {error : Error} (herror : error ≠ .fault .overflow) :
    (ofGatherMap numDofs slots gather).result ≠ .error error := by
  obtain ⟨hdvd, hlt⟩ := validGatherMap_iff.mp h
  unfold ofGatherMap
  rw [dif_pos hdvd]
  split
  · rename_i s hfind
    have := hlt s (Array.mem_of_find?_eq_some hfind)
    have := Array.find?_some hfind
    simp only [decide_eq_true_eq] at this
    omega
  · split
    · simp only [Noted.result_bind, Noted.result_liftM]
      refine bind_ne_error (Word.fit_ne_error herror) fun _ _ =>
        bind_ne_error (Word.reserve_ne_error herror) fun _ _ => ?_
      split <;> nofun
    · exact fun heq => herror (Except.error.inj heq).symm

/-- The offsets of too many DOFs do not fit into an array, also for a valid map `gather`. -/
theorem result_ofGatherMap_of_not_fits {numDofs slots : Nat} {gather : Array SignedIndex}
    (h : ValidGatherMap numDofs slots gather) (hrows : ¬ (numDofs + 1) * 8 < Word.signedBound) :
    (ofGatherMap numDofs slots gather).result = .error (.fault .overflow) := by
  cases hresult : (ofGatherMap numDofs slots gather).result with
  | ok r => exact absurd (of_ofGatherMap_eq_ok hresult).2.2.2 hrows
  | error error =>
    exact congrArg Except.error
      (Decidable.byContradiction fun hne => ofGatherMap_ne_error h hne hresult)

variable {r}

theorem position_lt {element slot : Nat} (he : element < r.numElements) (hs : slot < r.slots) :
    r.slots * element + slot < r.gather.size := by
  have := Nat.mul_le_mul_left r.slots (Nat.succ_le_of_lt he)
  rw [Nat.mul_succ] at this
  rw [r.size_eq]
  omega

/-- The positions of the gather map of `r` have a sign to spare for the orientation. -/
theorem position_lt_signedBound {element slot : Nat} (he : element < r.numElements)
    (hs : slot < r.slots) : r.slots * element + slot < Word.signedBound :=
  Nat.lt_trans (position_lt he hs) r.size_lt

theorem elementDof_eq_ok {element slot : Nat} (he : element < r.numElements)
    (hs : slot < r.slots) : r.elementDof element slot = .ok (r.dof element slot) := by
  have h := position_lt he hs
  simp [elementDof, dof, Array.getD, h]

theorem dof_index_lt {element slot : Nat} (he : element < r.numElements) (hs : slot < r.slots) :
    (r.dof element slot).index < r.numDofs := by
  have h := position_lt he hs
  unfold dof
  rw [Array.getD_eq_getD_getElem?, Array.getElem?_eq_getElem h, Option.getD_some]
  exact r.index_lt _ (Array.getElem_mem h)

theorem ReferencesAt.dof_lt {element slot dof : Nat} (h : r.ReferencesAt element slot dof) :
    dof < r.numDofs :=
  h.2.2 ▸ dof_index_lt h.1 h.2.1

theorem References.dof_lt {element dof : Nat} (h : r.References element dof) :
    dof < r.numDofs := by
  obtain ⟨_, h⟩ := h
  exact h.dof_lt

theorem mem_slotsOf {element slot dof : Nat} :
    slot ∈ r.slotsOf element dof ↔ slot < r.slots ∧ (r.dof element slot).index = dof := by
  simp [slotsOf]

theorem mem_references {element slot dof : Nat} :
    (element, slot) ∈ r.references dof ↔ r.ReferencesAt element slot dof := by
  simp [references, mem_slotsOf, ReferencesAt]

theorem nodup_slotsOf (element dof : Nat) : (r.slotsOf element dof).Nodup :=
  List.nodup_range.filter _

theorem mem_map_fst_references {element dof : Nat} :
    element ∈ (r.references dof).map Prod.fst ↔ r.References element dof := by
  constructor
  · intro h
    obtain ⟨⟨e, slot⟩, hmem, rfl⟩ := List.mem_map.mp h
    exact ⟨slot, mem_references.mp hmem⟩
  · rintro ⟨slot, h⟩
    exact List.mem_map.mpr ⟨_, mem_references.mpr h, rfl⟩

/-- The elements of the references of `dof` do not decrease. -/
theorem pairwise_fst_references (dof : Nat) :
    ((r.references dof).map Prod.fst).Pairwise (· ≤ ·) := by
  rw [List.pairwise_map, references, List.pairwise_flatMap]
  constructor
  · intro element _
    rw [List.pairwise_map]
    exact (nodup_slotsOf element dof).imp fun _ => Nat.le_refl element
  · apply List.pairwise_lt_range.imp
    intro a b hab x hx y hy
    obtain ⟨_, -, rfl⟩ := List.mem_map.mp hx
    obtain ⟨_, -, rfl⟩ := List.mem_map.mp hy
    exact Nat.le_of_lt hab

theorem nodup_references (dof : Nat) : (r.references dof).Nodup := by
  apply List.pairwise_flatMap.mpr
  constructor
  · intro element _
    apply List.pairwise_map.mpr
    apply (nodup_slotsOf element dof).imp
    intro slot slot' hne heq
    exact hne (Prod.mk.inj heq).2
  · apply List.nodup_range.imp
    intro e e' hne x hx y hy heq
    obtain ⟨_, -, rfl⟩ := List.mem_map.mp hx
    obtain ⟨_, -, rfl⟩ := List.mem_map.mp hy
    exact hne (Prod.mk.inj heq).1

/-- If `dof` is referenced once, it is by one element. -/
theorem element_eq_of_length_eq_one {dof element slot element' slot' : Nat}
    (hone : (r.references dof).length = 1) (h : r.ReferencesAt element slot dof)
    (h' : r.ReferencesAt element' slot' dof) : element = element' := by
  obtain ⟨x, hx⟩ := List.length_eq_one_iff.mp hone
  have hmem := mem_references.mpr h
  have hmem' := mem_references.mpr h'
  rw [hx, List.mem_singleton] at hmem hmem'
  exact congrArg Prod.fst (hmem.trans hmem'.symm)

/-! ## The transpose -/

/-- The numbers below `width * rows`, row by row. -/
private theorem range_mul (width rows : Nat) :
    List.range (width * rows) =
      (List.range rows).flatMap fun row => (List.range width).map (width * row + ·) := by
  induction rows with
  | zero => rfl
  | succ rows ih =>
    rw [Nat.mul_succ, List.range_add, ih, List.range_succ, List.flatMap_append]
    simp

/-- The entries of the gather map of `r` with their positions, element by element. -/
private theorem zipIdx_gather (r : Restriction) :
    r.gather.toList.zipIdx = (List.range r.numElements).flatMap fun element =>
      (List.range r.slots).map fun slot => (r.dof element slot, r.slots * element + slot) := by
  have h : r.gather.toList.zipIdx = (List.range (r.slots * r.numElements)).map fun position =>
      (r.gather.getD position (.positive 0), position) := by
    apply List.ext_getElem
    · simp [r.size_eq]
    · intro position h1 h2
      have : position < r.gather.size := by simpa using h1
      simp [Array.getD, this]
  rw [h, range_mul, List.map_flatMap]
  simp [dof, Function.comp_def]

/-- The list of `dof` holds the positions of its references, each with the orientation in which its
slot sees `dof`. -/
theorem incident_getElem? {dof : Nat} (h : dof < r.numDofs) :
    r.incident[dof]? = some ((r.references dof).map fun (element, slot) =>
      (r.dof element slot).withIndex (r.slots * element + slot)).toArray := by
  rw [r.incident_eq, incidenceTable_getElem? h, zipIdx_gather, List.filterMap_flatMap, references,
    List.map_flatMap]
  congr 3
  funext element
  rw [List.filterMap_map, slotsOf, List.map_map, ← List.filterMap_eq_map,
    ← List.filterMap_eq_filter, List.filterMap_filterMap]
  congr 1
  funext slot
  by_cases hs : (r.dof element slot).index = dof <;> simp [hs, Option.guard]

theorem degree_eq_ok {dof : Nat} (h : dof < r.numDofs) :
    r.degree dof = .ok (r.references dof).length := by
  simp [degree, incident_getElem? h, Except.map]

theorem size_incident : r.incident.size = r.numDofs := by
  have hsize : ∀ (entries : List (SignedIndex × Nat)) (table : Array (Array SignedIndex)),
      (entries.foldl (fun table (s, position) =>
        table.modify s.index (·.push (s.withIndex position))) table).size = table.size := by
    intro entries
    induction entries with
    | nil => exact fun _ => rfl
    | cons entry entries ih => exact fun table => (ih _).trans Array.size_modify
  rw [r.incident_eq, incidenceTable, ← Array.foldl_toList, hsize, Array.size_replicate]

/-- The degrees of `r` are checked against the references of its DOFs. -/
theorem checkDegree_eq_ok_iff {limit : Nat} : r.checkDegree limit = .ok () ↔
    ∀ dof < r.numDofs, (r.references dof).length ≤ limit := by
  have hlist : ∀ {list dof}, r.incident[dof]? = some list →
      dof < r.numDofs ∧ list.size = (r.references dof).length := by
    intro list dof hget
    have hdof : dof < r.numDofs := size_incident ▸ (Array.getElem?_eq_some_iff.mp hget).1
    rw [incident_getElem? hdof] at hget
    obtain rfl := Option.some.inj hget
    exact ⟨hdof, by simp⟩
  unfold checkDegree
  split
  · rename_i list dof hfind
    obtain ⟨hdof, hsize⟩ := hlist (Array.mem_zipIdx_iff_getElem?.mp
      (Array.mem_of_find?_eq_some hfind))
    have hlarge : limit < list.size := by simpa using Array.find?_some hfind
    refine iff_of_false nofun fun hall => absurd hlarge (Nat.not_lt.mpr ?_)
    exact hsize ▸ hall dof hdof
  · rename_i hfind
    refine iff_of_true rfl fun dof hdof => ?_
    have hmem : (_, dof) ∈ r.incident.zipIdx :=
      Array.mem_zipIdx_iff_getElem?.mpr (incident_getElem? hdof)
    simpa using Array.find?_eq_none.mp hfind _ hmem

/-- The incidence of `dof`, by element and slot. -/
theorem incidence_eq_ok {dof : Nat} (h : dof < r.numDofs) :
    r.incidence dof = .ok ((r.references dof).map fun (element, slot) =>
      (element, (r.dof element slot).withIndex slot)) := by
  simp only [incidence, incidentIndices, incident_getElem? h, Word.orFault_some, Except.map,
    List.map_map]
  congr 1
  apply List.map_congr_left
  rintro ⟨element, slot⟩ hmem
  obtain ⟨he, hs, -⟩ := mem_references.mp hmem
  have hposition := position_lt_signedBound he hs
  have hpos : 0 < r.slots := by omega
  simp only [Function.comp, SignedIndex.index_withIndex _ hposition,
    SignedIndex.withIndex_withIndex _ hposition, Nat.mul_add_mod, Nat.mod_eq_of_lt hs]
  rw [Nat.mul_add_div hpos, Nat.div_eq_of_lt hs, Nat.add_zero]

theorem slot_lt_signedBound {element slot : Nat} (he : element < r.numElements)
    (hs : slot < r.slots) : slot < Word.signedBound := by
  have := position_lt_signedBound he hs
  omega

/-! ## Election -/

/-- The least element that references both `a` and `b` is `element`. -/
def IsFirstCommon (r : Restriction) (a b element : Nat) : Prop :=
  r.References element a ∧ r.References element b ∧
    ∀ other, r.References other a → r.References other b → element ≤ other

theorem IsFirstCommon.unique {a b element other : Nat} (h : r.IsFirstCommon a b element)
    (h' : r.IsFirstCommon a b other) : element = other :=
  Nat.le_antisymm (h.2.2 other h'.1 h'.2.1) (h'.2.2 element h.1 h.2.1)

theorem IsFirstCommon.symm {a b element : Nat} (h : r.IsFirstCommon a b element) :
    r.IsFirstCommon b a element :=
  ⟨h.2.1, h.1, fun other hb ha => h.2.2 other ha hb⟩

/-- The element that is elected for `a` and `b`: the first that a merge of their elements finds. -/
def elected (r : Restriction) (a b : Nat) : Option Nat :=
  firstShared ((r.references a).map Prod.fst) ((r.references b).map Prod.fst)

theorem firstCommonElement_eq_ok {a b : Nat} (ha : a < r.numDofs) (hb : b < r.numDofs) :
    r.firstCommonElement a b = .ok (r.elected a b) := by
  simp [firstCommonElement, incidence_eq_ok ha, incidence_eq_ok hb, elected, bind, Except.bind,
    pure, Except.pure, Function.comp_def]

theorem elected_eq_some_iff {a b element : Nat} :
    r.elected a b = some element ↔ r.IsFirstCommon a b element := by
  unfold elected
  rw [firstShared_eq_some_iff (pairwise_fst_references a) (pairwise_fst_references b)]
  simp only [mem_map_fst_references, IsFirstCommon]

instance (a b element : Nat) : Decidable (r.IsFirstCommon a b element) :=
  decidable_of_iff (r.elected a b = some element) elected_eq_some_iff

theorem exists_isFirstCommon {a b element : Nat} (ha : r.References element a)
    (hb : r.References element b) : ∃ first, r.IsFirstCommon a b first := by
  cases h : r.elected a b with
  | none =>
    have := (firstShared_eq_none_iff (pairwise_fst_references a) (pairwise_fst_references b)).mp h
    exact absurd (mem_map_fst_references.mpr hb) (this element (mem_map_fst_references.mpr ha))
  | some first => exact ⟨first, elected_eq_some_iff.mp h⟩

end Restriction

end FemAssembly
