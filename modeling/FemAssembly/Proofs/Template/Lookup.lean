import FemAssembly.Template

/-!
# Reading a template row

A row of a template lists a column at most once, so looking a column up finds the only candidate
that names it.

* `Template.Lists`, `Template.listed`: whether a row lists a column, and at which candidate.
* `Template.rowColumns_eq_ok`, `mem_presentColumns`: the present candidates of a row.
* `Template.findSlot_eq_ok`, `Template.listed_eq_some_iff`: the candidate that is found is the one
  that names the column.
* `Template.readsBack`: how the three ways to read a template belong together.
* `Template.exists_ofMapping_iff`: the tables that make a template.
* `Template.lists_of_dense`: a dense template lists every column.
-/

namespace FemAssembly

theorem mem_presentColumns {candidates : List (Option Nat)} {k column : Nat} :
    (k, column) ∈ presentColumns candidates ↔ candidates[k]? = some (some column) := by
  simp only [presentColumns, List.mem_filterMap, Prod.exists, List.mem_zipIdx_iff_getElem?,
    Option.map_eq_some_iff, Prod.mk.injEq]
  constructor
  · rintro ⟨_, _, h, c, rfl, rfl, rfl⟩
    exact h
  · intro h
    exact ⟨_, _, h, column, rfl, rfl, rfl⟩

/-- The present ones of `candidates` come in the order of their positions. -/
theorem pairwise_presentColumns (candidates : List (Option Nat)) :
    (presentColumns candidates).Pairwise fun a b => a.1 < b.1 := by
  have hk : candidates.zipIdx.Pairwise fun a b => a.2 < b.2 := by
    apply List.pairwise_map.mp
    rw [List.zipIdx_map_snd]
    exact List.pairwise_lt_range'
  apply List.pairwise_filterMap.mpr
  apply hk.imp
  intro a b hab x hx y hy
  obtain ⟨_, -, rfl⟩ := Option.map_eq_some_iff.mp hx
  obtain ⟨_, -, rfl⟩ := Option.map_eq_some_iff.mp hy
  exact hab

/-- The present ones of `candidates` name distinct columns if and only if two positions `k` and `k'`
that name one column are the same. -/
theorem nodup_present_iff {candidates : List (Option Nat)} :
    (candidates.filterMap id).Nodup ↔ ∀ k k' column : Nat, candidates[k]? = some (some column) →
      candidates[k']? = some (some column) → k = k' := by
  rw [List.Nodup, List.pairwise_filterMap, List.pairwise_iff_getElem]
  simp only [id]
  constructor
  · intro hne k k' column hk hk'
    obtain ⟨hlt, hcolumn⟩ := List.getElem?_eq_some_iff.mp hk
    obtain ⟨hlt', hcolumn'⟩ := List.getElem?_eq_some_iff.mp hk'
    rcases Nat.lt_trichotomy k k' with hkk' | heq | hkk'
    · exact absurd rfl (hne k k' hlt hlt' hkk' column hcolumn column hcolumn')
    · exact heq
    · exact absurd rfl (hne k' k hlt' hlt hkk' column hcolumn' column hcolumn)
  · rintro hsame k k' hlt hlt' hkk' column hcolumn _ hcolumn' rfl
    have hk := List.getElem?_eq_some_iff.mpr ⟨hlt, hcolumn⟩
    have hk' := List.getElem?_eq_some_iff.mpr ⟨hlt', hcolumn'⟩
    exact Nat.ne_of_lt hkk' (hsame k k' column hk hk')

/-- Piece `i` of a list of pieces `f x` that all have the length `width`. -/
theorem take_drop_flatMap {β γ : Type} {width : Nat} {list : List γ} {f : γ → List β}
    (hf : ∀ x, (f x).length = width) {i : Nat} (hi : i < list.length) :
    ((list.flatMap f).drop (width * i)).take width = f list[i] := by
  induction list generalizing i with
  | nil => cases hi
  | cons x list ih =>
    rw [List.flatMap_cons]
    cases i with
    | zero => simp [hf]
    | succ i =>
      have hdrop : width * (i + 1) = (f x).length + width * i := by
        rw [hf, Nat.mul_succ, Nat.add_comm]
      rw [hdrop, List.drop_length_add_append, List.getElem_cons_succ]
      exact ih (by simpa using hi)

theorem getElem?_flatMap {β : Type} {width n : Nat} {f : Nat → List β}
    (hf : ∀ x, (f x).length = width) {i k : Nat} (hi : i < n) (hk : k < width) :
    ((List.range n).flatMap f)[width * i + k]? = (f i)[k]? := by
  have hpiece := take_drop_flatMap hf (show i < (List.range n).length by simpa)
  rw [List.getElem_range] at hpiece
  rw [← hpiece, List.getElem?_take, if_pos hk, List.getElem?_drop]

namespace Template

variable (t : Template)

/-- The template `t` lists `column` in `row`. -/
def Lists (row column : Nat) : Prop := some column ∈ rowOf t.width t.mapping row

instance (row column : Nat) : Decidable (t.Lists row column) :=
  inferInstanceAs (Decidable (_ ∈ _))

/-- The candidate of `row` that names `column`. -/
def listed (row column : Nat) : Option Nat :=
  (rowOf t.width t.mapping row).findIdx? (· == some column)

variable {t}

theorem rowColumns_eq_ok {row : Nat} (h : row < t.slots) :
    t.rowColumns row = .ok (presentColumns (rowOf t.width t.mapping row)) := by
  rw [rowColumns, row_eq_ok t h]
  rfl

theorem findSlot_eq_ok {row : Nat} (h : row < t.slots) (column : Nat) :
    t.findSlot row column = .ok (t.listed row column) := by
  rw [findSlot, row_eq_ok t h]
  rfl

theorem getElem?_rowOf {width row k : Nat} {mapping : Array (Option Nat)} (hk : k < width) :
    (rowOf width mapping row)[k]? = mapping[width * row + k]? := by
  simp [rowOf, hk]

/-- Inside a row, the table of `t` is read at the candidates of the row. -/
theorem candidate_eq {row k : Nat} (hk : k < t.width) :
    t.candidate row k = Word.orFault (rowOf t.width t.mapping row)[k]? := by
  rw [candidate, getElem?_rowOf hk]

theorem lt_width_of_getElem? {width row k : Nat} {mapping : Array (Option Nat)}
    {candidate : Option Nat} (h : (rowOf width mapping row)[k]? = some candidate) : k < width := by
  obtain ⟨hk, -⟩ := List.getElem?_eq_some_iff.mp h
  simp only [rowOf, Array.length_toList, Array.size_extract] at hk
  omega

/-- Candidate `k` of `row` names `column`, read in the row and in the table. -/
theorem getElem?_eq_some_some_iff {row k column : Nat} :
    (rowOf t.width t.mapping row)[k]? = some (some column) ↔
      k < t.width ∧ t.candidate row k = .ok (some column) := by
  have hread : ∀ {x : Option (Option Nat)}, Word.orFault x = .ok (some column) ↔
      x = some (some column) := by
    intro x
    cases x <;> simp
  constructor
  · intro h
    have hk := lt_width_of_getElem? h
    exact ⟨hk, by rw [candidate_eq hk, hread, h]⟩
  · rintro ⟨hk, h⟩
    rwa [candidate_eq hk, hread] at h

theorem column_lt_of_getElem? {row k column : Nat}
    (h : (rowOf t.width t.mapping row)[k]? = some (some column)) : column < t.slots := by
  apply t.column_lt
  have hmem := List.mem_of_getElem? h
  rw [rowOf, Array.mem_toList_iff, Array.mem_extract_iff_getElem] at hmem
  obtain ⟨k, hk, hcolumn⟩ := hmem
  exact hcolumn ▸ Array.getElem_mem _

theorem listed_eq_some_iff {row : Nat} (hrow : row < t.slots) {column k : Nat} :
    t.listed row column = some k ↔ (rowOf t.width t.mapping row)[k]? = some (some column) := by
  constructor
  · intro h
    obtain ⟨hk, hcolumn, -⟩ := List.findIdx?_eq_some_iff_getElem.mp h
    rw [List.getElem?_eq_getElem hk, beq_iff_eq.mp hcolumn]
  · intro h
    have hsome : (t.listed row column).isSome := by
      rw [listed, List.findIdx?_isSome, List.any_eq_true]
      exact ⟨some column, List.mem_of_getElem? h, by simp⟩
    obtain ⟨k', hk'⟩ := Option.isSome_iff_exists.mp hsome
    obtain ⟨hlt, hcolumn, -⟩ := List.findIdx?_eq_some_iff_getElem.mp hk'
    have h' : (rowOf t.width t.mapping row)[k']? = some (some column) := by
      rw [List.getElem?_eq_getElem hlt, beq_iff_eq.mp hcolumn]
    rw [hk', nodup_present_iff.mp (t.nodup row hrow) k k' column h h']

theorem listed_eq_none_iff {row column : Nat} :
    t.listed row column = none ↔ ¬ t.Lists row column := by
  unfold listed Lists
  rw [List.findIdx?_eq_none_iff]
  constructor
  · intro h hmem
    simpa using h _ hmem
  · intro h candidate hmem
    refine beq_eq_false_iff_ne.mpr ?_
    rintro rfl
    exact h hmem

/-- A row lists `column` if one of its candidates `k` names it. -/
theorem lists_iff_exists {row column : Nat} :
    t.Lists row column ↔ ∃ k : Nat, (rowOf t.width t.mapping row)[k]? = some (some column) :=
  List.mem_iff_getElem?

/-- The three ways to read `t`: by candidate, by row, and backwards. -/
structure ReadsBack (t : Template) : Prop where
  candidate_eq : ∀ row < t.slots, ∀ k < t.width, ∃ column,
    t.mapping[t.width * row + k]? = some column ∧ t.candidate row k = .ok column
  findSlot_eq : ∀ row < t.slots, ∀ column < t.slots, ∃ found, t.findSlot row column = .ok found ∧
    ∀ k, found = some k ↔ k < t.width ∧ t.candidate row k = .ok (some column)
  rowColumns_eq : ∀ row < t.slots, ∃ columns, t.rowColumns row = .ok columns ∧
    columns.Pairwise (fun x y => x.1 < y.1) ∧
    ∀ k column, (k, column) ∈ columns ↔ k < t.width ∧ t.candidate row k = .ok (some column)

/-- Every row of `t` can be read at all of its candidates. -/
theorem exists_getElem? {row k : Nat} (hrow : row < t.slots) (hk : k < t.width) :
    ∃ column, t.mapping[t.width * row + k]? = some column := by
  have hplace : t.width * row + k < t.mapping.size := by
    have := Nat.mul_le_mul_left t.width (Nat.succ_le_of_lt hrow)
    rw [Nat.mul_succ] at this
    rw [t.size_eq, Nat.mul_comm t.slots]
    omega
  exact ⟨_, Array.getElem?_eq_getElem hplace⟩

theorem readsBack (t : Template) : t.ReadsBack where
  candidate_eq row hrow k hk := by
    obtain ⟨column, hcolumn⟩ := exists_getElem? hrow hk
    exact ⟨column, hcolumn, by rw [candidate, hcolumn, Word.orFault_some]⟩
  findSlot_eq row hrow column _ := ⟨_, findSlot_eq_ok hrow column, fun k => by
    rw [listed_eq_some_iff hrow, getElem?_eq_some_some_iff]⟩
  rowColumns_eq row hrow := ⟨_, rowColumns_eq_ok hrow, pairwise_presentColumns _,
    fun k column => mem_presentColumns.trans getElem?_eq_some_some_iff⟩

/-! ## Tables -/

theorem of_ofMapping_eq_ok {slots width : Nat} {mapping : Array (Option Nat)}
    (h : ofMapping slots width mapping = .ok t) :
    t.slots = slots ∧ t.width = width ∧ t.mapping = mapping := by
  unfold ofMapping at h
  cases hmul : Word.mul slots width with
  | error error =>
    rw [hmul] at h
    cases h
  | ok size =>
    simp only [hmul, bind, Except.bind] at h
    split at h
    · split at h
      · cases h
      · split at h
        · cases h
        · cases h
          exact ⟨rfl, rfl, rfl⟩
    · cases h

/-- A table `mapping` without mistakes whose size fits makes a template. -/
theorem exists_ofMapping {slots width : Nat} {mapping : Array (Option Nat)}
    (hword : slots * width < Word.bound) (hsize : mapping.size = slots * width)
    (hlt : ∀ c, some c ∈ mapping → c < slots)
    (hnodup : ∀ r < slots, ((rowOf width mapping r).filterMap id).Nodup) :
    ∃ t, ofMapping slots width mapping = .ok t ∧ t.slots = slots ∧ t.width = width ∧
      t.mapping = mapping := by
  have hrepeat : firstRepeat slots width mapping = none := by
    unfold firstRepeat
    split
    · rfl
    · rw [List.find?_eq_none]
      intro r hr
      simpa using repeatsValue_eq_false_iff.mpr (hnodup r (List.mem_range.mp hr))
  obtain ⟨t, ht⟩ : ∃ t, ofMapping slots width mapping = .ok t := by
    unfold ofMapping
    simp only [Word.mul_eq_ok hword, bind, Except.bind]
    rw [dif_pos hsize]
    split
    · rename_i column hfind
      have hmem := Array.mem_of_find?_eq_some hfind
      have hcolumn := Array.find?_some hfind
      cases column with
      | none => simp at hcolumn
      | some c =>
        have := hlt c hmem
        simp at hcolumn
        omega
    · split
      · rename_i hrep
        rw [hrepeat] at hrep
        cases hrep
      · exact ⟨_, rfl⟩
  exact ⟨t, ht, of_ofMapping_eq_ok ht⟩

/-- A table `mapping` whose entries are counted by a word makes a template if and only if it has one
entry for each candidate, its columns are slots, and no row names a column twice. -/
theorem exists_ofMapping_iff {slots width : Nat} {mapping : Array (Option Nat)}
    (hword : mapping.size < Word.bound) :
    (∃ t, ofMapping slots width mapping = .ok t) ↔ mapping.size = slots * width ∧
      (∀ c, some c ∈ mapping → c < slots) ∧
      ∀ r < slots, ∀ k < width, ∀ k' < width, ∀ c, mapping[width * r + k]? = some (some c) →
        mapping[width * r + k']? = some (some c) → k = k' := by
  constructor
  · rintro ⟨t, ht⟩
    obtain ⟨rfl, rfl, rfl⟩ := of_ofMapping_eq_ok ht
    refine ⟨t.size_eq, t.column_lt, fun r hr k hk k' hk' c h h' => ?_⟩
    rw [← getElem?_rowOf hk] at h
    rw [← getElem?_rowOf hk'] at h'
    exact nodup_present_iff.mp (t.nodup r hr) k k' c h h'
  · rintro ⟨hsize, hlt, hdistinct⟩
    have hnodup : ∀ r < slots, ((rowOf width mapping r).filterMap id).Nodup := by
      intro r hr
      refine nodup_present_iff.mpr fun k k' c h h' => ?_
      have hk := lt_width_of_getElem? h
      have hk' := lt_width_of_getElem? h'
      rw [getElem?_rowOf hk] at h
      rw [getElem?_rowOf hk'] at h'
      exact hdistinct r hr k hk k' hk' c h h'
    obtain ⟨t, ht, -⟩ := exists_ofMapping (hsize ▸ hword) hsize hlt hnodup
    exact ⟨t, ht⟩

/-! ## Dense templates -/

/-- Row `row` of a table that is given row by row, by `f`. -/
theorem rowOf_flatMap {slots width : Nat} {f : Nat → List (Option Nat)}
    (hf : ∀ x, (f x).length = width) {row : Nat} (hrow : row < slots) :
    rowOf width ((List.range slots).flatMap f).toArray row = f row := by
  have hpiece := take_drop_flatMap hf (show row < (List.range slots).length by simpa)
  rw [List.getElem_range] at hpiece
  refine Eq.trans ?_ hpiece
  simp [rowOf]

/-- Every row of the dense template lists every `column`. -/
theorem lists_of_dense {slots : Nat} (h : dense slots = .ok t) {row column : Nat}
    (hrow : row < slots) (hcolumn : column < slots) : t.Lists row column := by
  unfold dense at h
  cases hreserve : Word.reserve slots 16 with
  | error error =>
    rw [hreserve] at h
    cases h
  | ok _ =>
    simp only [hreserve, bind, Except.bind] at h
    obtain ⟨-, hwidth, hmapping⟩ := of_ofMapping_eq_ok h
    have hlength : ∀ x : Nat, ((List.range slots).map some).length = slots := by simp
    have hlist : rowOf t.width t.mapping row = (List.range slots).map some := by
      rw [hwidth, hmapping, rowOf_flatMap hlength hrow]
    rw [Lists, hlist]
    exact List.mem_map.mpr ⟨column, List.mem_range.mpr hcolumn, rfl⟩

end Template

end FemAssembly
