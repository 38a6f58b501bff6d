import FemAssembly.Element.Kernel
import FemAssembly.Proofs.Element.Values
import Mathlib

/-!
# Tabulated matrices

One dense matrix for each element is read through the template and written into one list of values.
Each present candidate of the template has one position in the values of an element, so nothing is
written twice, and what is not written stays zero.

* `ElementValues.put`: a value written at a position. `ElementValues.getElem?_foldl_put`: what a
  position holds after many writes that agree on it.
* `LocalMatrices.writes`: what one element writes. `LocalMatrices.ofElementMatrices_eq`: either a
  matrix has the wrong shape, or all elements make their writes.
* `LocalMatrices.Tabulates`: values that hold the matrices of the elements.
* `LocalMatrices.ofMapping_tabulates`: the templates of all tables, and the matrices read through
  them.
-/

namespace FemAssembly

variable {α : Type}

/-! ## Writes -/

namespace ElementValues

variable {v z : ElementValues α}

/-- Write the value `w.2` at the position `w.1`, if it is there. -/
def put (v : ElementValues α) (w : Nat × α) : ElementValues α where
  width := v.width
  slots := v.slots
  numElements := v.numElements
  data := v.data.setIfInBounds w.1 w.2
  size_eq := by rw [Array.size_setIfInBounds, v.size_eq]

theorem SameShape.put (h : z.SameShape v) (w : Nat × α) : z.SameShape (v.put w) := h

theorem SameShape.foldl_put (h : z.SameShape v) (writes : List (Nat × α)) :
    z.SameShape (writes.foldl ElementValues.put v) := by
  induction writes generalizing v with
  | nil => exact h
  | cons w writes ih => exact ih (h.put w)

theorem set_eq_ok {k row element : Nat} (hk : k < v.width) (hrow : row < v.slots)
    (he : element < v.numElements) (value : α) :
    v.set k row element value = .ok (v.put (v.position k row element, value)) :=
  if_pos (v.size_eq ▸ position_lt hk hrow he)

/-- A `position` that is written holds the value `x` on which its `writes` agree, and the others
keep what they held. -/
theorem getElem?_foldl_put {writes : List (Nat × α)} {v : ElementValues α} {position : Nat} {x : α}
    (hagree : ∀ w ∈ writes, w.1 = position → w.2 = x) (hposition : position < v.data.size) :
    (writes.foldl put v).data[position]? =
      if position ∈ writes.map Prod.fst then some x else v.data[position]? := by
  induction writes generalizing v with
  | nil => simp
  | cons w writes ih =>
    obtain ⟨hw, hrest⟩ := List.forall_mem_cons.mp hagree
    have hput : (v.put w).data[position]? = if w.1 = position then some x
        else v.data[position]? := by
      rw [put, Array.getElem?_setIfInBounds]
      by_cases h : w.1 = position
      · rw [if_pos h, if_pos h, if_pos (h ▸ hposition), hw h]
      · rw [if_neg h, if_neg h]
    have hmem : position ∈ (w :: writes).map Prod.fst ↔
        w.1 = position ∨ position ∈ writes.map Prod.fst :=
      List.mem_cons.trans (or_congr_left eq_comm)
    rw [List.foldl_cons, ih hrest (by simpa [put] using hposition), hput]
    by_cases h : w.1 = position
    · simp only [hmem, h, true_or, if_true, ite_self]
    · simp only [hmem, h, false_or, if_false]

end ElementValues

/-! ## Elements -/

namespace LocalMatrices

open ElementValues (put SameShape)

variable {t : Template}

/-- The `matrix` has one row and one column for each slot of `t`. -/
def Fits (t : Template) (matrix : ElementMatrix α) : Prop :=
  matrix.rows = t.slots ∧ matrix.columns = t.slots

instance (t : Template) (matrix : ElementMatrix α) : Decidable (Fits t matrix) :=
  inferInstanceAs (Decidable (_ ∧ _))

theorem Fits.exists_entry {matrix : ElementMatrix α} (h : Fits t matrix) {row column : Nat}
    (hrow : row < t.slots) (hcolumn : column < t.slots) :
    ∃ value, matrix.entry? row column = some value := by
  have hrow' : row < matrix.rows := h.1 ▸ hrow
  have hcolumn' : column < matrix.columns := h.2 ▸ hcolumn
  exact ⟨matrix.entries[row][column], by simp [ElementMatrix.entry?, hrow', hcolumn']⟩

variable [Zero α]

/-- What `element` writes: for every candidate of `t` that is present, its entry of `matrix`. -/
def writes (t : Template) (matrix : ElementMatrix α) (element : Nat) : List (Nat × α) :=
  (List.range t.slots).flatMap fun row =>
    (presentColumns (Template.rowOf t.width t.mapping row)).map fun (k, column) =>
      (k + t.width * (row + t.slots * element), (matrix.entry? row column).getD 0)

theorem tabulateElement_eq {matrix : ElementMatrix α} (h : Fits t matrix) {element : Nat}
    {v : ElementValues α} (hwidth : v.width = t.width) (hslots : v.slots = t.slots)
    (he : element < v.numElements) :
    tabulateElement t matrix element v = .ok ((writes t matrix element).foldl put v) := by
  rw [writes, List.foldl_flatMap]
  refine foldlM_eq_ok_foldl_of_invariant (I := SameShape v) (fun current hcurrent row hrow => ?_)
    (fun current row hcurrent => hcurrent.foldl_put _) ⟨rfl, rfl, rfl⟩
  have hrow := List.mem_range.mp hrow
  rw [Template.rowColumns_eq_ok hrow, List.foldl_map]
  refine foldlM_eq_ok_foldl_of_invariant (I := SameShape v) (fun current hcurrent kc hkc => ?_)
    (fun current kc hcurrent => hcurrent.put _) hcurrent
  obtain ⟨k, column⟩ := kc
  obtain ⟨hw, hs, hn⟩ := hcurrent
  have hnames := mem_presentColumns.mp hkc
  have hk := Template.lt_width_of_getElem? hnames
  obtain ⟨value, hvalue⟩ := h.exists_entry hrow (Template.column_lt_of_getElem? hnames)
  simp only [hvalue, Word.orFault_some, Option.getD_some, bind, Except.bind]
  rw [ElementValues.set_eq_ok (hw ▸ hwidth ▸ hk) (hs ▸ hslots ▸ hrow) (hn ▸ he),
    ElementValues.position, hw, hs, hwidth, hslots]

/-- What the element `m.2` writes, or what is wrong with its matrix `m.1`. -/
def writes? (t : Template) (m : ElementMatrix α × Nat) : Except Error (List (Nat × α)) :=
  if Fits t m.1 then .ok (writes t m.1 m.2)
  else .error (.kernelSetup (.matrixShape m.2 m.1.rows m.1.columns t.slots))

/-- The turn of the element `m.2` with the matrix `m.1`. -/
def tabulateFitting (t : Template) (v : ElementValues α) (m : ElementMatrix α × Nat) :
    Except Error (ElementValues α) :=
  if Fits t m.1 then tabulateElement t m.1 m.2 v
  else .error (.kernelSetup (.matrixShape m.2 m.1.rows m.1.columns t.slots))

theorem tabulateFitting_eq {v : ElementValues α} (hwidth : v.width = t.width)
    (hslots : v.slots = t.slots) {m : ElementMatrix α × Nat} (hm : m.2 < v.numElements) :
    tabulateFitting t v m = (writes? t m).map fun list => list.foldl put v := by
  by_cases hfits : Fits t m.1
  · rw [tabulateFitting, writes?, if_pos hfits, if_pos hfits]
    exact tabulateElement_eq hfits hwidth hslots hm
  · rw [tabulateFitting, writes?, if_neg hfits, if_neg hfits]
    rfl

/-- Either one of the `matrices` has the wrong shape, or all elements make their writes. -/
theorem ofElementMatrices_eq {matrices : List (ElementMatrix α)} {z : ElementValues α}
    (hz : ElementValues.zeros t.width t.slots matrices.length = .ok z) :
    ofElementMatrices t matrices =
      (matrices.zipIdx.mapM (writes? t)).map fun lists => ⟨t, lists.flatten.foldl put z⟩ := by
  obtain ⟨-, hwidth, hslots, helements, -⟩ := ElementValues.of_zeros_eq_ok hz
  have hturns : ofElementMatrices t matrices =
      matrices.zipIdx.foldlM (tabulateFitting t) z >>= tabulated t := by
    rw [ofElementMatrices, bind_of_eq_ok hz]
    rfl
  have hturn : ∀ v, z.SameShape v → ∀ m ∈ matrices.zipIdx,
      tabulateFitting t v m = (writes? t m).map fun list => list.foldl put v := by
    rintro v ⟨hw, hs, hn⟩ m hm
    obtain ⟨he, -⟩ := List.getElem?_eq_some_iff.mp (List.mem_zipIdx_iff_getElem?.mp hm)
    exact tabulateFitting_eq (hw.trans hwidth) (hs.trans hslots) (by omega)
  rw [hturns, foldlM_eq_map_mapM_of_invariant hturn (fun v list hv => hv.foldl_put list)
    ⟨rfl, rfl, rfl⟩]
  cases matrices.zipIdx.mapM (writes? t) with
  | error error => rfl
  | ok lists =>
    have hshape : SameShape z (lists.foldl (fun v list => list.foldl put v) z) := by
      rw [← List.foldl_flatten]
      exact SameShape.foldl_put ⟨rfl, rfl, rfl⟩ _
    obtain ⟨hw, hs, -⟩ := hshape
    simp only [Except.map, bind, Except.bind, List.foldl_flatten]
    exact if_pos ⟨(hw.trans hwidth).symm, (hs.trans hslots).symm⟩

/-- A position of `element` is written if its candidate `k` is present, with the entry of `matrix`
at the row and the column of the candidate. -/
theorem mem_writes {matrix : ElementMatrix α} {element : Nat} {w : Nat × α} :
    w ∈ writes t matrix element ↔ ∃ row < t.slots, ∃ k column,
      (Template.rowOf t.width t.mapping row)[k]? = some (some column) ∧
      w = (k + t.width * (row + t.slots * element), (matrix.entry? row column).getD 0) := by
  simp only [writes, List.mem_flatMap, List.mem_range, List.mem_map, Prod.exists,
    mem_presentColumns]
  constructor
  · rintro ⟨row, hrow, k, column, hnames, rfl⟩
    exact ⟨row, hrow, k, column, hnames, rfl⟩
  · rintro ⟨row, hrow, k, column, hnames, rfl⟩
    exact ⟨row, hrow, k, column, hnames, rfl⟩

/-- The values of `L` hold the `matrices` of the elements, as far as `t` lists their entries. -/
structure Tabulates (L : LocalMatrices α) (t : Template) (matrices : List (ElementMatrix α)) :
    Prop where
  template_eq : L.template = t
  width_eq : L.values.width = t.width
  slots_eq : L.values.slots = t.slots
  numElements_eq : L.values.numElements = matrices.length
  get_of_findSlot : ∀ e matrix, matrices[e]? = some matrix → ∀ row < t.slots, ∀ column k,
    t.findSlot row column = .ok (some k) →
    ∃ value, matrix.entry? row column = some value ∧ L.values.get k row e = .ok value
  get_of_absent : ∀ e < matrices.length, ∀ row < t.slots, ∀ k < t.width,
    t.candidate row k = .ok none → L.values.get k row e = .ok 0

/-- The writes of all `matrices`, element by element. -/
def allWrites (t : Template) (matrices : List (ElementMatrix α)) : List (Nat × α) :=
  (matrices.zipIdx.map fun m => writes t m.1 m.2).flatten

/-- Where the position of candidate `k` of `row` of element `e` is written, it is by its own element
and candidate. -/
theorem mem_allWrites {matrices : List (ElementMatrix α)} {e row k : Nat} (hrow : row < t.slots)
    (hk : k < t.width) {x : α} :
    (k + t.width * (row + t.slots * e), x) ∈ allWrites t matrices ↔ ∃ matrix column,
      matrices[e]? = some matrix ∧
      (Template.rowOf t.width t.mapping row)[k]? = some (some column) ∧
      x = (matrix.entry? row column).getD 0 := by
  simp only [allWrites, List.mem_flatten, List.mem_map, Prod.exists, List.mem_zipIdx_iff_getElem?]
  constructor
  · rintro ⟨_, ⟨matrix, e', hmatrix, rfl⟩, hw⟩
    obtain ⟨row', hrow', k', column, hnames, hw⟩ := mem_writes.mp hw
    obtain ⟨hplace, rfl⟩ := Prod.mk.inj hw
    obtain ⟨rfl, hrows⟩ := (place_eq_iff hk (Template.lt_width_of_getElem? hnames)).mp hplace
    obtain ⟨rfl, rfl⟩ := (place_eq_iff hrow hrow').mp hrows
    exact ⟨matrix, column, hmatrix, hnames, rfl⟩
  · rintro ⟨matrix, column, hmatrix, hnames, rfl⟩
    exact ⟨_, ⟨matrix, e, hmatrix, rfl⟩, mem_writes.mpr ⟨row, hrow, k, column, hnames, rfl⟩⟩

/-- The writes of `matrices` that fit leave the matrices of the elements. -/
theorem tabulates_allWrites {matrices : List (ElementMatrix α)} {z : ElementValues α}
    (hz : ElementValues.zeros t.width t.slots matrices.length = .ok z)
    (hfits : ∀ matrix ∈ matrices, Fits t matrix) :
    Tabulates ⟨t, (allWrites t matrices).foldl put z⟩ t matrices := by
  obtain ⟨-, hwidth, hslots, helements, hdata⟩ := ElementValues.of_zeros_eq_ok hz
  obtain ⟨hw, hs, hn⟩ : SameShape z ((allWrites t matrices).foldl put z) :=
    SameShape.foldl_put ⟨rfl, rfl, rfl⟩ _
  have hget : ∀ {e row k : Nat} {x : α}, e < matrices.length → row < t.slots → k < t.width →
      (∀ y, (k + t.width * (row + t.slots * e), y) ∈ allWrites t matrices → y = x) →
      ((allWrites t matrices).foldl put z).get k row e = .ok (if k + t.width * (row + t.slots * e) ∈
        (allWrites t matrices).map Prod.fst then x else 0) := by
    intro e row k x he hrow hk hagree
    have hposition : k + t.width * (row + t.slots * e) < t.width * t.slots * matrices.length := by
      have := ElementValues.position_lt (v := z) (hwidth ▸ hk) (hslots ▸ hrow) he
      rwa [ElementValues.position, hwidth, hslots] at this
    have hsize : k + t.width * (row + t.slots * e) < z.data.size := by
      rwa [hdata, Array.size_replicate]
    have hwrites : ∀ w ∈ allWrites t matrices, w.1 = k + t.width * (row + t.slots * e) →
        w.2 = x := by
      rintro ⟨_, y⟩ hmem rfl
      exact hagree y hmem
    rw [ElementValues.get, ElementValues.position, hw, hs, hwidth, hslots,
      ElementValues.getElem?_foldl_put hwrites hsize]
    split
    · rfl
    · simp [hdata, hposition]
  refine ⟨rfl, hw.trans hwidth, hs.trans hslots, hn.trans helements,
    fun e matrix hmatrix row hrow column k hfound => ?_, fun e he row hrow k hk habsent => ?_⟩
  · rw [Template.findSlot_eq_ok hrow, Except.ok.injEq, Template.listed_eq_some_iff hrow] at hfound
    obtain ⟨value, hvalue⟩ := (hfits matrix (List.mem_of_getElem? hmatrix)).exists_entry hrow
      (Template.column_lt_of_getElem? hfound)
    have hk := Template.lt_width_of_getElem? hfound
    have hwritten : (k + t.width * (row + t.slots * e), value) ∈ allWrites t matrices :=
      (mem_allWrites hrow hk).mpr ⟨matrix, column, hmatrix, hfound, by rw [hvalue]; rfl⟩
    refine ⟨value, hvalue, ?_⟩
    rw [hget (List.getElem?_eq_some_iff.mp hmatrix).1 hrow hk fun y hy => ?_,
      if_pos (List.mem_map.mpr ⟨_, hwritten, rfl⟩)]
    obtain ⟨matrix', column', hmatrix', hnames', rfl⟩ := (mem_allWrites hrow hk).mp hy
    obtain rfl := Option.some.inj (hmatrix.symm.trans hmatrix')
    obtain rfl := Option.some.inj (Option.some.inj (hfound.symm.trans hnames'))
    rw [hvalue]
    rfl
  · have hnone : ∀ y, (k + t.width * (row + t.slots * e), y) ∉ allWrites t matrices := by
      intro y hy
      obtain ⟨_, column, -, hnames, -⟩ := (mem_allWrites hrow hk).mp hy
      rw [(Template.getElem?_eq_some_some_iff.mp hnames).2] at habsent
      cases habsent
    rw [hget (x := 0) he hrow hk fun y hy => absurd hy (hnone y), if_neg]
    intro hmem
    obtain ⟨⟨_, y⟩, hy, rfl⟩ := List.mem_map.mp hmem
    exact hnone y hy

/-- The two matrices have the same shape, and the same entries where `t` lists them. -/
structure SameThrough (t : Template) (matrix matrix' : ElementMatrix α) : Prop where
  rows_eq : matrix'.rows = matrix.rows
  columns_eq : matrix'.columns = matrix.columns
  entry_eq : ∀ row < t.slots, ∀ column k, t.findSlot row column = .ok (some k) →
    matrix'.entry? row column = matrix.entry? row column

omit [Zero α] in
theorem SameThrough.fits_iff {matrix matrix' : ElementMatrix α} (h : SameThrough t matrix matrix') :
    Fits t matrix' ↔ Fits t matrix := by
  rw [Fits, Fits, h.rows_eq, h.columns_eq]

theorem SameThrough.writes_eq {matrix matrix' : ElementMatrix α} (h : SameThrough t matrix matrix')
    (element : Nat) : writes t matrix' element = writes t matrix element := by
  refine congrArg List.flatten (List.map_congr_left fun row hrow => ?_)
  refine List.map_congr_left fun ⟨k, column⟩ hkc => ?_
  have hrow := List.mem_range.mp hrow
  have hlisted := (Template.listed_eq_some_iff hrow).mpr (mem_presentColumns.mp hkc)
  simp only [h.entry_eq row hrow column k (by rw [Template.findSlot_eq_ok hrow, hlisted])]

theorem SameThrough.writes?_eq {matrix matrix' : ElementMatrix α} (h : SameThrough t matrix matrix')
    (element : Nat) : writes? t (matrix', element) = writes? t (matrix, element) := by
  simp only [writes?, h.fits_iff, h.writes_eq, h.rows_eq, h.columns_eq]

/-- Entries outside of `t` have no influence: `matrices` and `matrices'` differ in these only, and
are tabulated alike. -/
theorem ofElementMatrices_congr {matrices matrices' : List (ElementMatrix α)}
    (hlength : matrices'.length = matrices.length)
    (hsame : ∀ (e : Nat) matrix matrix', matrices[e]? = some matrix → matrices'[e]? = some matrix' →
      SameThrough t matrix matrix') :
    ofElementMatrices t matrices' = ofElementMatrices t matrices := by
  have hwrites : matrices'.zipIdx.map (writes? t) = matrices.zipIdx.map (writes? t) := by
    refine List.ext_getElem (by simpa using hlength) fun e he he' => ?_
    simp only [List.getElem_map, List.getElem_zipIdx]
    exact (hsame e _ _ (List.getElem?_eq_getElem _) (List.getElem?_eq_getElem _)).writes?_eq _
  have hmapM : matrices'.zipIdx.mapM (writes? t) = matrices.zipIdx.mapM (writes? t) := by
    have := congrArg (List.mapM id) hwrites
    simpa only [List.mapM_map, Function.id_comp] using this
  cases hz : ElementValues.zeros (α := α) t.width t.slots matrices.length with
  | error error => rw [ofElementMatrices, ofElementMatrices, hlength, hz]; rfl
  | ok z => rw [ofElementMatrices_eq hz, ofElementMatrices_eq (hlength ▸ hz), hmapM]

/-- The `matrices` are tabulated if they fit and their values can exist. -/
theorem exists_tabulates {matrices : List (ElementMatrix α)} {z : ElementValues α}
    (hz : ElementValues.zeros t.width t.slots matrices.length = .ok z)
    (hfits : ∀ matrix ∈ matrices, Fits t matrix) :
    ∃ L, ofElementMatrices t matrices = .ok L ∧ L.Tabulates t matrices := by
  have hwrites : matrices.zipIdx.mapM (writes? t) =
      .ok (matrices.zipIdx.map fun m => writes t m.1 m.2) :=
    mapM_eq_ok_map fun ⟨matrix, e⟩ hm =>
      if_pos (hfits matrix (List.mem_of_getElem? (List.mem_zipIdx_iff_getElem?.mp hm)))
  refine ⟨_, ?_, tabulates_allWrites hz hfits⟩
  rw [ofElementMatrices_eq hz, hwrites]
  rfl

theorem of_ofElementMatrices_eq_ok {matrices : List (ElementMatrix α)} {L : LocalMatrices α}
    (h : ofElementMatrices t matrices = .ok L) :
    (∀ matrix ∈ matrices, Fits t matrix) ∧ L.Tabulates t matrices := by
  obtain ⟨z, hz, -⟩ := bind_eq_ok_iff.mp h
  have hfits : ∀ matrix ∈ matrices, Fits t matrix := by
    intro matrix hmatrix
    rw [ofElementMatrices_eq hz] at h
    cases hwrites : matrices.zipIdx.mapM (writes? t) with
    | error error =>
      rw [hwrites] at h
      cases h
    | ok lists =>
      obtain ⟨e, he⟩ := List.mem_iff_getElem?.mp hmatrix
      obtain ⟨list, hlist⟩ := exists_of_mapM_eq_ok hwrites
        (List.mem_zipIdx_iff_getElem?.mpr he : (matrix, e) ∈ matrices.zipIdx)
      by_cases hfits : Fits t matrix
      · exact hfits
      · rw [writes?, if_neg hfits] at hlist
        cases hlist
  obtain ⟨L', hL', htabulates⟩ := exists_tabulates hz hfits
  obtain rfl := Except.ok.inj (h.symm.trans hL')
  exact ⟨hfits, htabulates⟩

/-- Where values can exist, `matrices` are refused as the first of them that does not fit. -/
theorem of_ofElementMatrices_eq_error {matrices : List (ElementMatrix α)} {z : ElementValues α}
    (hz : ElementValues.zeros t.width t.slots matrices.length = .ok z) {error : Error}
    (h : ofElementMatrices t matrices = .error error) :
    ∃ before matrix after, matrices = before ++ matrix :: after ∧ (∀ m ∈ before, Fits t m) ∧
      ¬ Fits t matrix ∧
      error = .kernelSetup (.matrixShape before.length matrix.rows matrix.columns t.slots) := by
  rw [ofElementMatrices_eq hz] at h
  cases hwrites : matrices.zipIdx.mapM (writes? t) with
  | ok lists =>
    rw [hwrites] at h
    cases h
  | error error' =>
    rw [hwrites] at h
    obtain rfl := Except.error.inj h
    obtain ⟨before, ⟨matrix, e⟩, after, hlist, hfails, hbefore⟩ :=
      exists_append_of_mapM_eq_error hwrites
    have hnot : ¬ Fits t matrix := fun hfits => by
      rw [writes?, if_pos hfits] at hfails
      cases hfails
    obtain rfl : e = before.length := by
      have hget := congrArg (·[before.length]?) hlist
      simp only [List.getElem?_zipIdx, List.getElem?_append_right, Nat.le_refl, Nat.sub_self,
        List.getElem?_cons_zero, Nat.zero_add] at hget
      obtain ⟨_, -, hpair⟩ := Option.map_eq_some_iff.mp hget
      exact (Prod.mk.inj hpair).2.symm
    have hmatrices := congrArg (List.map Prod.fst) hlist
    rw [List.zipIdx_map_fst, List.map_append, List.map_cons] at hmatrices
    rw [writes?, if_neg hnot] at hfails
    refine ⟨before.map Prod.fst, matrix, after.map Prod.fst, hmatrices, fun m hm => ?_, hnot, ?_⟩
    · obtain ⟨p, hp, rfl⟩ := List.mem_map.mp hm
      obtain ⟨list, hok⟩ := hbefore p hp
      by_cases hfits : Fits t p.1
      · exact hfits
      · rw [writes?, if_neg hfits] at hok
        cases hok
    · rw [List.length_map]
      exact (Except.error.inj hfails).symm

/-- A table `mapping` makes a template `t` if it has one entry for every candidate, its columns are
slots, and no row lists a column twice. Then every column is found at the candidate that names it,
and a row lists its candidates in order. Read through `t`, `matrices` of which one has the wrong
shape are refused, with the first of these. The values of the others hold, for each element and each
listed pair, the entry of the element's matrix, and zeros at the absent candidates; so what is not
listed has no influence. Only values that do not fit into an array cannot be made. -/
theorem ofMapping_tabulates {slots width : Nat} {mapping : Array (Option Nat)}
    (hword : mapping.size < Word.bound) :
    ((∃ t, Template.ofMapping slots width mapping = .ok t) ↔ mapping.size = slots * width ∧
      (∀ c, some c ∈ mapping → c < slots) ∧
      ∀ r < slots, ∀ k < width, ∀ k' < width, ∀ c, mapping[width * r + k]? = some (some c) →
        mapping[width * r + k']? = some (some c) → k = k') ∧
    ∀ t, Template.ofMapping slots width mapping = .ok t →
      t.slots = slots ∧ t.width = width ∧ t.mapping = mapping ∧ t.ReadsBack ∧
      ∀ matrices : List (ElementMatrix α),
        (¬ width * slots * matrices.length * 8 < Word.signedBound →
          ofElementMatrices t matrices = .error (.fault .overflow)) ∧
        (width * slots * matrices.length * 8 < Word.signedBound →
          ((∃ error, ofElementMatrices t matrices = .error error) ↔
            ∃ matrix ∈ matrices, ¬ (matrix.rows = slots ∧ matrix.columns = slots)) ∧
          ∀ error, ofElementMatrices t matrices = .error error →
            ∃ before matrix after, matrices = before ++ matrix :: after ∧
              (∀ m ∈ before, m.rows = slots ∧ m.columns = slots) ∧
              ¬ (matrix.rows = slots ∧ matrix.columns = slots) ∧
              error = .kernelSetup
                (.matrixShape before.length matrix.rows matrix.columns slots)) ∧
        (∀ L, ofElementMatrices t matrices = .ok L → L.Tabulates t matrices) ∧
        ∀ matrices' : List (ElementMatrix α), matrices'.length = matrices.length →
          (∀ (e : Nat) matrix matrix', matrices[e]? = some matrix → matrices'[e]? = some matrix' →
            SameThrough t matrix matrix') →
          ofElementMatrices t matrices' = ofElementMatrices t matrices := by
  refine ⟨Template.exists_ofMapping_iff hword, fun t ht => ?_⟩
  obtain ⟨rfl, rfl, rfl⟩ := Template.of_ofMapping_eq_ok ht
  have hentries : t.width * t.slots < Word.bound := by
    rwa [Nat.mul_comm, ← t.size_eq]
  have hoverflow : ∀ matrices : List (ElementMatrix α),
      ¬ t.width * t.slots * matrices.length * 8 < Word.signedBound →
      ofElementMatrices t matrices = .error (.fault .overflow) := by
    intro matrices hnot
    rw [ofElementMatrices, ElementValues.zeros_eq_overflow hnot]
    rfl
  refine ⟨rfl, rfl, rfl, t.readsBack, fun matrices => ⟨hoverflow matrices, fun hfits => ?_,
    fun L hL => ?_, fun matrices' hlength hsame => ofElementMatrices_congr hlength hsame⟩⟩
  · obtain ⟨z, hz⟩ := ElementValues.exists_zeros (α := α) hentries hfits
    refine ⟨⟨fun ⟨error, herror⟩ => ?_, fun ⟨matrix, hmatrix, hnot⟩ => ?_⟩, fun error herror => ?_⟩
    · obtain ⟨before, matrix, after, rfl, -, hnot, -⟩ := of_ofElementMatrices_eq_error hz herror
      exact ⟨matrix, by simp, hnot⟩
    · cases hresult : ofElementMatrices t matrices with
      | error error => exact ⟨error, rfl⟩
      | ok L => exact absurd ((of_ofElementMatrices_eq_ok hresult).1 matrix hmatrix) hnot
    · exact of_ofElementMatrices_eq_error hz herror
  · exact (of_ofElementMatrices_eq_ok hL).2

/-- Three slots with two candidates each. The second row is empty. -/
def sparseTable : Array (Option Nat) := #[some 2, none, none, none, some 1, some 0]

/-- The matrix with entry `10 * row + column + offset`. -/
def numbered (rows columns : Nat) (offset : Int) : ElementMatrix Int :=
  ⟨rows, columns, Dense.ofFn fun i j => 10 * i + j + offset⟩

/-- Two elements are tabulated, with nothing of the second rows, and a matrix of the wrong shape
after the first is refused. -/
theorem ofMapping_tabulates_emptyRow : sparseTable.size < Word.bound ∧
    ∃ t L, Template.ofMapping 3 2 sparseTable = .ok t ∧ t.findSlot 2 0 = .ok (some 1) ∧
      ofElementMatrices t [numbered 3 3 0, numbered 3 3 100] = .ok L ∧
      L.values.get 1 2 1 = .ok 120 ∧ L.values.get 0 1 1 = .ok 0 ∧
      ofElementMatrices t [numbered 3 3 0, numbered 0 3 0] =
        .error (.kernelSetup (.matrixShape 1 0 3 3)) := by
  have hsize : sparseTable.size < Word.bound := by decide
  obtain ⟨haccepted, htemplate⟩ :
      ((∃ t, Template.ofMapping 3 2 sparseTable = .ok t) ↔ _) ∧
        ∀ t, Template.ofMapping 3 2 sparseTable = .ok t → _ :=
    ofMapping_tabulates (α := Int) hsize
  have hdistinct : ∀ r < 3, ∀ k < 2, ∀ k' < 2, ∀ c, sparseTable[2 * r + k]? = some (some c) →
      sparseTable[2 * r + k']? = some (some c) → k = k' := by
    intro r hr k hk k' hk' c
    obtain rfl | rfl | rfl : r = 0 ∨ r = 1 ∨ r = 2 := by omega
    all_goals
      obtain rfl | rfl : k = 0 ∨ k = 1 := by omega
      all_goals obtain rfl | rfl : k' = 0 ∨ k' = 1 := by omega
      all_goals simp [sparseTable]
    all_goals omega
  obtain ⟨t, ht⟩ := haccepted.mpr ⟨rfl, by simp [sparseTable], hdistinct⟩
  obtain ⟨hslots, hwidth, hmapping, hreads, hmatrices⟩ := htemplate t ht
  have hcandidate : ∀ row < 3, ∀ k < 2, ∀ column, sparseTable[2 * row + k]? = some column →
      t.candidate row k = .ok column := by
    intro row hrow k hk column hcolumn
    obtain ⟨column', hcolumn', hresult⟩ :=
      hreads.candidate_eq row (hslots ▸ hrow) k (hwidth ▸ hk)
    rw [hmapping, hwidth, hcolumn] at hcolumn'
    exact Option.some.inj hcolumn' ▸ hresult
  have hfound : t.findSlot 2 0 = .ok (some 1) := by
    obtain ⟨found, hresult, hfound⟩ := hreads.findSlot_eq 2 (by omega) 0 (by omega)
    rw [hresult, (hfound 1).mpr ⟨by omega, hcandidate 2 (by decide) 1 (by decide) _ rfl⟩]
  obtain ⟨-, hfail, htabulates, -⟩ := hmatrices [numbered 3 3 0, numbered 3 3 100]
  obtain ⟨-, hbad, -, -⟩ := hmatrices [numbered 3 3 0, numbered 0 3 0]
  refine ⟨hsize, t, ?_⟩
  cases hL : ofElementMatrices t [numbered 3 3 0, numbered 3 3 100] with
  | error error =>
    obtain ⟨matrix, hmatrix, hnot⟩ := (hfail (by decide)).1.mp ⟨error, hL⟩
    simp [numbered] at hmatrix
    rcases hmatrix with rfl | rfl <;> simp at hnot
  | ok L =>
    obtain ⟨-, -, -, -, hget, habsent⟩ := htabulates L hL
    obtain ⟨value, hvalue, hresult⟩ := hget 1 _ rfl 2 (by omega) 0 1 hfound
    refine ⟨L, ht, hfound, rfl, ?_, habsent 1 (by decide) 1 (by omega) 0 (by omega)
      (hcandidate 1 (by decide) 0 (by decide) _ rfl), ?_⟩
    · obtain rfl := Option.some.inj (hvalue.symm.trans (rfl : _ = some (120 : Int)))
      exact hresult
    · obtain ⟨hiff, hfirst⟩ := hbad (by decide)
      obtain ⟨error, herror⟩ := hiff.mpr ⟨numbered 0 3 0, by simp, by decide⟩
      obtain ⟨before, matrix, after, hlist, hbefore, hnot, rfl⟩ := hfirst error herror
      cases before with
      | nil =>
        obtain ⟨rfl, -⟩ := List.cons.inj hlist
        exact absurd ⟨rfl, rfl⟩ hnot
      | cons first before =>
        have hlist := (List.cons.inj hlist).2
        cases before with
        | nil =>
          obtain ⟨rfl, -⟩ := List.cons.inj hlist
          exact herror
        | cons second before => simp at hlist

end LocalMatrices

end FemAssembly
