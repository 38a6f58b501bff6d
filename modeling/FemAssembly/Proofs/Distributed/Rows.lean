import FemAssembly.Distributed.Rows
import Mathlib

/-!
# Row ranges

* `partitionPoint_spec`: halving finds where a predicate stops holding. `containsSorted_iff`: it
  finds a value in an increasing list.
* `RowStarts`: the starts that `checkRowStarts` accepts (`checkRowStarts_eq_ok_iff`).
* `Owns`: the rank has the row in its range. Every row has one owner (`RowStarts.exists_owns`,
  `RowStarts.owner_eq`), and `RowStarts.ownerOf_eq_ok` finds it.
* `RowStarts.flatMap_eq`: a list for all rows, put together from the ranks. `ownedRows`: the rows of
  one rank.
* `owner`: the owner as a number. `RowStarts.owner_le`: owners increase with the rows.
* `ownerOf_partitions`: the ranges of the ranks are the blocks that the owners make of the rows.
-/

namespace FemAssembly

/-! ## Halving -/

section

variable {holds : Nat → Bool} {base size : Nat}

/-- Where the predicate `holds` is false once and for all after it has been false, halving finds the
last position at which it is true, or ends at the first position `base`. -/
theorem halve_spec (hsize : 0 < size)
    (hstop : ∀ i j, i ≤ j → j < base + size → holds j = true → holds i = true) :
    base ≤ halve holds base size ∧ halve holds base size < base + size ∧
      (halve holds base size = base ∨ holds (halve holds base size) = true) ∧
      ∀ i, halve holds base size < i → i < base + size → holds i = false := by
  induction size using Nat.strongRecOn generalizing base with
  | ind size ih =>
    rw [halve]
    by_cases hle : size ≤ 1
    · rw [if_pos hle]
      exact ⟨by omega, by omega, .inl rfl, fun i _ _ => by omega⟩
    rw [if_neg hle]
    have hhalf : 0 < size / 2 ∧ size / 2 < size := by omega
    by_cases hmid : holds (base + size / 2) = true
    · simp only [hmid, ↓reduceIte]
      obtain ⟨hbase, hbelow, hholds, hafter⟩ := @ih (size - size / 2) (by omega)
        (base + size / 2) (by omega) fun i j hij hj => hstop i j hij (by omega)
      refine ⟨by omega, by omega, .inr ?_, fun i hi hlt => hafter i hi (by omega)⟩
      rcases hholds with heq | hholds
      · rwa [heq]
      · exact hholds
    · simp only [hmid, Bool.false_eq_true, ↓reduceIte]
      obtain ⟨hbase, hbelow, hholds, hafter⟩ := @ih (size - size / 2) (by omega) base
        (by omega) fun i j hij hj => hstop i j hij (by omega)
      refine ⟨hbase, by omega, hholds, fun i hi hlt => ?_⟩
      by_cases hi' : i < base + (size - size / 2)
      · exact hafter i hi hi'
      · -- past the middle, where the predicate has stopped holding
        exact Bool.eq_false_iff.mpr fun hi'' => hmid (hstop _ i (by omega) hlt hi'')

/-- The number of leading elements of `list` for which `holds` is true, if it is not true again
after it has been false. -/
theorem partitionPoint_spec {list : Array Nat}
    (hstop : ∀ i j, i ≤ j → j < list.size → holds (list.getD j 0) = true →
      holds (list.getD i 0) = true) :
    partitionPoint holds list ≤ list.size ∧
      (∀ i < partitionPoint holds list, holds (list.getD i 0) = true) ∧
      ∀ i, partitionPoint holds list ≤ i → i < list.size → holds (list.getD i 0) = false := by
  unfold partitionPoint
  by_cases hsize : list.size = 0
  · simp [hsize]
  · obtain ⟨-, hlt, hholds, hafter⟩ := @halve_spec (fun i => holds (list.getD i 0))
      0 list.size (Nat.pos_of_ne_zero hsize) fun i j hij hj => hstop i j hij (by omega)
    simp only [hsize, ↓reduceIte]
    generalize halve (fun i => holds (list.getD i 0)) 0 list.size = last at *
    by_cases hlast : holds (list.getD last 0) = true
    · simp only [hlast, ↓reduceIte]
      exact ⟨by omega, fun i hi => hstop i last (by omega) (by omega) hlast,
        fun i hi hlt' => hafter i (by omega) (by omega)⟩
    · obtain rfl : last = 0 := hholds.resolve_right hlast
      simp only [hlast, Bool.false_eq_true, ↓reduceIte]
      refine ⟨by omega, fun i hi => absurd hi (Nat.not_lt_zero i), fun i _ hlt' => ?_⟩
      rcases Nat.eq_zero_or_pos i with rfl | hpos
      · exact Bool.eq_false_iff.mpr hlast
      · exact hafter i hpos (by omega)

end

/-- Halving finds the values of an increasing `list`. -/
theorem containsSorted_iff {list : List Nat} (h : list.Pairwise (· < ·)) (value : Nat) :
    containsSorted list.toArray value = true ↔ value ∈ list := by
  have hlt : ∀ i j (hi : i < list.length) (hj : j < list.length), i < j → list[i] < list[j] :=
    fun i j hi hj hij => List.pairwise_iff_getElem.mp h i j hi hj hij
  have hstop : ∀ i j, i ≤ j → j < list.toArray.size →
      decide (list.toArray.getD j 0 < value) = true →
      decide (list.toArray.getD i 0 < value) = true := by
    intro i j hij hj hvalue
    have hj' : j < list.length := by simpa using hj
    have hi' : i < list.length := Nat.lt_of_le_of_lt hij hj'
    simp only [decide_eq_true_eq, Array.getD_eq_getD_getElem?, List.getElem?_toArray,
      List.getElem?_eq_getElem hj', List.getElem?_eq_getElem hi', Option.getD_some] at hvalue ⊢
    rcases Nat.lt_or_eq_of_le hij with hlt' | rfl
    · exact Nat.lt_trans (hlt i j hi' hj' hlt') hvalue
    · exact hvalue
  obtain ⟨-, hbefore, hafter⟩ := @partitionPoint_spec (· < value) list.toArray hstop
  rw [containsSorted, beq_iff_eq]
  constructor
  · intro hfound
    simpa using Array.mem_of_getElem? hfound
  · intro hmem
    obtain ⟨i, hi, rfl⟩ := List.getElem_of_mem hmem
    suffices heq : partitionPoint (· < list[i]) list.toArray = i by simp [heq, hi]
    have hi' := hbefore i
    have hk := hafter (partitionPoint (· < list[i]) list.toArray) (Nat.le_refl _)
    generalize partitionPoint (· < list[i]) list.toArray = k at *
    simp only [Array.getD_eq_getD_getElem?, List.getElem?_toArray, List.getElem?_eq_getElem hi,
      Option.getD_some, Nat.lt_irrefl, decide_false, Bool.false_eq_true, imp_false,
      Nat.not_lt] at hi'
    rcases Nat.lt_or_eq_of_le hi' with hki | heq
    · have hk' : k < list.length := Nat.lt_trans hki hi
      simp [hk', hlt k i hk' hi hki] at hk
    · exact heq

/-! ## Ranges -/

/-- The starts of the row ranges of `size` ranks. -/
structure RowStarts (starts : Array Nat) (size : Nat) : Prop where
  size_eq : starts.size = size + 1
  word : size + 1 < Word.bound
  zero : starts.getD 0 0 = 0
  le_succ : ∀ p < size, starts.getD p 0 ≤ starts.getD (p + 1) 0

theorem checkRowStarts_eq_ok_iff {starts : Array Nat} {size : Nat} :
    checkRowStarts starts size = .ok () ↔ RowStarts starts size := by
  unfold checkRowStarts Word.add Word.fit
  by_cases hword : size + 1 < Word.bound
  · simp only [hword, ↓reduceIte, bind, Except.bind]
    by_cases hshape : starts.size ≠ size + 1 ∨ starts[0]? ≠ some 0
    · simp only [hshape, ↓reduceIte, reduceCtorEq, false_iff]
      intro h
      have hsize := h.size_eq
      have hzero := h.zero
      have hlt : 0 < starts.size := by omega
      rw [Array.getD_eq_getD_getElem?, Array.getElem?_eq_getElem hlt, Option.getD_some] at hzero
      rcases hshape with hshape | hshape
      · exact hshape hsize
      · exact hshape (by rw [Array.getElem?_eq_getElem hlt, hzero])
    · simp only [hshape, ↓reduceIte]
      simp only [not_or, Decidable.not_not] at hshape
      by_cases horder : ∃ p < size, starts.getD (p + 1) 0 < starts.getD p 0
      · have hany : ((List.range size).any fun p => starts.getD (p + 1) 0 < starts.getD p 0) := by
          simpa using horder
        simp only [hany, ↓reduceIte, reduceCtorEq, false_iff]
        intro h
        obtain ⟨p, hp, hlt⟩ := horder
        exact absurd (h.le_succ p hp) (Nat.not_le.mpr hlt)
      · have hany : ¬ ((List.range size).any fun p => starts.getD (p + 1) 0 < starts.getD p 0) := by
          simpa using horder
        simp only [hany, Bool.false_eq_true, ↓reduceIte, true_iff]
        refine ⟨hshape.1, hword, by simp [Array.getD_eq_getD_getElem?, hshape.2], fun p hp => ?_⟩
        exact Nat.le_of_not_lt fun hlt => horder ⟨p, hp, hlt⟩
  · simp only [hword, ↓reduceIte, bind, Except.bind, reduceCtorEq, false_iff]
    exact fun h => hword h.word

/-- The row `row` is in the range of `rank`. -/
def Owns (starts : Array Nat) (rank row : Nat) : Prop :=
  starts.getD rank 0 ≤ row ∧ row < starts.getD (rank + 1) 0

instance (starts : Array Nat) (rank row : Nat) : Decidable (Owns starts rank row) :=
  inferInstanceAs (Decidable (_ ∧ _))

/-- The rows in the range of `rank`, in order. -/
def ownedRows (starts : Array Nat) (rank : Nat) : List Nat :=
  (List.range (starts.getD (rank + 1) 0 - starts.getD rank 0)).map fun i => starts.getD rank 0 + i

theorem mem_ownedRows {starts : Array Nat} {rank row : Nat} :
    row ∈ ownedRows starts rank ↔ Owns starts rank row := by
  rw [ownedRows, List.mem_map, Owns]
  constructor
  · rintro ⟨i, hi, rfl⟩
    have := List.mem_range.mp hi
    omega
  · rintro ⟨hfirst, hlast⟩
    exact ⟨row - starts.getD rank 0, List.mem_range.mpr (by omega), by omega⟩

/-- The rank that owns `row`. -/
def owner (starts : Array Nat) (row : Nat) : Nat :=
  match ownerOf starts row with
  | .ok rank => rank
  | .error _ => 0

namespace RowStarts

variable {starts : Array Nat} {size p q row : Nat}

theorem mono (h : RowStarts starts size) (hpq : p ≤ q) (hq : q ≤ size) :
    starts.getD p 0 ≤ starts.getD q 0 := by
  induction hpq with
  | refl => exact Nat.le_refl _
  | step _ ih => exact Nat.le_trans (ih (Nat.le_of_succ_le hq)) (h.le_succ _ hq)

theorem globalSize_eq (h : RowStarts starts size) : globalSize starts = starts.getD size 0 := by
  rw [globalSize, h.size_eq, Nat.add_sub_cancel]

theorem lt_globalSize (h : RowStarts starts size) (hp : p < size) (howns : Owns starts p row) :
    row < globalSize starts :=
  h.globalSize_eq ▸ Nat.lt_of_lt_of_le howns.2 (h.mono hp (Nat.le_refl size))

/-- A `row` has one owner. -/
theorem owner_eq (h : RowStarts starts size) (hp : p < size) (hq : q < size)
    (howns : Owns starts p row) (howns' : Owns starts q row) : p = q := by
  rcases Nat.lt_trichotomy p q with hlt | rfl | hlt
  · have := h.mono (show p + 1 ≤ q from hlt) (Nat.le_of_lt hq)
    have := howns.2
    have := howns'.1
    omega
  · rfl
  · have := h.mono (show q + 1 ≤ p from hlt) (Nat.le_of_lt hp)
    have := howns'.2
    have := howns.1
    omega

/-- Of the ranks that start at or before `row`, its owner `p` is the last. -/
theorem le_of_owns (h : RowStarts starts size) (howns : Owns starts p row) (hq : q ≤ size)
    (hle : starts.getD q 0 ≤ row) : q ≤ p := by
  by_contra hlt
  have := h.mono (show p + 1 ≤ q by omega) hq
  have := howns.2
  omega

/-- The starts at or before `row` come first. -/
theorem partitionPoint_le (h : RowStarts starts size) (row : Nat) :
    partitionPoint (· ≤ row) starts ≤ size + 1 ∧
      (∀ p < partitionPoint (· ≤ row) starts, starts.getD p 0 ≤ row) ∧
      ∀ p, partitionPoint (· ≤ row) starts ≤ p → p ≤ size → row < starts.getD p 0 := by
  have hsize := h.size_eq
  obtain ⟨hle, hbefore, hafter⟩ := @partitionPoint_spec (· ≤ row) starts
    fun i j hij hj hvalue => by
      have := h.mono hij (by omega)
      simp only [decide_eq_true_eq] at hvalue ⊢
      omega
  refine ⟨hsize ▸ hle, fun p hp => by simpa using hbefore p hp, fun p hp hp' => ?_⟩
  simpa using hafter p hp (by omega)

/-- The owner `p` of `row` is found by halving. -/
theorem ownerOf_eq_ok (h : RowStarts starts size) (hp : p < size) (howns : Owns starts p row) :
    ownerOf starts row = .ok p := by
  obtain ⟨-, hbefore, hafter⟩ := h.partitionPoint_le row
  have hlt : p < partitionPoint (· ≤ row) starts := by
    by_contra hle
    exact absurd (hafter p (Nat.le_of_not_lt hle) (Nat.le_of_lt hp)) (Nat.not_lt.mpr howns.1)
  have hle : partitionPoint (· ≤ row) starts ≤ p + 1 := by
    by_contra hlt'
    exact absurd (hbefore (p + 1) (Nat.lt_of_not_le hlt')) (Nat.not_le.mpr howns.2)
  rw [ownerOf, Nat.le_antisymm hle hlt]

/-- Every `row` has an owner. -/
theorem exists_owns (h : RowStarts starts size) (hrow : row < globalSize starts) :
    ∃ p < size, Owns starts p row := by
  obtain ⟨hle, hbefore, hafter⟩ := h.partitionPoint_le row
  have hzero := h.zero
  rw [h.globalSize_eq] at hrow
  generalize partitionPoint (· ≤ row) starts = k at *
  have hpos : 0 < k := by
    by_contra hk
    have := hafter 0 (by omega) (Nat.zero_le _)
    omega
  have hlt : k ≤ size := by
    by_contra hk
    have := hbefore size (by omega)
    omega
  refine ⟨k - 1, by omega, hbefore (k - 1) (by omega), ?_⟩
  rw [Nat.sub_add_cancel hpos]
  exact hafter k (Nat.le_refl k) hlt

theorem ownerOf_owner (h : RowStarts starts size) (hrow : row < globalSize starts) :
    ownerOf starts row = .ok (owner starts row) ∧ owner starts row < size ∧
      Owns starts (owner starts row) row := by
  obtain ⟨p, hp, howns⟩ := h.exists_owns hrow
  have howner := h.ownerOf_eq_ok hp howns
  have heq : owner starts row = p := by rw [owner, howner]
  rw [heq]
  exact ⟨howner, hp, howns⟩

theorem owner_eq_iff (h : RowStarts starts size) (hp : p < size)
    (hrow : row < globalSize starts) : owner starts row = p ↔ Owns starts p row := by
  obtain ⟨-, hlt, howns⟩ := h.ownerOf_owner hrow
  constructor
  · rintro rfl
    exact howns
  · exact fun howns' => h.owner_eq hlt hp howns howns'

/-- Owners increase with the rows, from `row` to `row'`. -/
theorem owner_le (h : RowStarts starts size) {row' : Nat} (hle : row ≤ row')
    (hrow' : row' < globalSize starts) : owner starts row ≤ owner starts row' := by
  obtain ⟨-, hlt, howns⟩ := h.ownerOf_owner (Nat.lt_of_le_of_lt hle hrow')
  obtain ⟨-, -, howns'⟩ := h.ownerOf_owner hrow'
  by_contra hnot
  have := h.mono (show owner starts row' + 1 ≤ owner starts row by omega) (Nat.le_of_lt hlt)
  have := howns.1
  have := howns'.2
  omega

theorem rowRange_eq_ok (h : RowStarts starts size) (hp : p < size) :
    rowRange starts p = .ok (starts.getD p 0, starts.getD (p + 1) 0) := by
  have hsize := h.size_eq
  simp [rowRange, Array.getD, show p < starts.size by omega, show p + 1 < starts.size by omega,
    bind, Except.bind, pure, Except.pure]

/-- What every rank has in `part` for its rows is, one rank after the other, what `f` has for all
rows. -/
theorem flatMap_eq {γ : Type} (h : RowStarts starts size) {part : Nat → List γ} {f : Nat → γ}
    (hpart : ∀ rank < size, part rank =
      (List.range (starts.getD (rank + 1) 0 - starts.getD rank 0)).map fun i =>
        f (starts.getD rank 0 + i)) :
    (List.range size).flatMap part = (List.range (globalSize starts)).map f := by
  -- the rows of the first ranks
  have hranks : ∀ n ≤ size,
      (List.range n).flatMap part = (List.range (starts.getD n 0)).map f := by
    intro n hn
    induction n with
    | zero => simp [h.zero]
    | succ n ih =>
      have hcut := List.range_add (n := starts.getD n 0)
        (m := starts.getD (n + 1) 0 - starts.getD n 0)
      rw [Nat.add_sub_cancel' (h.le_succ n hn)] at hcut
      rw [List.range_succ, List.flatMap_append, ih (Nat.le_of_succ_le hn), List.flatMap_singleton,
        hpart n hn, hcut, List.map_append, List.map_map]
      rfl
  rw [hranks size (Nat.le_refl size), h.globalSize_eq]

/-- The rows of all ranks in `starts`, one rank after the other, are all rows. -/
theorem flatMap_ownedRows (h : RowStarts starts size) :
    (List.range size).flatMap (ownedRows starts) = List.range (globalSize starts) := by
  have hall : (List.range size).flatMap (ownedRows starts) =
      (List.range (globalSize starts)).map id := h.flatMap_eq fun _ _ => rfl
  rwa [List.map_id] at hall

end RowStarts

/-- Every `row` has exactly one owner `p`, which is found without a fault. Where several ranks start
at the row, because all but the last of them are empty, it is the last one. So the ranges of the
ranks hold every row once, in order, and owners do not decrease with the rows. -/
theorem ownerOf_partitions {starts : Array Nat} {size : Nat}
    (h : checkRowStarts starts size = .ok ()) :
    (∀ row < globalSize starts, ∃ p < size, ownerOf starts row = .ok p ∧ Owns starts p row ∧
      (∀ q < size, Owns starts q row → q = p) ∧
      ∀ q < size, starts.getD q 0 ≤ row → q ≤ p) ∧
    (∀ p < size, ∀ row, row ∈ ownedRows starts p ↔
      row < globalSize starts ∧ ownerOf starts row = .ok p) ∧
    (List.range size).flatMap (ownedRows starts) = List.range (globalSize starts) ∧
    ∀ row row' p p', row ≤ row' → row' < globalSize starts → ownerOf starts row = .ok p →
      ownerOf starts row' = .ok p' → p ≤ p' := by
  have hstarts := checkRowStarts_eq_ok_iff.mp h
  refine ⟨fun row hrow => ?_, fun p hp row => ?_, hstarts.flatMap_ownedRows,
    fun row row' p p' hle hrow' howner howner' => ?_⟩
  · obtain ⟨p, hp, howns⟩ := hstarts.exists_owns hrow
    exact ⟨p, hp, hstarts.ownerOf_eq_ok hp howns, howns,
      fun q hq howns' => hstarts.owner_eq hq hp howns' howns,
      fun q hq hle => hstarts.le_of_owns howns (Nat.le_of_lt hq) hle⟩
  · rw [mem_ownedRows]
    constructor
    · exact fun howns => ⟨hstarts.lt_globalSize hp howns, hstarts.ownerOf_eq_ok hp howns⟩
    · rintro ⟨hrow, howner⟩
      obtain ⟨hfound, -, howns⟩ := hstarts.ownerOf_owner hrow
      obtain rfl := Except.ok.inj (howner.symm.trans hfound)
      exact howns
  · obtain ⟨hfound, -⟩ := hstarts.ownerOf_owner (Nat.lt_of_le_of_lt hle hrow')
    obtain ⟨hfound', -⟩ := hstarts.ownerOf_owner hrow'
    obtain rfl := Except.ok.inj (howner.symm.trans hfound)
    obtain rfl := Except.ok.inj (howner'.symm.trans hfound')
    exact hstarts.owner_le hle hrow'

/-- Six ranks, of which the first, the third, the fourth and the last have no rows. -/
theorem ownerOf_partitions_emptyRanks :
    checkRowStarts #[0, 0, 2, 2, 2, 5, 5] 6 = .ok () ∧
    ownerOf #[0, 0, 2, 2, 2, 5, 5] 0 = .ok 1 ∧ ownerOf #[0, 0, 2, 2, 2, 5, 5] 2 = .ok 4 ∧
    Owns #[0, 0, 2, 2, 2, 5, 5] 4 2 ∧
    (∀ q < 6, Owns #[0, 0, 2, 2, 2, 5, 5] q 2 → q = 4) ∧
    ownedRows #[0, 0, 2, 2, 2, 5, 5] 4 = [2, 3, 4] ∧ ownedRows #[0, 0, 2, 2, 2, 5, 5] 5 = [] ∧
    (List.range 6).flatMap (ownedRows #[0, 0, 2, 2, 2, 5, 5]) = [0, 1, 2, 3, 4] := by
  have hcheck : checkRowStarts #[0, 0, 2, 2, 2, 5, 5] 6 = .ok () := by decide
  obtain ⟨howner, hmem, hall, -⟩ := ownerOf_partitions hcheck
  obtain ⟨p, hp, hfound, howns, hunique, -⟩ := howner 2 (by decide)
  obtain rfl := hunique 4 (by decide) (by decide)
  exact ⟨hcheck, ((hmem 1 (by decide) 0).mp (by decide)).2, hfound, howns, hunique, by decide,
    by decide, hall.trans (by decide)⟩

end FemAssembly
