/-!
# Distinct values

* `distinct`: the values of a list in increasing order, each once.
* `mem_distinct`, `pairwise_distinct`: the same values, and strictly increasing.
* `inOrder`, `repeatsValue`: the values of a list in order, and whether two neighbours in it are
  equal. `repeatsValue_eq_false_iff`: this finds every repeated value.
* `position_lt_of_lt`: in an increasing list, positions increase with the values.
-/

namespace FemAssembly

/-- Put `value` into an increasing list, unless it is there already. -/
def insertValue (value : Nat) : List Nat → List Nat
  | [] => [value]
  | a :: rest =>
    if value < a then value :: a :: rest
    else if value = a then a :: rest
    else a :: insertValue value rest

/-- The values of `list` in increasing order, each once. -/
def distinct (list : List Nat) : List Nat := list.foldl (fun values a => insertValue a values) []

theorem mem_insertValue {value a : Nat} {list : List Nat} :
    a ∈ insertValue value list ↔ a = value ∨ a ∈ list := by
  induction list with
  | nil => simp [insertValue]
  | cons b rest ih =>
    unfold insertValue
    split
    · simp
    · split
      · subst_vars
        simp
      · simp only [List.mem_cons, ih]
        grind

theorem pairwise_insertValue {list : List Nat} (h : list.Pairwise (· < ·)) (value : Nat) :
    (insertValue value list).Pairwise (· < ·) := by
  induction list with
  | nil => simp [insertValue]
  | cons b rest ih =>
    obtain ⟨hb, hrest⟩ := List.pairwise_cons.mp h
    unfold insertValue
    split
    · refine List.pairwise_cons.mpr ⟨fun a ha => ?_, h⟩
      rcases List.mem_cons.mp ha with rfl | ha
      · assumption
      · exact Nat.lt_trans (by assumption) (hb a ha)
    · split
      · exact h
      · refine List.pairwise_cons.mpr ⟨fun a ha => ?_, ih hrest⟩
        rcases mem_insertValue.mp ha with rfl | ha
        · omega
        · exact hb a ha

theorem mem_foldl_insertValue {a : Nat} {list values : List Nat} :
    a ∈ list.foldl (fun values b => insertValue b values) values ↔ a ∈ list ∨ a ∈ values := by
  induction list generalizing values with
  | nil => simp
  | cons b rest ih =>
    rw [List.foldl_cons, ih, mem_insertValue, List.mem_cons]
    grind

theorem mem_distinct {a : Nat} {list : List Nat} : a ∈ distinct list ↔ a ∈ list := by
  simp [distinct, mem_foldl_insertValue]

theorem pairwise_foldl_insertValue {list values : List Nat} (h : values.Pairwise (· < ·)) :
    (list.foldl (fun values a => insertValue a values) values).Pairwise (· < ·) := by
  induction list generalizing values with
  | nil => exact h
  | cons b rest ih => exact ih (pairwise_insertValue h b)

theorem pairwise_distinct (list : List Nat) : (distinct list).Pairwise (· < ·) :=
  pairwise_foldl_insertValue .nil

/-! ## Repeated values -/

/-- Two neighbours in the list are equal. It is enough to ask this of a list in order to find a
value twice (`repeatsValue`). -/
def equalNeighbours : List Nat → Bool
  | a :: b :: rest => a == b || equalNeighbours (b :: rest)
  | _ => false

/-- Put `value` into a list in order, before those that are not less. -/
def insertOrdered (value : Nat) : List Nat → List Nat
  | [] => [value]
  | a :: rest => if value ≤ a then value :: a :: rest else a :: insertOrdered value rest

/-- The values of `list` in order, each as often as in `list`. -/
def inOrder (list : List Nat) : List Nat := list.foldr insertOrdered []

/-- Some value is in `list` twice: `inOrder list` has two equal neighbours. -/
def repeatsValue (list : List Nat) : Bool := equalNeighbours (inOrder list)

theorem insertOrdered_perm (value : Nat) (list : List Nat) :
    (insertOrdered value list).Perm (value :: list) := by
  induction list with
  | nil => exact .refl _
  | cons a rest ih =>
    unfold insertOrdered
    split
    · exact .refl _
    · exact (ih.cons a).trans (.swap value a rest)

theorem pairwise_insertOrdered {list : List Nat} (h : list.Pairwise (· ≤ ·)) (value : Nat) :
    (insertOrdered value list).Pairwise (· ≤ ·) := by
  induction list with
  | nil => simp [insertOrdered]
  | cons b rest ih =>
    obtain ⟨hb, hrest⟩ := List.pairwise_cons.mp h
    unfold insertOrdered
    split
    · refine List.pairwise_cons.mpr ⟨fun a ha => ?_, h⟩
      rcases List.mem_cons.mp ha with rfl | ha
      · assumption
      · exact Nat.le_trans (by assumption) (hb a ha)
    · refine List.pairwise_cons.mpr ⟨fun a ha => ?_, ih hrest⟩
      rcases List.mem_cons.mp ((insertOrdered_perm value rest).mem_iff.mp ha) with rfl | ha
      · omega
      · exact hb a ha

theorem inOrder_perm (list : List Nat) : (inOrder list).Perm list := by
  induction list with
  | nil => exact .refl _
  | cons a rest ih => exact (insertOrdered_perm a _).trans (ih.cons a)

theorem pairwise_inOrder (list : List Nat) : (inOrder list).Pairwise (· ≤ ·) := by
  induction list with
  | nil => exact .nil
  | cons a rest ih => exact pairwise_insertOrdered ih a

theorem equalNeighbours_eq_false_iff {list : List Nat} (h : list.Pairwise (· ≤ ·)) :
    equalNeighbours list = false ↔ list.Nodup := by
  induction list with
  | nil => simp [equalNeighbours]
  | cons a list ih =>
    obtain ⟨ha, hlist⟩ := List.pairwise_cons.mp h
    cases list with
    | nil => simp [equalNeighbours]
    | cons b rest =>
      -- a value that is less than its neighbour is less than all that follow
      have hnext : a ≠ b ↔ a ∉ b :: rest := by
        obtain ⟨hb, -⟩ := List.pairwise_cons.mp hlist
        constructor
        · intro hne hmem
          have := ha b List.mem_cons_self
          rcases List.mem_cons.mp hmem with heq | hmem
          · exact hne heq
          · have := hb a hmem
            omega
        · rintro hnot rfl
          exact hnot List.mem_cons_self
      rw [equalNeighbours, Bool.or_eq_false_iff, ih hlist, beq_eq_false_iff_ne, hnext,
        ← List.nodup_cons]

theorem repeatsValue_eq_false_iff {list : List Nat} : repeatsValue list = false ↔ list.Nodup := by
  rw [repeatsValue, equalNeighbours_eq_false_iff (pairwise_inOrder list),
    (inOrder_perm list).nodup_iff]

/-! ## Positions -/

/-- In an increasing `list`, of two values `a < b` the first has the smaller position. -/
theorem position_lt_of_lt {list : List Nat} (h : list.Pairwise (· < ·)) {a b i j : Nat}
    (hab : a < b) (ha : list.idxOf? a = some i) (hb : list.idxOf? b = some j) : i < j := by
  obtain ⟨hi, hia, -⟩ := List.findIdx?_eq_some_iff_getElem.mp ha
  obtain ⟨hj, hjb, -⟩ := List.findIdx?_eq_some_iff_getElem.mp hb
  have hia : list[i] = a := by simpa using hia
  have hjb : list[j] = b := by simpa using hjb
  rcases Nat.lt_trichotomy i j with hlt | rfl | hlt
  · exact hlt
  · omega
  · have := List.pairwise_iff_getElem.mp h j i hj hi hlt
    omega

theorem position_lt_length {list : List Nat} {a i : Nat} (h : list.idxOf? a = some i) :
    i < list.length :=
  (List.findIdx?_eq_some_iff_getElem.mp h).1

end FemAssembly
