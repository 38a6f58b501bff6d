import FemAssembly.Sequence.Offsets

/-!
# Consecutive ranges

The running totals of counts cut the numbers below the last total into ranges, one for each count.

* `Ranges offsets n count`: the array holds the running totals of the counts of `0 .. n - 1`.
  `InRange offsets i p`: the number `p` is in range `i`.
* `ranges_offsets`: `offsets` makes such an array.
* `Ranges.eq_of_mem`, `Ranges.exists_mem`: every number below the last total is in exactly one
  range.
-/

namespace FemAssembly

theorem total_append (counts counts' : List Nat) :
    total (counts ++ counts') = total counts + total counts' := by
  induction counts with
  | nil => simp [total]
  | cons count counts ih =>
    simp only [total, List.cons_append, List.foldr_cons] at ih ⊢
    omega

/-- Each range `i < n` starts at entry `i` of `offsets` and has length `count i`. -/
structure Ranges (offsets : Array Nat) (n : Nat) (count : Nat → Nat) : Prop where
  size_eq : offsets.size = n + 1
  zero_eq : offsets.getD 0 0 = 0
  succ_eq : ∀ i < n, offsets.getD (i + 1) 0 = offsets.getD i 0 + count i

/-- The number `p` is in range `i`. -/
def InRange (offsets : Array Nat) (i p : Nat) : Prop :=
  offsets.getD i 0 ≤ p ∧ p < offsets.getD (i + 1) 0

/-- The running totals of the counts of `0, …, n - 1` are the offsets of their ranges. -/
theorem ranges_offsets (n : Nat) (count : Nat → Nat) :
    Ranges (offsets ((List.range n).map count)).toArray n count := by
  have hget : ∀ i ≤ n, (offsets ((List.range n).map count)).toArray.getD i 0 =
      total (((List.range n).map count).take i) := by
    intro i hi
    have hlt : i < (offsets ((List.range n).map count)).length := by
      simp only [length_offsets, List.length_map, List.length_range]
      omega
    rw [Array.getD_eq_getD_getElem?, List.getElem?_toArray, List.getElem?_eq_getElem hlt,
      getElem_offsets, Option.getD_some]
  refine ⟨by simp, (hget 0 (Nat.zero_le n)).trans rfl, ?_⟩
  intro i hi
  have hi' : i < ((List.range n).map count).length := by simpa using hi
  rw [hget (i + 1) hi, hget i (Nat.le_of_lt hi), List.take_succ_eq_append_getElem hi', total_append]
  simp [total]

namespace Ranges

variable {offsets : Array Nat} {n : Nat} {count : Nat → Nat}

theorem getElem?_eq (h : Ranges offsets n count) {i : Nat} (hi : i ≤ n) :
    offsets[i]? = some (offsets.getD i 0) := by
  have hlt : i < offsets.size := by
    rw [h.size_eq]
    omega
  simp [Array.getD, hlt]

theorem le_of_le (h : Ranges offsets n count) {i j : Nat} (hij : i ≤ j) (hj : j ≤ n) :
    offsets.getD i 0 ≤ offsets.getD j 0 := by
  induction j with
  | zero =>
    obtain rfl := Nat.le_zero.mp hij
    exact Nat.le_refl _
  | succ j ih =>
    rcases Nat.lt_or_eq_of_le hij with hlt | rfl
    · have := ih (by omega) (by omega)
      have := h.succ_eq j (by omega)
      omega
    · exact Nat.le_refl _

/-- No number `p` is in two ranges. -/
theorem eq_of_mem (h : Ranges offsets n count) {i j p : Nat} (hi : i < n) (hj : j < n)
    (hpi : InRange offsets i p) (hpj : InRange offsets j p) : i = j := by
  obtain ⟨hil, hir⟩ := hpi
  obtain ⟨hjl, hjr⟩ := hpj
  rcases Nat.lt_trichotomy i j with hlt | heq | hlt
  · have := h.le_of_le (show i + 1 ≤ j from hlt) (Nat.le_of_lt hj)
    omega
  · exact heq
  · have := h.le_of_le (show j + 1 ≤ i from hlt) (Nat.le_of_lt hi)
    omega

theorem lt_of_mem (h : Ranges offsets n count) {i p : Nat} (hi : i < n)
    (hp : InRange offsets i p) : p < offsets.getD n 0 :=
  Nat.lt_of_lt_of_le hp.2 (h.le_of_le (show i + 1 ≤ n from hi) (Nat.le_refl n))

/-- Every number `p` below the last total is in a range. -/
theorem exists_mem (h : Ranges offsets n count) {p : Nat} (hp : p < offsets.getD n 0) :
    ∃ i < n, InRange offsets i p := by
  -- by induction on the number of ranges that are looked at
  have hbelow : ∀ m ≤ n, p < offsets.getD m 0 →
      ∃ i < m, InRange offsets i p := by
    intro m hm hp
    induction m with
    | zero =>
      rw [h.zero_eq] at hp
      omega
    | succ m ih =>
      by_cases hlt : p < offsets.getD m 0
      · obtain ⟨i, hi, hmem⟩ := ih (by omega) hlt
        exact ⟨i, by omega, hmem⟩
      · exact ⟨m, by omega, by omega, hp⟩
  exact hbelow n (Nat.le_refl n) hp

end Ranges

end FemAssembly
