import FemAssembly.Sequence.Shared

/-!
# The merge, round by round

The first shared value of two lists is found by a merge that only looks at the heads of what is left
of both lists. It ends when the heads are equal or a list is used up, and otherwise drops the
smaller head.

* `mergeRound`: one round.
* `mergeWithin`: the answer of the merge, if it ends within a number of rounds.
* `mergeWithin_eq_some_firstShared`: it ends before it has dropped all elements, with the first
  shared value.
-/

namespace FemAssembly

/-- A round of the merge of two lists: it ends with an answer, or goes on with one head less. -/
def mergeRound : List Nat × List Nat → Option Nat ⊕ (List Nat × List Nat)
  | (a :: rest, b :: more) =>
    if a = b then .inl (some a)
    else if a < b then .inr (rest, b :: more)
    else .inr (a :: rest, more)
  | _ => .inl none

/-- The answer of the merge, if it ends after dropping at most as many heads as the number says. -/
def mergeWithin : Nat → List Nat × List Nat → Option (Option Nat)
  | 0, lists => (mergeRound lists).elim some fun _ => none
  | drops + 1, lists => (mergeRound lists).elim some (mergeWithin drops)

theorem firstShared_cons_cons (a b : Nat) (rest more : List Nat) :
    firstShared (a :: rest) (b :: more) =
      if a = b then some a
      else if a < b then firstShared rest (b :: more)
      else firstShared (a :: rest) more := by
  rcases Nat.lt_trichotomy a b with hlt | rfl | hlt
  · rw [firstShared, List.dropWhile_cons_of_neg (by simpa using Nat.le_of_lt hlt)]
    simp [hlt, Nat.ne_of_lt hlt]
  · rw [firstShared, List.dropWhile_cons_of_neg (by simp)]
    simp
  · rw [firstShared, List.dropWhile_cons_of_pos (by simpa using hlt), if_neg (by omega),
      if_neg (by omega), firstShared]

/-- A round on `lists` ends with the first shared value, or keeps it and leaves one element less. -/
theorem mergeRound_spec (lists : List Nat × List Nat) :
    mergeRound lists = .inl (firstShared lists.1 lists.2) ∨
      ∃ left, mergeRound lists = .inr left ∧
        firstShared left.1 left.2 = firstShared lists.1 lists.2 ∧
        left.1.length + left.2.length + 1 = lists.1.length + lists.2.length := by
  obtain ⟨list, other⟩ := lists
  cases list with
  | nil => exact .inl rfl
  | cons a rest =>
    cases other with
    | nil => exact .inl rfl
    | cons b more =>
      simp only [mergeRound, firstShared_cons_cons]
      by_cases hab : a = b
      · exact .inl (by simp [hab])
      · by_cases hlt : a < b
        · exact .inr ⟨(rest, b :: more), by simp [hab, hlt], by simp [hab, hlt], by grind⟩
        · exact .inr ⟨(a :: rest, more), by simp [hab, hlt], by simp [hab, hlt], by grind⟩

/-- The merge of `lists` ends within `drops` rounds, with the first shared value. -/
theorem mergeWithin_eq_some_firstShared {drops : Nat} {lists : List Nat × List Nat}
    (h : lists.1.length + lists.2.length ≤ drops) :
    mergeWithin drops lists = some (firstShared lists.1 lists.2) := by
  induction drops generalizing lists with
  | zero =>
    rcases mergeRound_spec lists with hend | ⟨left, -, -, hlength⟩
    · rw [mergeWithin, hend, Sum.elim_inl]
    · omega
  | succ drops ih =>
    rcases mergeRound_spec lists with hend | ⟨left, hround, hsame, hlength⟩
    · rw [mergeWithin, hend, Sum.elim_inl]
    · rw [mergeWithin, hround, Sum.elim_inr, ← hsame]
      exact ih (by omega)

end FemAssembly
