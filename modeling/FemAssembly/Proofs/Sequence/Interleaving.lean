/-!
# Interleavings

Tasks that run at the same time take their steps in any order, as long as each task takes its own in
order.

* `Interleaving tasks schedule`: the steps of the tasks, mixed into one schedule.
* `Interleaving.perm`: a schedule takes every step of every task once.
* `Interleaving.flatten`, `Interleaving.of_perm`: the tasks may run one after the other, in any
  order.
-/

namespace FemAssembly

variable {β : Type}

/-- At every step of the schedule some of the tasks takes its next step, until all tasks are done.
-/
inductive Interleaving : List (List β) → List β → Prop
  | done {tasks : List (List β)} : (∀ task ∈ tasks, task = []) → Interleaving tasks []
  | step {before after : List (List β)} {b : β} {rest schedule : List β} :
    Interleaving (before ++ rest :: after) schedule →
    Interleaving (before ++ (b :: rest) :: after) (b :: schedule)

namespace Interleaving

/-- The steps of `schedule` are those of all `tasks`, each once. -/
theorem perm {tasks : List (List β)} {schedule : List β} (h : Interleaving tasks schedule) :
    schedule.Perm tasks.flatten := by
  induction h with
  | done hdone => rw [List.flatten_eq_nil_iff.mpr hdone]
  | @step before after b rest schedule _ ih =>
    have hmove : (b :: (before ++ rest :: after).flatten).Perm
        (before ++ (b :: rest) :: after).flatten := by
      simp only [List.flatten_append, List.flatten_cons, List.cons_append]
      exact List.perm_middle.symm
    exact (ih.cons b).trans hmove

/-- The order of the `tasks` does not matter. -/
theorem of_perm {tasks tasks' : List (List β)} {schedule : List β} (h : Interleaving tasks schedule)
    (hperm : tasks.Perm tasks') : Interleaving tasks' schedule := by
  induction h generalizing tasks' with
  | done hdone => exact .done fun task hmem => hdone task (hperm.mem_iff.mpr hmem)
  | @step before after b rest schedule _ ih =>
    have hmem : (b :: rest) ∈ tasks' := hperm.mem_iff.mp (by simp)
    obtain ⟨before', after', rfl⟩ := List.append_of_mem hmem
    -- the other tasks are the same, so the next step may be taken in either list
    have hothers : (before ++ after).Perm (before' ++ after') :=
      ((List.perm_middle.symm.trans hperm).trans List.perm_middle).cons_inv
    exact .step (ih ((List.perm_middle.trans (hothers.cons rest)).trans List.perm_middle.symm))

/-- A task `[]` without steps may be left out. -/
theorem cons_nil {tasks : List (List β)} {schedule : List β} (h : Interleaving tasks schedule) :
    Interleaving ([] :: tasks) schedule := by
  induction h with
  | done hdone => exact .done (by simpa using hdone)
  | @step before after b rest schedule _ ih => exact @step β ([] :: before) after b rest schedule ih

/-- The `tasks` may run one after the other. -/
theorem flatten (tasks : List (List β)) : Interleaving tasks tasks.flatten := by
  induction tasks with
  | nil => exact .done (by simp)
  | cons task tasks ih =>
    induction task with
    | nil => exact ih.cons_nil
    | cons b rest ih' => exact @step β [] tasks b rest _ ih'

end Interleaving

end FemAssembly
