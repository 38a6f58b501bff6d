import FemAssembly.Message.Program

/-!
# Ensembles

An ensemble is a world together with the program of each of its ranks. In a step one rank carries
out the next request of its program. A rank that waits for a message which is not there cannot step,
unless the sender is gone. A rank whose program fails goes away.

* `Ensemble.step?`: the step of one rank, a function, so all freedom is in which rank steps.
* `Ensemble.Reaches`: what some interleaving of steps leads to.
* `Ensemble.run`: step the first rank that can, until none can. Every interleaving ends, because a
  step leaves a part of a program behind (`RankProgram.Follows`).
* `Ensemble.reaches_run`, `Ensemble.step?_run`: the run is such an interleaving, and it is complete.
-/

namespace FemAssembly

variable {β σ α : Type}

/-! ## Programs get shorter -/

/-- What may be left of a program after one request: `Follows q p` if the answer to the first
request of `p` may leave `q`. -/
inductive RankProgram.Follows : RankProgram β σ α → RankProgram β σ α → Prop
  | send (peer tag payload next) : Follows next (.send peer tag payload next)
  | sendFailed (error peer tag payload next) : Follows (.fail error) (.send peer tag payload next)
  | post (handle peer tag next) : Follows (next handle) (.post peer tag next)
  | postFailed (error peer tag next) : Follows (.fail error) (.post peer tag next)
  | wait (message handle next) : Follows (next message) (.wait handle next)
  | waitFailed (error handle next) : Follows (.fail error) (.wait handle next)
  | note (event next) : Follows next (.note event next)
  | save (memory next) : Follows next (.save memory next)

theorem RankProgram.acc_fail (error : Error) :
    Acc (Follows (β := β) (σ := σ) (α := α)) (.fail error) :=
  ⟨_, fun _ h => nomatch h⟩

/-- Every program `p` comes to an end. -/
theorem RankProgram.acc_follows (p : RankProgram β σ α) : Acc Follows p := by
  induction p with
  | done _ => exact ⟨_, fun _ h => nomatch h⟩
  | fail error => exact acc_fail error
  | send _ _ _ _ ih =>
    refine ⟨_, fun _ h => ?_⟩
    cases h with
    | send => exact ih
    | sendFailed => exact acc_fail _
  | post _ _ _ ih =>
    refine ⟨_, fun _ h => ?_⟩
    cases h with
    | post handle => exact ih handle
    | postFailed => exact acc_fail _
  | wait _ _ ih =>
    refine ⟨_, fun _ h => ?_⟩
    cases h with
    | wait message => exact ih message
    | waitFailed => exact acc_fail _
  | note _ _ ih => exact ⟨_, fun _ h => by cases h; exact ih⟩
  | save _ _ ih => exact ⟨_, fun _ h => by cases h; exact ih⟩

/-- One program of a list went on, the others stayed: `OneFollows` relates the list after this to
the one before. -/
inductive RankProgram.OneFollows : List (RankProgram β σ α) → List (RankProgram β σ α) → Prop
  | head {p q rest} : Follows p q → OneFollows (p :: rest) (q :: rest)
  | tail {p rest rest'} : OneFollows rest rest' → OneFollows (p :: rest) (p :: rest')

theorem RankProgram.acc_oneFollows (programs : List (RankProgram β σ α)) :
    Acc OneFollows programs := by
  induction programs with
  | nil => exact ⟨_, fun _ h => nomatch h⟩
  | cons p rest ih =>
    induction acc_follows p generalizing rest with
    | intro p _ ihp =>
      induction ih with
      | intro rest hrest ihrest =>
        refine ⟨_, fun _ h => ?_⟩
        cases h with
        | head h => exact ihp _ h rest ⟨_, hrest⟩
        | tail h => exact ihrest _ h

theorem RankProgram.OneFollows.set {programs : List (RankProgram β σ α)}
    {p q : RankProgram β σ α} {i : Nat} (h : Follows p q) (hq : programs[i]? = some q) :
    OneFollows (programs.set i p) programs := by
  induction programs generalizing i with
  | nil => simp at hq
  | cons r rest ih =>
    cases i with
    | zero =>
      obtain rfl : r = q := by simpa using hq
      exact .head h
    | succ i => exact .tail (ih (by simpa using hq))

/-! ## Members -/

/-- What a rank still has to do, its `memory`, and the `events` so far. -/
structure Member (β σ α : Type) where
  program : RankProgram β σ α
  memory : σ
  events : List Event := []

namespace Member

/-- The world after a step of `rank` that leaves a program: a failed program leaves `world`. -/
def settle (rank : Nat) (world : World β) : RankProgram β σ α → World β
  | .fail _ => world.leave rank
  | _ => world

/-- The rank `m` goes on with `program`, after some `events`. -/
def proceed (m : Member β σ α) (events : List Event) (program : RankProgram β σ α) :
    Member β σ α :=
  { m with program, events := m.events ++ events }

/-- What the rank `m` does with the `outcome` of a request: it goes on with `next`, or fails. -/
def continueWith {γ : Type} (m : Member β σ α) (events : List Event) (outcome : Except Error γ)
    (next : γ → RankProgram β σ α) : Member β σ α :=
  match outcome with
  | .ok answer => m.proceed events (next answer)
  | .error error => m.proceed events (.fail error)

/-- The world and the rank `m` after one request; `none` if the rank has ended or has to wait. -/
def step? (rank : Nat) (world : World β) (m : Member β σ α) : Option (World β × Member β σ α) :=
  match m.program with
  | .done _ | .fail _ => none
  | .send peer tag payload next =>
    let outcome := world.send rank peer tag payload
    some (outcome.result.toOption.getD world,
      m.continueWith outcome.events outcome.result fun _ => next)
  | .post peer tag next =>
    match world.post rank peer tag with
    | .ok (handle, world) => some (world, m.proceed [] (next handle))
    | .error error => some (world, m.proceed [] (.fail error))
  | .wait handle next =>
    (world.wait handle).map fun (world, outcome) =>
      (world, m.continueWith outcome.events outcome.result fun message => next (some message))
  | .note event next => some (world, m.proceed [event] next)
  | .save memory next => some (world, { m with program := next, memory })

theorem follows_continueWith {γ : Type} {m : Member β σ α} {events : List Event}
    {outcome : Except Error γ} {next : γ → RankProgram β σ α}
    (hok : ∀ answer, RankProgram.Follows (next answer) m.program)
    (herror : ∀ error, RankProgram.Follows (.fail error) m.program) :
    RankProgram.Follows (m.continueWith events outcome next).program m.program := by
  cases outcome with
  | ok answer => exact hok answer
  | error error => exact herror error

/-- The step from `m` to `m'` leaves less to do. -/
theorem follows_of_step? {rank : Nat} {world world' : World β} {m m' : Member β σ α}
    (h : m.step? rank world = some (world', m')) :
    RankProgram.Follows m'.program m.program := by
  unfold step? at h
  split at h
  · exact nomatch h
  · exact nomatch h
  · rename_i hp
    cases h
    refine follows_continueWith (fun _ => ?_) fun _ => ?_ <;> rw [hp] <;> constructor
  · rename_i hp
    rw [hp]
    split at h <;> (cases h; constructor)
  · rename_i hp
    obtain ⟨⟨_, _⟩, _, heq⟩ := Option.map_eq_some_iff.mp h
    cases heq
    refine follows_continueWith (fun _ => ?_) fun _ => ?_ <;> rw [hp] <;> constructor
  · rename_i hp
    rw [hp]
    cases h
    constructor
  · rename_i hp
    rw [hp]
    cases h
    constructor

end Member

/-! ## Ensembles -/

/-- A `world` and its ranks, in order. -/
structure Ensemble (β σ α : Type) where
  world : World β
  members : List (Member β σ α)

namespace Ensemble

/-- Let `ranks` start in `world` with their programs and memories. A program that fails before its
first request leaves the world at once. -/
def start (world : World β) (ranks : List (RankProgram β σ α × σ)) : Ensemble β σ α where
  world := ranks.zipIdx.foldl
    (fun world ((program, _), rank) => Member.settle rank world program) world
  members := ranks.map fun (program, memory) => { program, memory }

/-- The ensemble `e` after the step of `rank`. -/
def step? (e : Ensemble β σ α) (rank : Nat) : Option (Ensemble β σ α) := do
  let m ← e.members[rank]?
  let (world, m) ← m.step? rank e.world
  pure ⟨Member.settle rank world m.program, e.members.set rank m⟩

/-- What some interleaving of steps leads to: `Reaches e e'` if `e'` is reached from `e`. -/
inductive Reaches : Ensemble β σ α → Ensemble β σ α → Prop
  | refl (e) : Reaches e e
  | step {e e' e'' rank} : e.step? rank = some e' → Reaches e' e'' → Reaches e e''

/-- The step of the first rank of `e` that can step. -/
def next? (e : Ensemble β σ α) : Option (Ensemble β σ α) :=
  (List.range e.members.length).findSome? e.step?

theorem exists_of_next? {e e' : Ensemble β σ α} (h : e.next? = some e') :
    ∃ rank, e.step? rank = some e' := by
  obtain ⟨rank, -, hrank⟩ := List.exists_of_findSome?_eq_some h
  exact ⟨rank, hrank⟩

theorem step?_of_next? {e : Ensemble β σ α} (h : e.next? = none) (rank : Nat) :
    e.step? rank = none := by
  by_cases hr : rank < e.members.length
  · exact List.findSome?_eq_none_iff.mp h rank (List.mem_range.mpr hr)
  · simp [step?, Nat.le_of_not_lt hr]

/-- The programs of the ranks of `e`. -/
def programs (e : Ensemble β σ α) : List (RankProgram β σ α) := e.members.map Member.program

/-- The step from `e` to `e'` leaves less to do. -/
theorem oneFollows_of_step? {e e' : Ensemble β σ α} {rank : Nat} (h : e.step? rank = some e') :
    RankProgram.OneFollows e'.programs e.programs := by
  unfold step? at h
  obtain ⟨m, hm, h⟩ := Option.bind_eq_some_iff.mp h
  obtain ⟨⟨world, m'⟩, hstep, h⟩ := Option.bind_eq_some_iff.mp h
  cases h
  rw [programs, programs, List.map_set]
  exact .set (Member.follows_of_step? hstep) (by simp [hm])

instance : WellFoundedRelation (Ensemble β σ α) where
  rel := InvImage RankProgram.OneFollows programs
  wf := InvImage.wf _ ⟨RankProgram.acc_oneFollows⟩

/-- Step the first rank of `e` that can step, until none can. -/
def run (e : Ensemble β σ α) : Ensemble β σ α :=
  match h : e.next? with
  | none => e
  | some e' =>
    have : RankProgram.OneFollows e'.programs e.programs := by
      obtain ⟨rank, hrank⟩ := exists_of_next? h
      exact oneFollows_of_step? hrank
    run e'
termination_by e

theorem run_of_next?_none {e : Ensemble β σ α} (h : e.next? = none) : e.run = e := by
  rw [run]
  split
  · rfl
  · simp_all

theorem run_of_next?_some {e e' : Ensemble β σ α} (h : e.next? = some e') : e.run = e'.run := by
  rw [run]
  split
  · simp_all
  · simp_all

theorem reaches_run (e : Ensemble β σ α) : Reaches e e.run := by
  induction e using run.induct with
  | case1 e h =>
    rw [run_of_next?_none h]
    exact .refl e
  | case2 e e' h _ ih =>
    rw [run_of_next?_some h]
    obtain ⟨rank, hrank⟩ := exists_of_next? h
    exact .step hrank ih

/-- After a run of `e` no `rank` can step. -/
theorem step?_run (e : Ensemble β σ α) (rank : Nat) : e.run.step? rank = none := by
  induction e using run.induct with
  | case1 e h => rw [run_of_next?_none h, step?_of_next? h]
  | case2 e e' h _ ih => rw [run_of_next?_some h, ih]

end Ensemble

end FemAssembly
