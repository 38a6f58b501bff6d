import FemAssembly.Distributed.Assembly
import FemAssembly.Message.Ensemble

/-!
# Sessions

A session is what a rank keeps between the operations that the ranks carry out together: its current
matrix, and a halo plan of its own. An operation is a `Request`, and its answer a `Reply`.

* `Session.perform`: the program of a rank for one request.
* `performAlone`, `performScripted`: a list of steps on one rank, without peers or with scripted
  ones.
* `Team.performAll`: a list of steps on all ranks of a world. A failing rank ends the work of a team
  of two or more.
-/

namespace FemAssembly

/-- The memory of a rank between operations: the current `matrix`, and perhaps a `plan` of its own.
-/
structure Session (α : Type) where
  matrix : Option (DistributedMatrix α) := none
  /-- a plan that takes the place of the plan of the matrix -/
  plan : Option HaloPlan := none

inductive Request (α : Type) where
  | fromLocalBlock (layout : Layout α) (block : SparseMatrix α) (shared : Bool)
  | blockDiagonal (rowStarts : Array Nat) (block : SparseMatrix α) (shared : Bool)
  | fromLocalRows (rowStarts : Array Nat) (rows : SparseMatrix α)
  | galerkin (rowStarts : Array Nat) (block prolongation : SparseMatrix α)
  | assemble (assembler : Assembler α) (layout : Layout α) (essential : List Nat)
  | eliminate (essential : List Nat) (strategy : ColumnElimination)
  | mul (x : Array α)
  | toLocalRows
  | plan (rowStarts : Array Nat) (columns : List Nat)
  | exchangeFlags (tag : Tag) (flags : Array UInt8)
  /-- exchange words, whatever they stand for -/
  | exchangeWords (tag : Tag) (words : Array UInt64)
  | allToAll (tag : Tag) (outgoing : List (List UInt64))

inductive Reply (α : Type) where
  | matrix (matrix : DistributedMatrix α)
  | rows (rows : SparseMatrix α)
  | plan (plan : HaloPlan)
  | vector (values : List α)
  | flags (flags : List UInt8)
  | words (words : List UInt64)
  | wordLists (lists : List (List UInt64))

/-- The program of a rank for one step, after the `Session` that it keeps from the steps before. -/
abbrev SessionStep (β α : Type) := Place → Session α → RankProgram β (Session α) (Reply α)

namespace Session

variable {α β : Type}

/-- The current matrix of `s`. -/
def needMatrix (s : Session α) : Except Error (DistributedMatrix α) :=
  match s.matrix with
  | some matrix => .ok matrix
  | none => .error .noMatrix

/-- The current plan of `s`: its own one, or else that of its matrix. -/
def needPlan (s : Session α) : Except Error HaloPlan :=
  match s.plan, s.matrix with
  | some plan, _ => .ok plan
  | none, some matrix => .ok matrix.plan
  | none, none => .error .noMatrix

/-- Make `matrix` the current one of `s`, and answer it. -/
def keep (s : Session α) (matrix : DistributedMatrix α) :
    RankProgram β (Session α) (Reply α) := do
  RankProgram.remember { s with matrix := some matrix }
  pure (.matrix matrix)

/-- Send and receive the `values` of `plan`. -/
def exchange {γ : Type} [Plain β γ] (plan : HaloPlan) (tag : Tag) (values : Array γ) :
    RankProgram β (Session α) (List γ) := do
  let exchange ← plan.startExchange tag values
  exchange.wait

variable [Zero α] [One α] [Neg α] [Add α] [Mul α] [BEq α]
  [Plain β UInt8] [Plain β UInt64] [Plain β Nat] [Plain β α]

/-- What a rank in the session `s` does for a request. A failed construction keeps the matrix from
before; a failed elimination keeps what is eliminated so far. -/
def perform (place : Place) (s : Session α) :
    Request α → RankProgram β (Session α) (Reply α)
  | .fromLocalBlock layout block shared => do
    s.keep (← DistributedMatrix.fromLocalBlock place layout block shared)
  | .blockDiagonal rowStarts block shared => do
    s.keep (← DistributedMatrix.blockDiagonal place rowStarts block shared)
  | .fromLocalRows rowStarts rows => do
    s.keep (← DistributedMatrix.fromLocalRows place rowStarts rows)
  | .galerkin rowStarts block prolongation => do
    s.keep (← DistributedMatrix.galerkin place rowStarts block prolongation)
  | .assemble assembler layout essential => do
    s.keep (← assembler.assembleDistributed place layout essential)
  | .eliminate essential strategy => do
    let matrix ← s.needMatrix
    let (matrix, exchange) ← matrix.startElimination essential
    RankProgram.remember { s with matrix := some matrix }
    s.keep (← matrix.finishElimination exchange essential strategy)
  | .mul x => do
    let matrix ← s.needMatrix
    return .vector (← matrix.mul x)
  | .toLocalRows => do
    let matrix ← s.needMatrix
    return .rows matrix.toLocalRows
  | .plan rowStarts columns => do
    place.checkSize
    let plan ← HaloPlan.create place rowStarts columns
    RankProgram.remember { s with plan := some plan }
    return .plan plan
  | .exchangeFlags tag flags => do
    return .flags (← exchange (← s.needPlan) tag flags)
  | .exchangeWords tag words => do
    return .words (← exchange (← s.needPlan) tag words)
  | .allToAll tag outgoing => do
    place.checkSize
    return .wordLists (← RankProgram.allToAll place tag outgoing)

end Session

variable {α β : Type}

/-! ## One rank -/

/-- Carry out `steps` without peers. Failures do not end the work. -/
def performAlone (steps : List (SessionStep β α)) (s : Session α := {}) :
    List (RankProgram.Outcome (Session α) (Reply α)) :=
  match steps with
  | [] => []
  | step :: steps =>
    let outcome := (step ⟨0, 1⟩ s).runAlone s
    outcome :: performAlone steps outcome.memory

/-- Carry out `steps` with scripted peers, where `incoming` is what each of them sent, and list with
each outcome what was sent to them, in order. Failures do not end the work. -/
def performScripted (place : Place) (incoming : Nat → List (Option (List β)))
    (steps : List (SessionStep β α)) (s : Session α := {}) :
    List (RankProgram.Outcome (Session α) (Reply α) × List (Nat × Envelope β)) :=
  match steps with
  | [] => []
  | step :: steps =>
    let (script, outcome) := (step place s).runScripted place.rank { incoming } s
    (outcome, script.sent.reverse) ::
      performScripted place script.incoming steps outcome.memory

/-! ## All ranks of a world -/

/-- What a rank tells about a step. -/
inductive Report (α : Type) where
  | finished (reply : Reply α) (events : List Event)
  | failed (error : Error)
  /-- the step was given up because another rank failed -/
  | peerFailed

/-- The ranks of a `world`, with their `sessions`. -/
structure Team (β α : Type) where
  world : World β
  sessions : List (Session α)

namespace Team

/-- A world of `size` ranks before any step. -/
def create (size : Nat) : Except Error (Team β α) := do
  let world ← World.create size
  pure ⟨world, List.replicate size {}⟩

/-- A failure that another rank caused by going away. -/
def isLoss : Error → Bool
  | .communication (.lost ..) => true
  | _ => false

/-- The rank `m` failed. -/
def hasFailed (m : Member β (Session α) (Reply α)) : Bool :=
  match m.program with
  | .fail _ => true
  | _ => false

/-- What the rank `m` tells: its own outcome, or that of a step in which some rank failed. -/
def report (someFailed : Bool) (m : Member β (Session α) (Reply α)) : Report α :=
  match m.program with
  | .done reply => if someFailed then .peerFailed else .finished reply m.events
  | .fail error => if someFailed && isLoss error then .peerFailed else .failed error
  | _ => .peerFailed

/-- Carry out one step on all ranks of `team`: each of the `steps` on its rank. -/
def perform (team : Team β α) (steps : List (SessionStep β α)) :
    Ensemble β (Session α) (Reply α) :=
  let size := team.sessions.length
  (Ensemble.start team.world ((steps.zip team.sessions).zipIdx.map fun ((step, s), rank) =>
    (step ⟨rank, size⟩ s, s))).run

/-- Carry out steps on all ranks of `team`. A team of two or more ends its work after a failure of
any rank. -/
def performAll (team : Team β α) : List (List (SessionStep β α)) → List (List (Report α))
  | [] => []
  | step :: steps =>
    let ended := team.perform step
    let together := 2 ≤ team.sessions.length
    let someFailed := together && ended.members.any hasFailed
    let reports := ended.members.map (report someFailed)
    if someFailed then [reports]
    else
      let team := ⟨ended.world, ended.members.map Member.memory⟩
      reports :: performAll team steps

end Team

end FemAssembly
