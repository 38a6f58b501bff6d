import FemAssembly.Distributed.Rows
import FemAssembly.Message.Collective

/-!
# Halo plans

The off-diagonal columns of a rank are rows of other ranks. A halo plan says which of these columns
the rank receives from which peer, and which of its own rows it sends to which peer. An exchange
after the plan gives one value for every off-diagonal column.

* `HaloPlan.create`: the plan of the given columns. All ranks have to take part.
* `HaloPlan.startExchange`, `Exchange.wait`: the two halves of an exchange, between which a rank can
  compute.
-/

namespace FemAssembly

/-- A range of positions among the off-diagonal columns, all owned by one `peer`. -/
structure HaloBlock where
  peer : Nat
  start : Nat
  stop : Nat
  deriving DecidableEq, Repr

structure HaloPlan where
  /-- the columns received from each peer -/
  receives : List HaloBlock
  /-- the own rows, counted from the first one, sent to each peer -/
  sends : List (Nat × List Nat)
  deriving DecidableEq, Repr

/-- An exchange under way: the receives that are still `pending`. -/
structure Exchange where
  pending : List (HaloBlock × Handle)

namespace HaloBlock

/-- Put `position`, a column of `owner`, in front of blocks that start after it. -/
def extend (owner position : Nat) : List HaloBlock → List HaloBlock
  | block :: rest =>
    if block.peer = owner then { block with start := position } :: rest
    else ⟨owner, position, position + 1⟩ :: block :: rest
  | [] => [⟨owner, position, position + 1⟩]

/-- The maximal ranges of positions, from `start`, with one owner. -/
def ofOwners (start : Nat) : List Nat → List HaloBlock
  | [] => []
  | owner :: owners => extend owner start (ofOwners (start + 1) owners)

end HaloBlock

namespace HaloPlan

variable {β σ γ : Type}

/-- The number of values received in an exchange of `plan`. -/
def numReceived (plan : HaloPlan) : Nat := (plan.receives.getLast?.map HaloBlock.stop).getD 0

/-- The owner of the off-diagonal column `column` of a rank, which has to be another rank. -/
def columnOwner (place : Place) (starts : Array Nat) (column : Nat) : Except Error Nat := do
  let owner ← ownerOf starts column
  if owner = place.rank then .error (.inconsistent (.ownColumn column place.rank))
  else if owner < place.size then .ok owner
  else .error (.fault .outOfRange)

/-- The own number of `row`, which `peer` asks for: `row - first`. -/
def requestedRow (place : Place) (starts : Array Nat) (first peer row : Nat) :
    Except Error Nat := do
  if (← ownerOf starts row) ≠ place.rank then
    .error (.inconsistent (.foreignRequest peer row place.rank))
  else if row < first then .error (.fault .overflow)
  else .ok (row - first)

/-- The plan for the off-diagonal columns `columns`. Every owner is told which of its rows are
needed. -/
def create [Plain β Nat] (place : Place) (starts : Array Nat) (columns : List Nat) :
    RankProgram β σ HaloPlan := do
  let first ← Word.orFault starts[place.rank]?
  let owners ← (columns.mapM (columnOwner place starts) : Except Error (List Nat))
  let needed := (List.range place.size).map fun peer =>
    ((columns.zip owners).filter fun (_, owner) => owner == peer).map Prod.fst
  let requested ← RankProgram.allToAll place Tag.setup needed
  let sends ← ((requested.zipIdx.filter fun (rows, _) => !rows.isEmpty).mapM fun (rows, peer) => do
    pure (peer, ← rows.mapM (requestedRow place starts first peer)) :
      Except Error (List (Nat × List Nat)))
  let receives := HaloBlock.ofOwners 0 owners
  RankProgram.noteEvent (.planned place.rank receives.length sends.length)
  pure { receives, sends }

/-- The value of the own row `row`. -/
def ownValue (values : Array γ) (row : Nat) : Except Error γ :=
  match values[row]? with
  | some value => .ok value
  | none => .error (.inconsistent (.exchangeRow row values.size))

/-- Post all receives of `plan`, then send the `values` of the own rows that peers need. -/
def startExchange [Plain β γ] (plan : HaloPlan) (tag : Tag) (values : Array γ) :
    RankProgram β σ Exchange := do
  let pending ← plan.receives.mapM fun block => do
    pure (block, ← RankProgram.postReceive block.peer tag)
  plan.sends.forM fun (peer, rows) => do
    let message ← (rows.mapM (ownValue values) : Except Error (List γ))
    RankProgram.sendMessage peer tag (encode message)
  pure { pending }

end HaloPlan

namespace Exchange

variable {β σ γ : Type} [Plain β γ]

/-- Wait at `handle` for the values of `block`. -/
def waitBlock (block : HaloBlock) (handle : Handle) : RankProgram β σ (List γ) := do
  match ← RankProgram.waitMessage handle with
  | none => .fail (.communication .receiveWithoutData)
  | some message =>
    let values : List γ ← decode message
    let expected := block.stop - block.start
    if values.length = expected then pure values
    else .fail (.communication (.exchangeLength expected values.length))

/-- Wait for all values of `exchange`, one for each off-diagonal column. -/
def wait (exchange : Exchange) : RankProgram β σ (List γ) := do
  let parts ← exchange.pending.mapM fun (block, handle) => waitBlock block handle
  pure parts.flatten

end Exchange

end FemAssembly
