import FemAssembly.Message.Encoding
import FemAssembly.Message.World

/-!
# Programs of ranks

What a rank does is a program: a tree of requests to its communicator, with what follows for every
answer. The same program runs on every communicator. A rank has a memory, where it puts a value that
stays even if the program fails later.

* `RankProgram`: the programs, a monad.
* `RankProgram.runAlone`: the run of a rank without peers.
* `RankProgram.runScripted`: the run of a rank whose peers follow a script.
* `Place`: a rank and the number of ranks.
-/

namespace FemAssembly

/-- The rank `rank` among `size` ranks. -/
structure Place where
  rank : Nat
  size : Nat
  deriving DecidableEq, Repr

/-- One list for each rank has to fit into an array. -/
def Place.checkSize (place : Place) : Except Error Unit := Word.reserve place.size 24

/-- The program of a rank that sends units `β`, has a memory of type `σ` and a result of type `α`. A
request that fails ends the program. -/
inductive RankProgram (β σ α : Type) where
  | done (result : α)
  | fail (error : Error)
  /-- send a message -/
  | send (peer : Nat) (tag : Tag) (payload : List β) (next : RankProgram β σ α)
  /-- post a receive -/
  | post (peer : Nat) (tag : Tag) (next : Handle → RankProgram β σ α)
  /-- wait for a message; some handles complete without one -/
  | wait (handle : Handle) (next : Option (List β) → RankProgram β σ α)
  | note (event : Event) (next : RankProgram β σ α)
  /-- put a value into the memory -/
  | save (memory : σ) (next : RankProgram β σ α)

namespace RankProgram

variable {β σ α γ δ : Type}

/-- Go on with `f` where the program is done. -/
protected def bind : RankProgram β σ α → (α → RankProgram β σ γ) → RankProgram β σ γ
  | done result, f => f result
  | fail error, _ => fail error
  | send peer tag payload next, f => send peer tag payload (next.bind f)
  | post peer tag next, f => post peer tag fun handle => (next handle).bind f
  | wait handle next, f => wait handle fun message => (next message).bind f
  | note event next, f => note event (next.bind f)
  | save memory next, f => save memory (next.bind f)

instance : Monad (RankProgram β σ) where
  pure := done
  bind := RankProgram.bind

theorem bind_done (p : RankProgram β σ α) : p.bind done = p := by
  induction p <;> simp_all [RankProgram.bind]

theorem bind_assoc (p : RankProgram β σ α) (f : α → RankProgram β σ γ) (g : γ → RankProgram β σ δ) :
    (p.bind f).bind g = p.bind fun a => (f a).bind g := by
  induction p <;> simp_all [RankProgram.bind]

instance : LawfulMonad (RankProgram β σ) := LawfulMonad.mk' _
  (fun p => bind_done p) (fun _ _ => rfl) (fun p f g => bind_assoc p f g)

/-- A computation without messages. -/
def ofExcept : Except Error α → RankProgram β σ α
  | .ok result => done result
  | .error error => fail error

instance : MonadLift (Except Error) (RankProgram β σ) := ⟨ofExcept⟩

/-- The computation `x` without messages, with its events. -/
def ofNoted (x : Noted α) : RankProgram β σ α := x.events.foldr note (ofExcept x.result)

instance : MonadLift Noted (RankProgram β σ) := ⟨ofNoted⟩

/-! ## Single requests -/

def sendMessage (peer : Nat) (tag : Tag) (payload : List β) : RankProgram β σ Unit :=
  send peer tag payload (done ())

def postReceive (peer : Nat) (tag : Tag) : RankProgram β σ Handle := post peer tag done

def waitMessage (handle : Handle) : RankProgram β σ (Option (List β)) := wait handle done

def noteEvent (event : Event) : RankProgram β σ Unit := note event (done ())

def remember (memory : σ) : RankProgram β σ Unit := save memory (done ())

/-- Wait at `handle` for a message of values. -/
def waitValues [Plain β α] (handle : Handle) : RankProgram β σ (List α) := do
  match ← waitMessage handle with
  | some message => decode message
  | none => fail (.communication .handleWithoutData)

/-! ## Runs of one rank -/

/-- What is left when a program has ended. -/
structure Outcome (σ α : Type) where
  result : Except Error α
  memory : σ
  events : List Event

/-- Run a program without peers, from `memory`: every send and every receive fails, and a handle
completes without data. -/
def runAlone (memory : σ) : RankProgram β σ α → Outcome σ α
  | done result => ⟨.ok result, memory, []⟩
  | fail error => ⟨.error error, memory, []⟩
  | send peer _ _ _ => ⟨.error (.communication (.alone peer)), memory, []⟩
  | post peer _ _ => ⟨.error (.communication (.alone peer)), memory, []⟩
  | wait _ next => (next none).runAlone memory
  | note event next =>
    let rest := next.runAlone memory
    { rest with events := event :: rest.events }
  | save memory next => next.runAlone memory

/-- The messages that peers will have sent, and the messages sent to them so far, last first. A
message may complete without data. -/
structure Script (β : Type) where
  incoming : Nat → List (Option (List β))
  sent : List (Nat × Envelope β) := []

/-- Run a program of `rank` against `script`: sends are recorded, and a wait takes the next message
of the peer, whatever its tag. -/
def runScripted (rank : Nat) (script : Script β) (memory : σ) :
    RankProgram β σ α → Script β × Outcome σ α
  | done result => (script, ⟨.ok result, memory, []⟩)
  | fail error => (script, ⟨.error error, memory, []⟩)
  | send peer tag payload next =>
    next.runScripted rank { script with sent := (peer, ⟨tag, payload⟩) :: script.sent } memory
  | post peer tag next => (next ⟨rank, peer, tag⟩).runScripted rank script memory
  | wait handle next =>
    match script.incoming handle.peer with
    | [] => (script, ⟨.error (.communication (.unscripted handle.peer)), memory, []⟩)
    | message :: rest =>
      (next message).runScripted rank
        { script with
          incoming := fun peer => if peer = handle.peer then rest else script.incoming peer }
        memory
  | note event next =>
    let (script, rest) := next.runScripted rank script memory
    (script, { rest with events := event :: rest.events })
  | save memory next => next.runScripted rank script memory

end RankProgram

end FemAssembly
