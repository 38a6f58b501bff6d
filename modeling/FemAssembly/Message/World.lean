import FemAssembly.Event
import FemAssembly.Word

/-!
# Worlds of ranks

A world connects a number of ranks. Every ordered pair of ranks has its own queue, without a bound,
so sending never blocks. A message is a list of units `β`. A receive is posted first, which gives a
handle, and the message is taken when the handle is waited on.

* `World`: the queues, which ranks still hold their communicator, and how many handles are pending
  at each queue.
* `World.create`: the world of a number of ranks before any message.
* `World.send`, `World.post`, `World.wait`: the operations of a rank. Tags are compared when a
  message is taken.
* `World.drop`, `World.dropHandle`, `World.leave`: giving up a communicator or a handle.
* `World.queue_send`: a queue grows at its end.
-/

namespace FemAssembly

/-- The number that says what a message is for. -/
abbrev Tag := Nat

namespace Tag

/-- Messages that set up an exchange. -/
def setup : Tag := 1
/-- Flags of eliminated rows. -/
def elimination : Tag := 2
/-- Values for a matrix-vector product. -/
def product : Tag := 3
/-- Contributions to rows of other ranks. -/
def galerkin : Tag := 4

end Tag

/-- A message under way: what it is for, and its units. -/
structure Envelope (β : Type) where
  tag : Tag
  payload : List β
  deriving DecidableEq, Repr

/-- A pending receive of `rank` from `peer`. -/
structure Handle where
  rank : Nat
  peer : Nat
  tag : Tag
  deriving DecidableEq, Repr

/-- The function `f` of pairs of ranks with the value `x` at the pair of `a` and `b`. -/
def updatePair {γ : Type} (f : Nat → Nat → γ) (a b : Nat) (x : γ) : Nat → Nat → γ :=
  fun c d => if c = a ∧ d = b then x else f c d

theorem updatePair_same {γ : Type} (f : Nat → Nat → γ) (a b : Nat) (x : γ) :
    updatePair f a b x a b = x := by
  simp [updatePair]

theorem updatePair_ne {γ : Type} (f : Nat → Nat → γ) {a b c d : Nat} (x : γ)
    (h : ¬ (c = a ∧ d = b)) : updatePair f a b x c d = f c d := by
  simp [updatePair, h]

structure World (β : Type) where
  /-- the number of ranks -/
  size : Nat
  /-- the messages from one rank to another, oldest first -/
  queue : Nat → Nat → List (Envelope β)
  /-- the rank still holds its communicator -/
  present : Nat → Bool
  /-- the number of pending handles for the messages from one rank to another -/
  pending : Nat → Nat → Nat

namespace World

variable {β : Type}

/-- The world of `size` ranks before any message. -/
def new (size : Nat) : World β := ⟨size, fun _ _ => [], fun _ => true, fun _ _ => 0⟩

/-- The world of `size` ranks, if the ends of a rank's queues fit into an array. -/
def create (size : Nat) : Except Error (World β) := do
  Word.reserve size 16
  pure (new size)

variable (w : World β)

/-- Someone can still take messages from `source` to `target`: the target's communicator, or a
pending handle. -/
def canReceive (source target : Nat) : Bool := w.present target || 0 < w.pending source target

def checkPeer (peer : Nat) : Except Error Unit :=
  if peer < w.size then .ok () else .error (.communication (.unknownPeer peer w.size))

/-- Put the message `payload` at the end of the queue from `rank` to `peer`. -/
def send (rank peer : Nat) (tag : Tag) (payload : List β) : Noted (World β) := do
  w.checkPeer peer
  Noted.note (.sending rank payload.length peer tag)
  if w.canReceive rank peer then
    pure { w with queue := updatePair w.queue rank peer (w.queue rank peer ++ [⟨tag, payload⟩]) }
  else Noted.fail (.communication (.lost rank peer))

/-- Post a receive of `rank` from `peer`. -/
def post (rank peer : Nat) (tag : Tag) : Except Error (Handle × World β) := do
  w.checkPeer peer
  pure (⟨rank, peer, tag⟩,
    { w with pending := updatePair w.pending peer rank (w.pending peer rank + 1) })

/-- The world `w` with the handle `h` given up. -/
def dropHandle (h : Handle) : World β :=
  { w with pending := updatePair w.pending h.peer h.rank (w.pending h.peer h.rank - 1) }

/-- Take the message that `h` waits for. A message with another tag is taken as well, but is an
error. Without a message the handle waits on, unless the sender is gone. -/
def wait (h : Handle) : Option (World β × Noted (List β)) :=
  match w.queue h.peer h.rank with
  | envelope :: rest =>
    let taken := { w.dropHandle h with queue := updatePair w.queue h.peer h.rank rest }
    if envelope.tag = h.tag then
      some (taken, do
        Noted.note (.received h.rank envelope.payload.length h.peer h.tag)
        pure envelope.payload)
    else some (taken, Noted.fail (.communication (.wrongTag h.rank h.peer h.tag envelope.tag)))
  | [] =>
    if w.present h.peer then none
    else some (w.dropHandle h, Noted.fail (.communication (.lost h.rank h.peer)))

/-- The communicator of `rank` is given up. The pending handles of the rank stay. -/
def drop (rank : Nat) : World β :=
  { w with present := fun r => if r = rank then false else w.present r }

/-- The rank `rank` goes away, with its communicator and its pending handles. -/
def leave (rank : Nat) : World β :=
  { w.drop rank with
    pending := fun source target => if target = rank then 0 else w.pending source target }

/-! ## Queues -/

/-- Sending puts the message at the end of the queue from `rank` to `peer` and leaves the other
queues alone. -/
theorem queue_send {w w' : World β} {rank peer : Nat} {tag : Tag} {payload : List β}
    (h : (w.send rank peer tag payload).result = .ok w') (a b : Nat) :
    w'.queue a b =
      if a = rank ∧ b = peer then w.queue a b ++ [⟨tag, payload⟩] else w.queue a b := by
  unfold send at h
  simp only [Noted.result_bind, Noted.result_note, Noted.result_monadLift] at h
  cases hc : w.checkPeer peer with
  | error e => simp [hc, bind, Except.bind] at h
  | ok _ =>
    simp only [hc, bind, Except.bind] at h
    split at h
    · cases h
      by_cases hp : a = rank ∧ b = peer
      · obtain ⟨rfl, rfl⟩ := hp
        simp [updatePair_same]
      · simp [updatePair_ne, hp]
    · cases h

end World

end FemAssembly
