import FemAssembly.Message.World

/-!
# Networks of channels

Ranks are connected by channels, one for every ordered pair. A channel counts its ends, because a
message cannot be sent once no receiving end is left, and a receiver need not wait once no sending
end is left. A communicator holds the sending end of the channel to every rank and a receiving end
of the channel from every rank. A pending receive holds a receiving end of its own, so it outlives
the communicator that posted it. Channels are known by their numbers.

* `Channel`, `Channel.receive?`: a queue with its ends, and what a receiving end gets.
* `Communicator`, `Receive`: the ends that a rank holds.
* `Wiring.complete`: the channels of all pairs, and the ends that each rank gets.
* `Network.create`: the network of a number of ranks before any message.
* `Network.send`, `Network.post`, `Network.wait`: the operations of a rank.
* `Network.drop`, `Network.dropHandle`: giving up a communicator or a pending receive.
-/

namespace FemAssembly

variable {β : Type}

/-- A queue of messages without a bound, oldest first, and how many of its ends are in use. -/
structure Channel (β : Type) where
  queue : List (Envelope β)
  senders : Nat
  receivers : Nat
  deriving DecidableEq, Repr

namespace Channel

/-- A channel as it is made, with one end of each kind. -/
def fresh : Channel β := ⟨[], 1, 1⟩

/-- What a receiving end of `c` gets: the oldest message, or nothing if there is none and no sending
end is left. While there is none and a sending end is in use, it waits: `none`. -/
def receive? (c : Channel β) : Option (Option (Envelope β)) :=
  match c.queue with
  | envelope :: _ => some (some envelope)
  | [] => if 0 < c.senders then none else some none

def push (envelope : Envelope β) (c : Channel β) : Channel β :=
  { c with queue := c.queue ++ [envelope] }

/-- The channel `c` without its oldest message, if it has one. -/
def pop (c : Channel β) : Channel β := { c with queue := c.queue.tail }

def closeSender (c : Channel β) : Channel β := { c with senders := c.senders - 1 }

def openReceiver (c : Channel β) : Channel β := { c with receivers := c.receivers + 1 }

def closeReceiver (c : Channel β) : Channel β := { c with receivers := c.receivers - 1 }

end Channel

/-- The numbers of the channels of `rank`: in `senders` those to every rank, in `receivers` those
from every rank. -/
structure Communicator where
  rank : Nat
  senders : Array Nat
  receivers : Array Nat
  deriving DecidableEq, Repr

namespace Communicator

variable (c : Communicator)

def size : Nat := c.senders.size

def checkPeer (peer : Nat) : Except Error Unit :=
  if peer < c.size then .ok () else .error (.communication (.unknownPeer peer c.size))

end Communicator

/-- A pending receive, with the number `channel` of its channel. -/
structure Receive extends Handle where
  channel : Nat
  deriving DecidableEq, Repr

/-- What `h` makes of the message that it got. The message is gone, also if it has another tag.
Without a message the connection is lost. -/
def Handle.answer (h : Handle) : Option (Envelope β) → Noted (List β)
  | some envelope =>
    if envelope.tag = h.tag then do
      Noted.note (.received h.rank envelope.payload.length h.peer h.tag)
      pure envelope.payload
    else Noted.fail (.communication (.wrongTag h.rank h.peer h.tag envelope.tag))
  | none => Noted.fail (.communication (.lost h.rank h.peer))

/-! ## Connecting the ranks -/

/-- The channels made so far, and the ends that each rank has got so far. -/
structure Wiring (β : Type) where
  channels : Array (Channel β)
  senders : Array (Array Nat)
  receivers : Array (Array Nat)

namespace Wiring

/-- Make a channel from `source` to `target`, and give its ends to the two. -/
def connect (w : Wiring β) (source target : Nat) : Wiring β where
  channels := w.channels.push .fresh
  senders := w.senders.modify source (·.push w.channels.size)
  receivers := w.receivers.modify target (·.push w.channels.size)

/-- Connect `source` to the first `count` ranks, itself included. -/
def connectFrom (count : Nat) (w : Wiring β) (source : Nat) : Wiring β :=
  (List.range count).foldl (fun w target => w.connect source target) w

def empty (size : Nat) : Wiring β := ⟨#[], Array.replicate size #[], Array.replicate size #[]⟩

/-- Connect every one of `size` ranks to every rank. -/
def complete (size : Nat) : Wiring β := (List.range size).foldl (connectFrom size) (empty size)

end Wiring

/-- Channels, and the communicators of the ranks that still hold theirs. -/
structure Network (β : Type) where
  channels : Array (Channel β)
  communicators : Array (Option Communicator)
  deriving DecidableEq, Repr

namespace Network

/-- The network of `size` ranks before any message. -/
def new (size : Nat) : Network β :=
  let wiring := Wiring.complete size
  { channels := wiring.channels
    communicators := (wiring.senders.zip wiring.receivers).mapIdx
      fun rank (senders, receivers) => some ⟨rank, senders, receivers⟩ }

/-- The network of `size` ranks, if the ends that a rank gets fit into an array. -/
def create (size : Nat) : Except Error (Network β) := do
  Word.reserve size 16
  pure (new size)

variable (n : Network β)

/-- The communicator of `rank`, unless the rank has given it up. -/
def communicator? (rank : Nat) : Option Communicator := n.communicators[rank]?.join

def channel (number : Nat) : Channel β := n.channels.getD number ⟨[], 0, 0⟩

/-- The network `n` with the channel `number` changed by `f`. -/
def update (number : Nat) (f : Channel β → Channel β) : Network β :=
  { n with channels := n.channels.modify number f }

/-- The network `n` with the channels `numbers` changed by `f`, one after the other. -/
def updateAll (numbers : Array Nat) (f : Channel β → Channel β) : Network β :=
  numbers.foldl (fun n number => n.update number f) n

/-- Put the message `payload` into the channel of `c` to `peer`. -/
def send (c : Communicator) (peer : Nat) (tag : Tag) (payload : List β) : Noted (Network β) := do
  c.checkPeer peer
  Noted.note (.sending c.rank payload.length peer tag)
  let number ← Word.orFault c.senders[peer]?
  if 0 < (n.channel number).receivers then pure (n.update number (·.push ⟨tag, payload⟩))
  else Noted.fail (.communication (.lost c.rank peer))

/-- Post a receive of `c` from `peer`. -/
def post (c : Communicator) (peer : Nat) (tag : Tag) : Except Error (Receive × Network β) := do
  c.checkPeer peer
  let number ← Word.orFault c.receivers[peer]?
  pure (⟨⟨c.rank, peer, tag⟩, number⟩, n.update number Channel.openReceiver)

/-- Give up the pending receive `h`. -/
def dropHandle (h : Receive) : Network β := n.update h.channel Channel.closeReceiver

/-- Take what the channel of the pending receive `h` has for it, which ends the receive. -/
def take (h : Receive) : Option (Network β × Option (Envelope β)) :=
  (n.channel h.channel).receive?.map fun received =>
    ((n.update h.channel Channel.pop).dropHandle h, received)

/-- Wait for the message of the pending receive `h`. -/
def wait (h : Receive) : Option (Network β × Noted (List β)) :=
  (n.take h).map fun (n, received) => (n, h.answer received)

/-- The communicator of `rank` is given up, with all its ends. The pending receives of the rank
stay. -/
def drop (rank : Nat) : Network β :=
  match n.communicator? rank with
  | none => n
  | some c =>
    let closed := (n.updateAll c.senders Channel.closeSender).updateAll c.receivers
      Channel.closeReceiver
    { closed with communicators := n.communicators.setIfInBounds rank none }

end Network

end FemAssembly
