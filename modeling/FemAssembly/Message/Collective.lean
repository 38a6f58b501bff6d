import FemAssembly.Message.Program

/-!
# Collective messages

* `RankProgram.allToAll`: every rank sends one list of values to every other rank, and gets one from
  each. All ranks have to take part, with the same tag.
-/

namespace FemAssembly

namespace RankProgram

variable {β σ α : Type} [Plain β α]

/-- Post the receive from `peer` and send it its list of `outgoing`. A rank has nothing to say to
itself. -/
def swapWith (place : Place) (tag : Tag) (outgoing : List (List α)) (peer : Nat) :
    RankProgram β σ (Option Handle) :=
  if peer = place.rank then pure none
  else do
    let handle ← postReceive peer tag
    let values ← Word.orFault outgoing[peer]?
    sendMessage peer tag (encode values)
    pure (some handle)

/-- The values that arrive at a handle; without one, `none`, there are no values. -/
def waitOptional : Option Handle → RankProgram β σ (List α)
  | some handle => waitValues handle
  | none => pure []

/-- Send `outgoing` to the peers, one list to each, and return what each of them sent, in the order
of the ranks. The entry of the rank itself is empty. -/
def allToAll (place : Place) (tag : Tag) (outgoing : List (List α)) :
    RankProgram β σ (List (List α)) := do
  let handles ← (List.range place.size).mapM (swapWith place tag outgoing)
  handles.mapM waitOptional

end RankProgram

end FemAssembly
