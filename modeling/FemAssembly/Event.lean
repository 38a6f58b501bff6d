import FemAssembly.Error

/-!
# Events

Operations note what they have done as `Event`s, in order. `Noted α` is the outcome of an operation
that may fail, together with the events noted on the way; the events before a failure stay.

* `Event.level`, `Event.message`: how an event is logged.
* `Noted.result_bind`, `Noted.result_note`: the result of a computation does not depend on its
  events, so a proof about results never looks at them.
-/

namespace FemAssembly

/-- Something worth noting. -/
inductive Event where
  | restrictionBuilt (dofs elements slots : Nat)
  | assemblerPrepared (kind : Discretization) (dofs elements width : Nat)
  | countFinished (rows nonzeros : Nat)
  | fillFinished (nonzeros : Nat)
  | assembled (kind : Discretization) (dofs elements nonzeros : Nat)
  | eliminated (dofs : Nat)
  | sending (rank bytes peer tag : Nat)
  | received (rank bytes peer tag : Nat)
  | planned (rank receives sends : Nat)
  | adopted (rank : Nat)
  | copied (rank : Nat)
  | galerkinChosen (rank : Nat)
  | contributionsSummed (rank triplets : Nat)
  | ranksEliminated (rank rows columns : Nat)
  | distributed (rank size rows global diagonal offDiagonal : Nat)
  deriving DecidableEq, Repr

/-- How important an event is. -/
inductive Level where
  | info
  | debug
  | trace
  deriving DecidableEq, Repr

def Level.name : Level → String
  | info => "INFO"
  | debug => "DEBUG"
  | trace => "TRACE"

namespace Event

/-- The `Level` of an event: finished matrices are of interest to every user, single messages only
to a tracer. -/
def level : Event → Level
  | assembled .. | distributed .. => .info
  | sending .. | received .. => .trace
  | _ => .debug

def message : Event → String
  | restrictionBuilt dofs elements slots =>
    s!"Built element restriction: {dofs} DOFs, {elements} elements, {slots} DOFs per element"
  | assemblerPrepared kind dofs elements width =>
    s!"Prepared batched {kind.name} assembler: {dofs} DOFs, {elements} elements, " ++
      s!"{width} candidates per row"
  | countFinished rows nonzeros => s!"Count pass finished: {rows} rows, {nonzeros} nonzeros"
  | fillFinished nonzeros => s!"Fill pass finished: {nonzeros} nonzeros written"
  | assembled kind dofs elements nonzeros =>
    s!"Assembled {kind.name} matrix: {dofs} DOFs, {elements} elements, {nonzeros} nonzeros"
  | eliminated dofs => s!"Eliminated {dofs} essential DOFs (diagonal kept)"
  | sending rank bytes peer tag =>
    s!"Rank {rank} sends {bytes} bytes to rank {peer} (tag {tagText tag})"
  | received rank bytes peer tag =>
    s!"Rank {rank} received {bytes} bytes from rank {peer} (tag {tagText tag})"
  | planned rank receives sends =>
    s!"Rank {rank} communication package: receives from {receives} peers, sends to {sends} peers"
  | adopted rank => s!"Rank {rank} adopted the storage of its local block"
  | copied rank => s!"Rank {rank} copied its local block, which is shared elsewhere"
  | galerkinChosen rank => s!"Rank {rank} forms the distributed matrix as a Galerkin product"
  | contributionsSummed rank triplets =>
    s!"Rank {rank} summed Galerkin contributions: {triplets} triplets"
  | ranksEliminated rank rows columns =>
    s!"Rank {rank} eliminated {rows} owned rows and {columns} off-diagonal columns"
  | distributed rank size rows global diagonal offDiagonal =>
    s!"Rank {rank} of {size} assembled distributed matrix: {rows} of {global} rows, " ++
      s!"{diagonal} diagonal and {offDiagonal} off-diagonal nonzeros"

end Event

/-- The `result` of an operation, and the `events` that it noted before it ended. -/
structure Noted (α : Type) where
  events : List Event
  result : Except Error α

namespace Noted

variable {α β : Type}

/-- The outcome `result` without events. -/
def ofExcept (result : Except Error α) : Noted α := ⟨[], result⟩

/-- Note one `event`. -/
def note (event : Event) : Noted Unit := ⟨[event], .ok ()⟩

def fail (error : Error) : Noted α := ⟨[], .error error⟩

/-- Run `f` on the result of `x`, after the events of `x`. -/
protected def bind (x : Noted α) (f : α → Noted β) : Noted β :=
  match x.result with
  | .ok a => ⟨x.events ++ (f a).events, (f a).result⟩
  | .error e => ⟨x.events, .error e⟩

instance : Monad Noted where
  pure a := ⟨[], .ok a⟩
  bind := Noted.bind

instance : MonadLift (Except Error) Noted := ⟨ofExcept⟩

@[simp] theorem result_pure (a : α) : (pure a : Noted α).result = .ok a := rfl

@[simp] theorem result_bind (x : Noted α) (f : α → Noted β) :
    (x >>= f).result = x.result >>= fun a => (f a).result := by
  change (x.bind f).result = _
  unfold Noted.bind
  cases x.result <;> rfl

@[simp] theorem result_note (event : Event) : (note event).result = .ok () := rfl

@[simp] theorem result_fail (error : Error) : (fail error : Noted α).result = .error error := rfl

@[simp] theorem result_ofExcept (result : Except Error α) : (ofExcept result).result = result := rfl

@[simp] theorem result_monadLift (result : Except Error α) :
    (monadLift result : Noted α).result = result := rfl

@[simp] theorem result_liftM (result : Except Error α) :
    (liftM result : Noted α).result = result := rfl

@[simp] theorem result_mapM (f : α → Noted β) (list : List α) :
    (list.mapM f).result = list.mapM fun a => (f a).result := by
  have hloop : ∀ (list : List α) (results : List β), (List.mapM.loop f list results).result =
      List.mapM.loop (fun a => (f a).result) list results := by
    intro list
    induction list with
    | nil => exact fun _ => rfl
    | cons a list ih =>
      intro results
      rw [List.mapM.loop, List.mapM.loop, result_bind]
      cases (f a).result with
      | error error => rfl
      | ok b => exact ih (b :: results)
  exact hloop list []

end Noted

end FemAssembly
