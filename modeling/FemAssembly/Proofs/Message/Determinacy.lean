import FemAssembly.Message.Ensemble

/-!
# The order of steps does not matter

A rank puts messages at the ends of queues that lead away from it, and takes messages from the heads
of queues that lead to it. So as long as no rank goes away, the steps of two ranks commute. If some
interleaving lets all ranks finish, then every interleaving does, with the same results.

* `World.Effect`: what one step does to a world. `World.Effect.apply_comm`: effects of two ranks
  commute.
* `Member.exists_effect`: a step has an effect, and it has the same one in every world that holds
  the same messages for the rank, or more.
* `Ensemble.Leads`: an interleaving in which no rank goes away.
* `Ensemble.diamond`: the steps of two ranks, in both orders.
* `Ensemble.Leads.of_step?`: a step taken out of turn is on the way to the same end.
* `Ensemble.Leads.determinate`: every interleaving comes to the same end.
-/

namespace FemAssembly

variable {β σ α : Type}

namespace World

/-- No rank of `w` has gone away. -/
def Intact (w : World β) : Prop := ∀ rank, w.present rank = true

/-- What a rank does to the world: the messages `sent` to each rank, the number of messages `taken`
from each rank, and the new numbers of `pending` handles for the messages of each rank. -/
structure Effect (β : Type) where
  sent : Nat → List (Envelope β) := fun _ => []
  taken : Nat → Nat := fun _ => 0
  pending : Nat → Nat → Nat := fun _ n => n

@[ext] theorem ext {v w : World β} (hsize : v.size = w.size)
    (hqueue : ∀ a b, v.queue a b = w.queue a b) (hpresent : ∀ a, v.present a = w.present a)
    (hpending : ∀ a b, v.pending a b = w.pending a b) : v = w := by
  obtain ⟨_, _, _, _⟩ := v
  obtain ⟨_, _, _, _⟩ := w
  rw [World.mk.injEq]
  exact ⟨hsize, funext fun a => funext (hqueue a), funext hpresent,
    funext fun a => funext (hpending a)⟩

namespace Effect

variable {rank other : Nat} {f g : Effect β} {w : World β}

/-- The world `w` after `rank` has the effect `f`. -/
def apply (rank : Nat) (f : Effect β) (w : World β) : World β :=
  { w with
    queue := fun a b =>
      (if b = rank then (w.queue a b).drop (f.taken a) else w.queue a b) ++
        if a = rank then f.sent b else []
    pending := fun a b => if b = rank then f.pending a (w.pending a b) else w.pending a b }

/-- The messages that `f` takes are there in `w`. -/
def Fits (rank : Nat) (f : Effect β) (w : World β) : Prop :=
  ∀ a, f.taken a ≤ (w.queue a rank).length

@[simp] theorem size_apply : (f.apply rank w).size = w.size := rfl

theorem intact_apply (h : w.Intact) : (f.apply rank w).Intact := h

theorem apply_default : (({} : Effect β).apply rank w) = w := by
  simp [apply]

/-- The messages for `rank` stay, and more may follow, when the rank `other` has its effect `g`. -/
theorem prefix_queue_apply (hne : rank ≠ other) (a : Nat) :
    w.queue a rank <+: (g.apply other w).queue a rank := by
  simp only [apply, if_neg hne]
  exact List.prefix_append ..

/-- The effects `f` and `g` of two ranks commute. -/
theorem apply_comm (hne : rank ≠ other) (hf : f.Fits rank w) (hg : g.Fits other w) :
    f.apply rank (g.apply other w) = g.apply other (f.apply rank w) := by
  have hqueue : ∀ a b, (f.apply rank (g.apply other w)).queue a b =
      (g.apply other (f.apply rank w)).queue a b := by
    intro a b
    simp only [apply]
    by_cases hr : b = rank
    · subst hr
      rw [if_neg hne, if_neg hne, List.drop_append_of_le_length (hf a)]
      by_cases ha : a = b
      · subst ha
        simp [hne]
      · simp [ha]
    · by_cases ho : b = other
      · subst ho
        simp only [if_neg hr, ↓reduceIte]
        rw [List.drop_append_of_le_length (hg a)]
        by_cases ha : a = b
        · subst ha
          simp [hr]
        · simp [ha]
      · simp only [if_neg hr, if_neg ho]
        by_cases ha : a = rank
        · subst ha
          simp [hne]
        · simp [ha]
  have hpending : ∀ a b, (f.apply rank (g.apply other w)).pending a b =
      (g.apply other (f.apply rank w)).pending a b := by
    intro a b
    simp only [apply]
    by_cases hr : b = rank
    · simp [hr, hne]
    · simp [hr]
  exact World.ext rfl hqueue (fun _ => rfl) hpending

end Effect

/-! ## The operations of a rank -/

/-- Sending to a rank `peer` of the world `w`, when nobody has gone away. -/
theorem send_eq {w : World β} (hw : w.Intact) (rank peer : Nat) (tag : Tag) (payload : List β) :
    w.send rank peer tag payload = if peer < w.size then
      ⟨[.sending rank payload.length peer tag], .ok (Effect.apply rank
        { sent := fun b => if b = peer then [⟨tag, payload⟩] else [] } w)⟩
    else Noted.fail (.communication (.unknownPeer peer w.size)) := by
  have hqueue :
      ({ w with queue :=
          updatePair w.queue rank peer (w.queue rank peer ++ [⟨tag, payload⟩]) } : World β) =
        Effect.apply rank { sent := fun b => if b = peer then [⟨tag, payload⟩] else [] } w := by
    refine World.ext rfl (fun a b => ?_) (fun _ => rfl) fun a b => ?_
    · simp only [Effect.apply, updatePair, List.drop_zero, ite_self]
      by_cases ha : a = rank <;> by_cases hb : b = peer <;> simp [ha, hb]
    · simp [Effect.apply]
  unfold send checkPeer canReceive
  rw [← hqueue]
  by_cases hpeer : peer < w.size
  · simp only [hpeer, hw peer, ↓reduceIte, Bool.true_or]
    rfl
  · simp only [hpeer, ↓reduceIte]
    rfl

theorem post_eq (w : World β) (rank peer : Nat) (tag : Tag) :
    w.post rank peer tag = if peer < w.size then
      .ok (⟨rank, peer, tag⟩, Effect.apply rank
        { pending := fun a n => if a = peer then n + 1 else n } w)
    else .error (.communication (.unknownPeer peer w.size)) := by
  have hpending : ({ w with pending := updatePair w.pending peer rank (w.pending peer rank + 1) } :
      World β) = Effect.apply rank { pending := fun a n => if a = peer then n + 1 else n } w := by
    refine World.ext rfl (fun a b => ?_) (fun _ => rfl) fun a b => ?_
    · simp [Effect.apply]
    · simp only [Effect.apply, updatePair]
      by_cases ha : a = peer <;> by_cases hb : b = rank <;> simp [ha, hb]
  unfold post checkPeer
  rw [← hpending]
  by_cases hpeer : peer < w.size
  · simp only [hpeer, ↓reduceIte]
    rfl
  · simp only [hpeer, ↓reduceIte]
    rfl

/-- What a rank gets to know when it takes `envelope` with the handle `h`. -/
def answer (h : Handle) (envelope : Envelope β) : Noted (List β) :=
  if envelope.tag = h.tag then
    ⟨[.received h.rank envelope.payload.length h.peer h.tag], .ok envelope.payload⟩
  else Noted.fail (.communication (.wrongTag h.rank h.peer h.tag envelope.tag))

theorem wait_eq_of_cons {w : World β} {h : Handle} {envelope : Envelope β}
    {rest : List (Envelope β)} (hq : w.queue h.peer h.rank = envelope :: rest) :
    w.wait h = some (Effect.apply h.rank
      { taken := fun a => if a = h.peer then 1 else 0
        pending := fun a n => if a = h.peer then n - 1 else n } w, answer h envelope) := by
  have htaken : ({ w.dropHandle h with queue := updatePair w.queue h.peer h.rank rest } : World β) =
      Effect.apply h.rank { taken := fun a => if a = h.peer then 1 else 0
                            pending := fun a n => if a = h.peer then n - 1 else n } w := by
    refine World.ext rfl (fun a b => ?_) (fun _ => rfl) fun a b => ?_
    · simp only [Effect.apply, updatePair]
      by_cases ha : a = h.peer <;> by_cases hb : b = h.rank <;> simp [ha, hb, hq]
    · simp only [Effect.apply, dropHandle, updatePair]
      by_cases ha : a = h.peer <;> by_cases hb : b = h.rank <;> simp [ha, hb]
  unfold wait answer
  rw [hq]
  simp only [htaken]
  split <;> rfl

end World

open World

/-- A program that waits next waits for a message to its own rank `rank`. -/
def RankProgram.OwnRequest (rank : Nat) : RankProgram β σ α → Prop
  | .wait handle _ => handle.rank = rank
  | _ => True

namespace Member

variable {rank : Nat} {w w' : World β} {m m' : Member β σ α}

/-- A step of the member `m` has an effect `f`, which the messages for `rank` decide. -/
theorem exists_effect (hw : w.Intact) (hown : m.program.OwnRequest rank)
    (h : m.step? rank w = some (w', m')) :
    ∃ f : Effect β, f.Fits rank w ∧ w' = f.apply rank w ∧
      ∀ v : World β, v.Intact → v.size = w.size → (∀ a, w.queue a rank <+: v.queue a rank) →
        m.step? rank v = some (f.apply rank v, m') := by
  have hempty : ({} : Effect β).Fits rank w := fun _ => Nat.zero_le _
  unfold step? at h ⊢
  cases hp : m.program with
  | done result => simp [hp] at h
  | fail error => simp [hp] at h
  | note event next =>
    simp only [hp, Option.some.injEq, Prod.mk.injEq] at h
    obtain ⟨rfl, rfl⟩ := h
    exact ⟨{}, hempty, Effect.apply_default.symm, fun v _ _ _ => by rw [Effect.apply_default]⟩
  | save memory next =>
    simp only [hp, Option.some.injEq, Prod.mk.injEq] at h
    obtain ⟨rfl, rfl⟩ := h
    exact ⟨{}, hempty, Effect.apply_default.symm, fun v _ _ _ => by rw [Effect.apply_default]⟩
  | send peer tag payload next =>
    simp only [hp, send_eq hw] at h
    by_cases hpeer : peer < w.size
    · simp only [hpeer, ↓reduceIte, Except.toOption, Option.getD_some, Option.some.injEq,
        Prod.mk.injEq] at h
      obtain ⟨rfl, rfl⟩ := h
      refine ⟨{ sent := fun b => if b = peer then [⟨tag, payload⟩] else [] },
        fun _ => Nat.zero_le _, rfl, fun v hv hsize _ => ?_⟩
      simp [send_eq hv, hsize, hpeer, Except.toOption, continueWith]
    · simp only [hpeer, ↓reduceIte, Noted.result_fail, Except.toOption, Option.getD_none,
        Option.some.injEq, Prod.mk.injEq] at h
      obtain ⟨rfl, rfl⟩ := h
      refine ⟨{}, hempty, Effect.apply_default.symm, fun v hv hsize _ => ?_⟩
      simp [send_eq hv, hsize, hpeer, Except.toOption, Effect.apply_default]
  | post peer tag next =>
    simp only [hp, post_eq] at h
    by_cases hpeer : peer < w.size
    · simp only [hpeer, ↓reduceIte, Option.some.injEq, Prod.mk.injEq] at h
      obtain ⟨rfl, rfl⟩ := h
      refine ⟨{ pending := fun a n => if a = peer then n + 1 else n },
        fun _ => Nat.zero_le _, rfl, fun v hv hsize _ => ?_⟩
      simp [post_eq, hsize, hpeer]
    · simp only [hpeer, ↓reduceIte, Option.some.injEq, Prod.mk.injEq] at h
      obtain ⟨rfl, rfl⟩ := h
      refine ⟨{}, hempty, Effect.apply_default.symm, fun v hv hsize _ => ?_⟩
      simp [post_eq, hsize, hpeer, Effect.apply_default]
  | wait handle next =>
    rw [hp] at hown
    obtain rfl : handle.rank = rank := hown
    simp only [hp] at h
    cases hq : w.queue handle.peer handle.rank with
    | nil => simp [World.wait, hq, hw handle.peer] at h
    | cons envelope rest =>
      simp only [wait_eq_of_cons hq, Option.map_some, Option.some.injEq, Prod.mk.injEq] at h
      obtain ⟨rfl, rfl⟩ := h
      refine ⟨_, fun a => ?_, rfl, fun v _ _ hprefix => ?_⟩
      · by_cases ha : a = handle.peer
        · simp [ha, hq]
        · simp [ha]
      · obtain ⟨more, hmore⟩ := hprefix handle.peer
        rw [hq, List.cons_append] at hmore
        simp [wait_eq_of_cons hmore.symm]

/-- Where nobody has gone away after a step of `rank`, its `program` did not fail. -/
theorem ne_fail_of_intact {program : RankProgram β σ α} (h : (settle rank w program).Intact)
    (error : Error) : program ≠ .fail error := by
  rintro rfl
  simpa [settle, leave, drop] using h rank

theorem settle_eq_of_ne_fail (rank : Nat) {program : RankProgram β σ α}
    (h : ∀ error, program ≠ .fail error)
    (v : World β) : settle rank v program = v := by
  cases program with
  | fail error => exact absurd rfl (h error)
  | _ => rfl

end Member

namespace Ensemble

variable {e e' e₁ e₂ f : Ensemble β σ α} {rank other : Nat}

theorem step?_eq_some_iff : e.step? rank = some e' ↔
    ∃ m w m', e.members[rank]? = some m ∧ m.step? rank e.world = some (w, m') ∧
      e' = ⟨Member.settle rank w m'.program, e.members.set rank m'⟩ := by
  simp only [step?, Option.bind_eq_bind, Option.bind_eq_some_iff, Prod.exists, Option.pure_def,
    Option.some.injEq]
  constructor
  · rintro ⟨m, hm, w, m', hstep, rfl⟩
    exact ⟨m, w, m', hm, hstep, rfl⟩
  · rintro ⟨m, w, m', hm, hstep, rfl⟩
    exact ⟨m, hm, w, m', hstep, rfl⟩

/-- What `rank` does next concerns its own messages. -/
def OwnRequest (e : Ensemble β σ α) (rank : Nat) : Prop :=
  ∀ m, e.members[rank]? = some m → m.program.OwnRequest rank

/-- The rank `rank` is where it was when `other` has stepped. -/
theorem getElem?_members_of_step? (h : e.step? other = some e') (hne : rank ≠ other) :
    e'.members[rank]? = e.members[rank]? := by
  obtain ⟨m, w, m', -, -, rfl⟩ := step?_eq_some_iff.mp h
  exact List.getElem?_set_ne hne.symm

/-- A member `m` whose program has ended at `e` is at `f` as it was, whatever the others do. -/
theorem Reaches.getElem?_of_ended (h : Reaches e f) {m : Member β σ α}
    (hm : e.members[rank]? = some m) (hended : ∀ w, m.step? rank w = none) :
    f.members[rank]? = some m := by
  induction h with
  | refl _ => exact hm
  | @step e e' f other hstep _ ih =>
    have hne : rank ≠ other := by
      rintro rfl
      obtain ⟨n, _, _, hn, hstep, -⟩ := step?_eq_some_iff.mp hstep
      rw [hm] at hn
      obtain rfl := Option.some.inj hn
      simp [hended] at hstep
    exact ih (by rwa [getElem?_members_of_step? hstep hne])

/-- The ranks `rank` and `other` can step in both orders, and come to the same state `e'`, unless
one of them goes away. -/
theorem diamond (hne : rank ≠ other) (he : e.world.Intact) (hrank : e.OwnRequest rank)
    (hother : e.OwnRequest other) (h₁ : e.step? rank = some e₁) (h₂ : e.step? other = some e₂)
    (he₂ : e₂.world.Intact) :
    ∃ e', e₂.step? rank = some e' ∧
      (e'.world.Intact → e₁.world.Intact ∧ e₁.step? other = some e') := by
  obtain ⟨m, w, m', hm, hstep, rfl⟩ := step?_eq_some_iff.mp h₁
  obtain ⟨n, v, n', hn, hstep', rfl⟩ := step?_eq_some_iff.mp h₂
  obtain ⟨effect, hfits, rfl, hsame⟩ := Member.exists_effect he (hrank m hm) hstep
  obtain ⟨effect', hfits', rfl, hsame'⟩ := Member.exists_effect he (hother n hn) hstep'
  have hsettle' := Member.settle_eq_of_ne_fail other (Member.ne_fail_of_intact he₂)
  simp only [hsettle'] at he₂ ⊢
  have hm' : (e.members.set other n')[rank]? = some m := by rwa [List.getElem?_set_ne hne.symm]
  have hn' : (e.members.set rank m')[other]? = some n := by rwa [List.getElem?_set_ne hne]
  refine ⟨_, step?_eq_some_iff.mpr ⟨m, _, m', hm', hsame _ he₂ rfl
    (Effect.prefix_queue_apply hne), rfl⟩, fun hintact => ?_⟩
  -- the first rank has not failed, so it has not gone away before the other one steps, either
  have hsettle := Member.settle_eq_of_ne_fail rank (Member.ne_fail_of_intact hintact)
  simp only [hsettle]
  refine ⟨Effect.intact_apply he, step?_eq_some_iff.mpr ⟨n, _, n', hn', hsame' _
    (Effect.intact_apply he) rfl (Effect.prefix_queue_apply hne.symm), ?_⟩⟩
  rw [hsettle', Effect.apply_comm hne hfits hfits', List.set_comm _ _ hne]

/-- One state leads to another if some interleaving does, in which no rank goes away and every rank
waits for its own messages. -/
inductive Leads : Ensemble β σ α → Ensemble β σ α → Prop
  | refl {a : Ensemble β σ α} : a.world.Intact → Leads a a
  | step {a b c : Ensemble β σ α} {r : Nat} : a.world.Intact → a.OwnRequest r →
      a.step? r = some b → Leads b c → Leads a c

/-- All ranks of `e` have finished. -/
def Finished (e : Ensemble β σ α) : Prop := ∀ m ∈ e.members, ∃ result, m.program = .done result

theorem Leads.intact (h : Leads e f) : e.world.Intact := by
  cases h <;> assumption

theorem Leads.trans {e f g : Ensemble β σ α} (h : Leads e f) (h' : Leads f g) : Leads e g := by
  induction h with
  | refl _ => exact h'
  | step hintact hown hstep _ ih => exact .step hintact hown hstep (ih h')

theorem Leads.reaches (h : Leads e f) : Reaches e f := by
  induction h with
  | refl _ => exact .refl _
  | step _ _ hstep _ ih => exact .step hstep ih

theorem Finished.step?_eq_none (h : e.Finished) (rank : Nat) : e.step? rank = none := by
  cases hstep : e.step? rank with
  | none => rfl
  | some e' =>
    obtain ⟨m, _, _, hm, hstep, -⟩ := step?_eq_some_iff.mp hstep
    obtain ⟨_, hdone⟩ := h m (List.mem_of_getElem? hm)
    simp [Member.step?, hdone] at hstep

/-- On the way to an end `f` at which all have finished, `rank` makes its next request at some
point, so that it is one for its own messages. -/
theorem Leads.ownRequest (h : Leads e f) (hf : f.Finished) (rank : Nat) : e.OwnRequest rank := by
  induction h with
  | refl _ =>
    intro m hm
    obtain ⟨_, hdone⟩ := hf m (List.mem_of_getElem? hm)
    rw [hdone]
    trivial
  | @step _ _ _ other _ hown hstep _ ih =>
    by_cases hne : rank = other
    · exact hne ▸ hown
    · intro m hm
      exact ih hf m (by rwa [getElem?_members_of_step? hstep hne])

/-- A step of any `rank` of `e` is on the way to the same end `f`. -/
theorem Leads.of_step? (h : Leads e f) (hf : f.Finished) (h₁ : e.step? rank = some e₁) :
    Leads e₁ f := by
  induction h generalizing e₁ with
  | refl _ => simp [hf.step?_eq_none] at h₁
  | @step e e' f other hintact hown hstep hrest ih =>
    by_cases hne : rank = other
    · subst hne
      rw [h₁] at hstep
      exact Option.some.inj hstep ▸ hrest
    · have hrank := (Leads.step hintact hown hstep hrest).ownRequest hf rank
      obtain ⟨e₂, hstep₂, hcommute⟩ := diamond hne hintact hrank hown h₁ hstep hrest.intact
      have hlead := ih hf hstep₂
      obtain ⟨hintact₁, hstep₁⟩ := hcommute hlead.intact
      refine .step hintact₁ (fun m hm => hown m ?_) hstep₁ hlead
      rwa [← getElem?_members_of_step? h₁ (Ne.symm hne)]

/-- What any interleaving has led to, here `e'`, is on the way to the same end `f`. -/
theorem Leads.of_reaches (h : Leads e f) (hf : f.Finished) (he : Reaches e e') : Leads e' f := by
  induction he with
  | refl _ => exact h
  | step hstep _ ih => exact ih (h.of_step? hf hstep)

/-- Where one interleaving lets all ranks finish at `f`, every interleaving can be completed, and
comes to `f` as well once no rank can step. -/
theorem Leads.determinate (h : Leads e f) (hf : f.Finished) (he : Reaches e e') :
    Reaches e' f ∧ ((∀ rank, e'.step? rank = none) → e' = f) := by
  have hlead := h.of_reaches hf he
  refine ⟨hlead.reaches, fun hstuck => ?_⟩
  cases hlead with
  | refl _ => rfl
  | step _ _ hstep _ => simp [hstuck] at hstep

theorem Leads.run_eq (h : Leads e f) (hf : f.Finished) : e.run = f :=
  (h.determinate hf (reaches_run e)).2 (step?_run e)

end Ensemble

end FemAssembly
