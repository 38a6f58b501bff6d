import FemAssembly.Message.Collective
import FemAssembly.Proofs.Message.Determinacy

/-!
# A rank that runs alone

Sending never blocks, so a rank can run on its own as long as the messages that it waits for are
there. Such a run is put together from the runs of the parts of its program.

* `RankProgram.solo?`: the run of one rank, which waits for its own messages only.
  `RankProgram.solo?_bind`: the run of a sequence.
* `RankProgram.Exchanges`: the messages that a rank takes and sends, and its result.
* `RankProgram.Exchanges.bind`, `RankProgram.Exchanges.mapM`: sequences and lists.
* `Ensemble.leads_of_solo?`: a rank of an ensemble runs alone.
-/

namespace FemAssembly

open World

variable {β σ α γ δ : Type}

namespace RankProgram

/-- The run of `rank` on its own. It ends without a result where an operation fails, and where the
rank would have to wait. -/
def solo? (rank : Nat) : RankProgram β σ α → World β → Option (World β × α)
  | done result, w => some (w, result)
  | fail _, _ => none
  | send peer tag payload next, w =>
    (w.send rank peer tag payload).result.toOption.bind fun w => next.solo? rank w
  | post peer tag next, w =>
    (w.post rank peer tag).toOption.bind fun (handle, w) => (next handle).solo? rank w
  | wait handle next, w =>
    if handle.rank = rank then
      (w.wait handle).bind fun (w, outcome) =>
        outcome.result.toOption.bind fun message => (next (some message)).solo? rank w
    else none
  | note _ next, w => next.solo? rank w
  | save _ next, w => next.solo? rank w

theorem solo?_bind (rank : Nat) (p : RankProgram β σ α) (k : α → RankProgram β σ γ) (w : World β) :
    (p >>= k).solo? rank w = (p.solo? rank w).bind fun (w, a) => (k a).solo? rank w := by
  change (p.bind k).solo? rank w = _
  induction p generalizing w with
  | done _ => rfl
  | fail _ => rfl
  | send _ _ _ _ ih => simp [RankProgram.bind, solo?, ih, Option.bind_assoc]
  | post _ _ _ ih => simp [RankProgram.bind, solo?, ih, Option.bind_assoc]
  | wait _ _ ih =>
    simp only [RankProgram.bind, solo?, ih]
    split
    · simp [Option.bind_assoc]
    · rfl
  | note _ _ ih => exact ih w
  | save _ _ ih => exact ih w

@[simp] theorem liftM_ok_bind (a : α) (k : α → RankProgram β σ γ) :
    (liftM (Except.ok a : Except Error α) >>= k) = k a :=
  rfl

/-- Alone in a world of `place.size` ranks, the program `p` takes and sends the messages in `taken`
and `sent` and has this `result`. The messages that it takes are there first. -/
def Exchanges (place : Place) (p : RankProgram β σ α) (taken sent : Nat → List (Envelope β))
    (result : α) : Prop :=
  ∀ w : World β, w.Intact → w.size = place.size → (∀ a, taken a <+: w.queue a place.rank) →
    ∃ w', p.solo? place.rank w = some (w', result) ∧ w'.Intact ∧ w'.size = place.size ∧
      ∀ a b, w'.queue a b =
        (if b = place.rank then (w.queue a b).drop (taken a).length else w.queue a b) ++
          if a = place.rank then sent b else []

/-- Without messages, the program `p` has this `result`. -/
abbrev Silent (place : Place) (p : RankProgram β σ α) (result : α) : Prop :=
  p.Exchanges place (fun _ => []) (fun _ => []) result

namespace Exchanges

variable {place : Place} {p : RankProgram β σ α} {k : α → RankProgram β σ γ}
  {taken sent taken' sent' : Nat → List (Envelope β)} {a : α} {c : γ}

theorem congr (h : p.Exchanges place taken sent a) (htaken : ∀ x, taken' x = taken x)
    (hsent : ∀ x, sent' x = sent x) : p.Exchanges place taken' sent' a := by
  obtain rfl : taken' = taken := funext htaken
  obtain rfl : sent' = sent := funext hsent
  exact h

protected theorem pure (a : α) : (pure a : RankProgram β σ α).Silent place a :=
  fun w hw hsize _ => ⟨w, rfl, hw, hsize, by simp⟩

theorem note (event : Event) : (noteEvent event : RankProgram β σ Unit).Silent place () :=
  fun w hw hsize _ => ⟨w, rfl, hw, hsize, by simp⟩

theorem ofExcept {x : Except Error α} (h : x = .ok a) :
    (liftM x : RankProgram β σ α).Silent place a :=
  h ▸ .pure a

theorem ofNoted {x : Noted α} (h : x.result = .ok a) :
    (liftM x : RankProgram β σ α).Silent place a := by
  intro w hw hsize _
  refine ⟨w, ?_, hw, hsize, by simp⟩
  change (RankProgram.ofNoted x).solo? place.rank w = _
  rw [RankProgram.ofNoted, h]
  induction x.events with
  | nil => rfl
  | cons event events ih => exact ih

theorem send {peer : Nat} (hpeer : peer < place.size) (tag : Tag) (payload : List β) :
    (sendMessage peer tag payload : RankProgram β σ Unit).Exchanges place (fun _ => [])
      (fun b => if b = peer then [⟨tag, payload⟩] else []) () := by
  intro w hw hsize _
  have hsolo : (sendMessage peer tag payload : RankProgram β σ Unit).solo? place.rank w =
      some (Effect.apply place.rank
        { sent := fun b => if b = peer then [⟨tag, payload⟩] else [] } w, ()) := by
    simp [sendMessage, solo?, send_eq hw, hsize, hpeer, Except.toOption]
  exact ⟨_, hsolo, Effect.intact_apply hw, hsize, fun a b => by simp [Effect.apply]⟩

theorem post {peer : Nat} (hpeer : peer < place.size) (tag : Tag) :
    (postReceive peer tag : RankProgram β σ Handle).Silent place ⟨place.rank, peer, tag⟩ := by
  intro w hw hsize _
  have hsolo : (postReceive peer tag : RankProgram β σ Handle).solo? place.rank w =
      some (Effect.apply place.rank { pending := fun a n => if a = peer then n + 1 else n } w,
        ⟨place.rank, peer, tag⟩) := by
    simp [postReceive, solo?, post_eq, hsize, hpeer, Except.toOption]
  exact ⟨_, hsolo, Effect.intact_apply hw, hsize, fun a b => by simp [Effect.apply]⟩

theorem wait (peer : Nat) (tag : Tag) (payload : List β) :
    (waitMessage ⟨place.rank, peer, tag⟩ : RankProgram β σ (Option (List β))).Exchanges place
      (fun a => if a = peer then [⟨tag, payload⟩] else []) (fun _ => []) (some payload) := by
  intro w hw hsize htaken
  obtain ⟨more, hmore⟩ := htaken peer
  simp only [↓reduceIte, List.cons_append, List.nil_append] at hmore
  have hsolo : (waitMessage ⟨place.rank, peer, tag⟩ : RankProgram β σ (Option (List β))).solo?
      place.rank w = some (Effect.apply place.rank
        { taken := fun a => if a = peer then 1 else 0
          pending := fun a n => if a = peer then n - 1 else n } w, some payload) := by
    have htake := wait_eq_of_cons (h := ⟨place.rank, peer, tag⟩) hmore.symm
    simp [waitMessage, solo?, htake, answer, Except.toOption]
  refine ⟨_, hsolo, Effect.intact_apply hw, hsize, fun a b => ?_⟩
  by_cases ha : a = peer <;> simp [Effect.apply, ha]

protected theorem bind (h : p.Exchanges place taken sent a)
    (h' : (k a).Exchanges place taken' sent' c) :
    (p >>= k).Exchanges place (fun x => taken x ++ taken' x) (fun x => sent x ++ sent' x) c := by
  intro w hw hsize htaken
  obtain ⟨v, hv, hvIntact, hvSize, hvQueue⟩ := h w hw hsize fun x =>
    (List.prefix_append ..).trans (htaken x)
  have htaken' : ∀ x, taken' x <+: v.queue x place.rank := by
    intro x
    obtain ⟨more, hmore⟩ := htaken x
    rw [hvQueue, if_pos rfl, ← hmore, List.append_assoc, List.drop_left, List.append_assoc]
    exact List.prefix_append ..
  obtain ⟨w', hw', hwIntact, hwSize, hwQueue⟩ := h' v hvIntact hvSize htaken'
  refine ⟨w', by rw [solo?_bind, hv]; exact hw', hwIntact, hwSize, fun x y => ?_⟩
  rw [hwQueue, hvQueue]
  by_cases hy : y = place.rank
  · obtain ⟨more, hmore⟩ := htaken x
    subst hy
    simp only [↓reduceIte, ← hmore, List.append_assoc, List.length_append, List.drop_left,
      List.drop_length_add_append]
    by_cases hx : x = place.rank <;> simp [hx]
  · by_cases hx : x = place.rank <;> simp [hx, hy]

/-- A silent part `p` changes nothing about the messages of `k a`. -/
theorem bind_of_silent (h : p.Silent place a) (h' : (k a).Exchanges place taken' sent' c) :
    (p >>= k).Exchanges place taken' sent' c := by
  simpa using h.bind h'

theorem silent_bind (h : p.Exchanges place taken sent a) (h' : (k a).Silent place c) :
    (p >>= k).Exchanges place taken sent c := by
  simpa using h.bind h'

/-- One program `q x` after the other, for the elements `x` of `list`. -/
theorem mapM {q : δ → RankProgram β σ α} {list : List δ} {takes sends : δ → Nat → List (Envelope β)}
    {result : δ → α} (h : ∀ x ∈ list, (q x).Exchanges place (takes x) (sends x) (result x)) :
    (list.mapM q).Exchanges place (fun a => list.flatMap fun x => takes x a)
      (fun b => list.flatMap fun x => sends x b) (list.map result) := by
  induction list with
  | nil => exact .pure []
  | cons x list ih =>
    obtain ⟨hx, hrest⟩ := List.forall_mem_cons.mp h
    rw [List.mapM_cons]
    exact hx.bind ((ih hrest).silent_bind (.pure _))

theorem forM {q : δ → RankProgram β σ PUnit} {list : List δ}
    {takes sends : δ → Nat → List (Envelope β)}
    (h : ∀ x ∈ list, (q x).Exchanges place (takes x) (sends x) ()) :
    (list.forM q).Exchanges place (fun a => list.flatMap fun x => takes x a)
      (fun b => list.flatMap fun x => sends x b) () := by
  induction list with
  | nil => exact .pure ()
  | cons x list ih =>
    obtain ⟨hx, hrest⟩ := List.forall_mem_cons.mp h
    exact hx.bind (ih hrest)

end Exchanges

end RankProgram

namespace Ensemble

variable {rank : Nat} {w w₁ : World β} {a : α}

/-- A program `p` that comes to its end alone has not failed. -/
theorem ne_fail_of_solo? {p : RankProgram β σ α} (h : p.solo? rank w₁ = some (w, a))
    (error : Error) : p ≠ .fail error := by
  rintro rfl
  cases h

/-- One step of `rank`, and then the rest of its run. -/
private theorem leads_of_step? {e : Ensemble β σ α} {m m₁ : Member β σ α} (he : e.world.Intact)
    (hm : e.members[rank]? = some m) (hown : m.program.OwnRequest rank)
    (hstep : m.step? rank e.world = some (w₁, m₁)) (hsolo : m₁.program.solo? rank w₁ = some (w, a))
    (hrest : ∀ e₁ : Ensemble β σ α, e₁.world = w₁ → e₁.members[rank]? = some m₁ →
      ∃ m' : Member β σ α, m'.program = .done a ∧ Leads e₁ ⟨w, e₁.members.set rank m'⟩) :
    ∃ m' : Member β σ α, m'.program = .done a ∧ Leads e ⟨w, e.members.set rank m'⟩ := by
  have hlt := (List.getElem?_eq_some_iff.mp hm).1
  obtain ⟨m', hm', hlead⟩ := hrest ⟨w₁, e.members.set rank m₁⟩ rfl (by simp [hlt])
  have he₁ : e.step? rank = some ⟨w₁, e.members.set rank m₁⟩ := by
    refine step?_eq_some_iff.mpr ⟨m, w₁, m₁, hm, hstep, ?_⟩
    rw [Member.settle_eq_of_ne_fail _ (ne_fail_of_solo? hsolo)]
  refine ⟨m', hm', .step he (fun n hn => ?_) he₁ (by simpa using hlead)⟩
  rw [hm] at hn
  exact Option.some.inj hn ▸ hown

/-- The member `m` of an ensemble runs alone to its end. -/
theorem leads_of_solo? {e : Ensemble β σ α} (he : e.world.Intact) {m : Member β σ α}
    (hm : e.members[rank]? = some m) (h : m.program.solo? rank e.world = some (w, a)) :
    ∃ m' : Member β σ α, m'.program = .done a ∧ Leads e ⟨w, e.members.set rank m'⟩ := by
  induction hp : m.program generalizing e m with
  | done result =>
    rw [hp] at h
    cases h
    obtain ⟨hlt, rfl⟩ := List.getElem?_eq_some_iff.mp hm
    exact ⟨_, hp, by rw [List.set_getElem_self]; exact .refl he⟩
  | fail error =>
    rw [hp] at h
    cases h
  | send peer tag payload next ih =>
    rw [hp, RankProgram.solo?, send_eq he] at h
    by_cases hpeer : peer < e.world.size
    · simp only [hpeer, ↓reduceIte, Except.toOption, Option.bind_some] at h
      have hstep : m.step? rank e.world = some (Effect.apply rank
          { sent := fun b => if b = peer then [⟨tag, payload⟩] else [] } e.world,
          m.proceed [.sending rank payload.length peer tag] next) := by
        simp only [Member.step?, hp, send_eq he, if_pos hpeer]
        rfl
      exact leads_of_step? he hm (by rw [hp]; trivial) hstep h fun e₁ hworld hm₁ =>
        ih (hworld ▸ he) hm₁ (hworld ▸ h) rfl
    · simp [hpeer, Except.toOption] at h
  | post peer tag next ih =>
    rw [hp, RankProgram.solo?, post_eq] at h
    by_cases hpeer : peer < e.world.size
    · simp only [hpeer, ↓reduceIte, Except.toOption, Option.bind_some] at h
      have hstep : m.step? rank e.world = some (Effect.apply rank
          { pending := fun a n => if a = peer then n + 1 else n } e.world,
          m.proceed [] (next ⟨rank, peer, tag⟩)) := by
        simp only [Member.step?, hp, post_eq, if_pos hpeer]
      exact leads_of_step? he hm (by rw [hp]; trivial) hstep h fun e₁ hworld hm₁ =>
        ih _ (hworld ▸ he) hm₁ (hworld ▸ h) rfl
    · simp [hpeer, Except.toOption] at h
  | wait handle next ih =>
    rw [hp, RankProgram.solo?] at h
    by_cases hown : handle.rank = rank
    · subst hown
      cases hq : e.world.queue handle.peer handle.rank with
      | nil => simp [World.wait, hq, he handle.peer] at h
      | cons envelope rest =>
        rw [if_pos rfl, wait_eq_of_cons hq] at h
        cases hanswer : (answer handle envelope).result with
        | error error => simp [hanswer, Except.toOption] at h
        | ok message =>
          simp only [hanswer, Except.toOption, Option.bind_some] at h
          have hstep : m.step? handle.rank e.world = some (Effect.apply handle.rank
              { taken := fun a => if a = handle.peer then 1 else 0
                pending := fun a n => if a = handle.peer then n - 1 else n } e.world,
              m.proceed (answer handle envelope).events (next (some message))) := by
            simp only [Member.step?, hp, wait_eq_of_cons hq, Option.map_some, hanswer]
            rfl
          exact leads_of_step? he hm (by rw [hp]; exact rfl) hstep h fun e₁ hworld hm₁ =>
            ih _ (hworld ▸ he) hm₁ (hworld ▸ h) rfl
    · simp [hown] at h
  | note event next ih =>
    rw [hp] at h
    have hstep : m.step? rank e.world = some (e.world, m.proceed [event] next) := by
      rw [Member.step?, hp]
    exact leads_of_step? he hm (by rw [hp]; trivial) hstep h fun e₁ hworld hm₁ =>
      ih (hworld ▸ he) hm₁ (hworld ▸ h) rfl
  | save memory next ih =>
    rw [hp] at h
    have hstep : m.step? rank e.world = some (e.world, { m with program := next, memory }) := by
      rw [Member.step?, hp]
    exact leads_of_step? he hm (by rw [hp]; trivial) hstep h fun e₁ hworld hm₁ =>
      ih (hworld ▸ he) hm₁ (hworld ▸ h) rfl

end Ensemble

end FemAssembly
