import FemAssembly.Proofs.Message.Solo

/-!
# What all ranks do together

Where every rank of a world runs its part of an operation, it is enough to follow one interleaving,
in which each rank runs alone for a while: all others come to the same end.

* `Passes`: from a state of the queues, all ranks come to the end of their programs and leave
  another state of the queues. `Passes.bind`: one operation after the other. `Passes.of_exchanges`:
  an operation in which every rank runs alone, one after the other.
* `Collective`: no messages before, and none after. `Collective.round`: all ranks send, and then all
  take what was sent to them.
* `Collective.allToAll`, `Collective.allToAll_map`: the exchange of one list for every pair of
  ranks.
* `Completes`: every interleaving lets all ranks finish, with the same results.
  `Collective.completes`: a collective does so. `Completes.eq_of_mayFinish`: there are no others.
-/

namespace FemAssembly

open World

variable {β σ α γ : Type}

/-! ## Programs that go on -/

/-- The member `m`, which goes on with `k` where its program is done. -/
def Member.bind (m : Member β σ α) (k : α → RankProgram β σ γ) : Member β σ γ :=
  ⟨m.program >>= k, m.memory, m.events⟩

theorem Member.step?_bind {rank : Nat} {w w' : World β} {m m' : Member β σ α}
    (h : m.step? rank w = some (w', m')) (k : α → RankProgram β σ γ) :
    (m.bind k).step? rank w = some (w', m'.bind k) := by
  have hcontinue : ∀ {δ : Type} (events : List Event) (outcome : Except Error δ)
      (next : δ → RankProgram β σ α), (m.continueWith events outcome next).bind k =
        (m.bind k).continueWith events outcome fun answer => next answer >>= k := by
    intro δ events outcome next
    cases outcome <;> rfl
  obtain ⟨program, memory, events⟩ := m
  cases program with
  | done _ => cases h
  | fail _ => cases h
  | send peer tag payload next =>
    simp only [step?, Option.some.injEq, Prod.mk.injEq] at h
    obtain ⟨rfl, rfl⟩ := h
    rw [hcontinue]
    rfl
  | post peer tag next =>
    have hposted : (RankProgram.post peer tag next >>= k) =
        .post peer tag fun handle => next handle >>= k := rfl
    simp only [step?] at h
    cases hpost : w.post rank peer tag with
    | ok posted =>
      simp only [hpost, Option.some.injEq, Prod.mk.injEq] at h
      obtain ⟨rfl, rfl⟩ := h
      simp only [step?, bind, hposted, hpost]
      rfl
    | error error =>
      simp only [hpost, Option.some.injEq, Prod.mk.injEq] at h
      obtain ⟨rfl, rfl⟩ := h
      simp only [step?, bind, hposted, hpost]
      rfl
  | wait handle next =>
    simp only [step?, Option.map_eq_some_iff, Prod.mk.injEq] at h
    obtain ⟨⟨v, outcome⟩, hwait, rfl, rfl⟩ := h
    have hwaited : (RankProgram.wait handle next >>= k) =
        .wait handle fun message => next message >>= k := rfl
    rw [hcontinue]
    simp only [step?, bind, hwaited, hwait, Option.map_some]
  | note event next =>
    cases h
    rfl
  | save memory next =>
    cases h
    rfl

namespace Ensemble

variable {e e' f : Ensemble β σ α}

/-- Every rank of `e` goes on with `k` where its program is done. -/
def bind (e : Ensemble β σ α) (k : Nat → α → RankProgram β σ γ) : Ensemble β σ γ :=
  ⟨e.world, e.members.mapIdx fun rank m => m.bind (k rank)⟩

/-- A rank that has finished at `e` is at `f` as it was. -/
theorem Leads.getElem?_of_done (h : Leads e f) {rank : Nat} {m : Member β σ α} {a : α}
    (hm : e.members[rank]? = some m) (hdone : m.program = .done a) :
    f.members[rank]? = some m :=
  h.reaches.getElem?_of_ended hm fun w => by simp [Member.step?, hdone]

/-- On the way to an end `f` at which all have finished, no rank fails. -/
theorem Reaches.ne_fail (h : Reaches e f) (hf : f.Finished) {rank : Nat} {m : Member β σ α}
    (hm : e.members[rank]? = some m) (error : Error) : m.program ≠ .fail error := by
  intro hfail
  have hlast := h.getElem?_of_ended hm fun w => by simp [Member.step?, hfail]
  obtain ⟨_, hdone⟩ := hf m (List.mem_of_getElem? hlast)
  rw [hdone] at hfail
  cases hfail

/-- The interleaving from `e` to `f`, where the ranks go on with `k` afterwards. -/
theorem Leads.bind (h : Leads e f) {k : Nat → α → RankProgram β σ γ}
    (hk : ∀ rank m a, f.members[rank]? = some m → m.program = .done a →
      ∀ error, k rank a ≠ .fail error) : Leads (e.bind k) (f.bind k) := by
  induction h with
  | refl hintact => exact .refl hintact
  | @step e e' f rank hintact hown hstep hrest ih =>
    obtain ⟨m, w, m', hm, hstep', rfl⟩ := step?_eq_some_iff.mp hstep
    have hlt := (List.getElem?_eq_some_iff.mp hm).1
    have hne := Member.ne_fail_of_intact hrest.intact
    have hm' : (e.members.set rank m')[rank]? = some m' := by simp [hlt]
    have hbind : (e.bind k).members[rank]? = some (m.bind (k rank)) := by
      simp [Ensemble.bind, hm]
    have hne' : ∀ error, (m'.bind (k rank)).program ≠ .fail error := by
      intro error
      simp only [Member.bind]
      cases hp : m'.program with
      | done a => exact hk rank m' a (hrest.getElem?_of_done hm' hp) hp error
      | fail error => exact absurd hp (hne error)
      | _ => exact fun h => nomatch h
    refine .step hintact ?_ (step?_eq_some_iff.mpr ⟨_, w, _, hbind, Member.step?_bind hstep' _, ?_⟩)
      (ih hk)
    · intro n hn
      rw [hbind] at hn
      obtain rfl := Option.some.inj hn
      have hrequest := hown m hm
      simp only [Member.bind]
      cases hp : m.program with
      | done _ => simp [Member.step?, hp] at hstep'
      | fail _ => simp [Member.step?, hp] at hstep'
      | wait handle _ =>
        rw [hp] at hrequest
        exact hrequest
      | _ => trivial
    · rw [Member.settle_eq_of_ne_fail _ hne']
      simp [Ensemble.bind, Member.settle_eq_of_ne_fail _ hne, List.mapIdx_set]

/-- Nobody has gone away from the `size` ranks, and the messages in `queue` are under way. -/
structure Holds (e : Ensemble β σ α) (size : Nat) (queue : Nat → Nat → List (Envelope β)) :
    Prop where
  size_eq : e.world.size = size
  intact : e.world.Intact
  queue_eq : ∀ a b, e.world.queue a b = queue a b

/-! ### Programs by rank -/

variable {size rank : Nat} {p : Nat → RankProgram β σ α} {results : Nat → α}

theorem length_members (h : e.programs = (List.range size).map p) : e.members.length = size := by
  simpa [programs] using congrArg List.length h

theorem getElem?_programs {m : Member β σ α} (hm : e.members[rank]? = some m) :
    e.programs[rank]? = some m.program := by
  simp [programs, hm]

theorem program_eq (h : e.programs = (List.range size).map p) {m : Member β σ α}
    (hm : e.members[rank]? = some m) : rank < size ∧ m.program = p rank := by
  have hlt : rank < size := length_members h ▸ (List.getElem?_eq_some_iff.mp hm).1
  have hprogram := getElem?_programs hm
  rw [h] at hprogram
  exact ⟨hlt, by simpa [hlt, eq_comm] using hprogram⟩

theorem exists_member (h : e.programs = (List.range size).map p) (hrank : rank < size) :
    ∃ m, e.members[rank]? = some m ∧ m.program = p rank := by
  have hlt : rank < e.members.length := (length_members h).symm ▸ hrank
  exact ⟨_, List.getElem?_eq_getElem hlt, (program_eq h (List.getElem?_eq_getElem hlt)).2⟩

theorem finished_of_programs (h : e.programs = (List.range size).map fun r => .done (results r)) :
    e.Finished := by
  intro m hm
  obtain ⟨rank, hrank⟩ := List.getElem?_of_mem hm
  exact ⟨_, (program_eq h hrank).2⟩

end Ensemble

open Ensemble

/-- With the messages `before` under way, all ranks come to the end of their programs `p` and leave
the messages `after`. -/
def Passes (size : Nat) (before : Nat → Nat → List (Envelope β)) (p : Nat → RankProgram β σ α)
    (after : Nat → Nat → List (Envelope β)) (results : Nat → α) : Prop :=
  ∀ e : Ensemble β σ α, e.Holds size before → e.programs = (List.range size).map p →
    ∃ f, Leads e f ∧ f.Holds size after ∧
      f.programs = (List.range size).map fun rank => .done (results rank)

/-- No message is under way. -/
def idle : Nat → Nat → List (Envelope β) := fun _ _ => []

/-- All ranks come to the end of their programs `p`, without a message before or after. -/
abbrev Collective (size : Nat) (p : Nat → RankProgram β σ α) (results : Nat → α) : Prop :=
  Passes size idle p idle results

namespace Passes

variable {size : Nat} {before after last : Nat → Nat → List (Envelope β)}
  {p p' : Nat → RankProgram β σ α} {k : Nat → α → RankProgram β σ γ} {results : Nat → α}
  {results' : Nat → γ}

theorem congr (h : Passes size before p after results) (hp : ∀ rank < size, p' rank = p rank) :
    Passes size before p' after results := by
  intro e he hprograms
  refine h e he (hprograms.trans (List.map_congr_left fun rank hmem => ?_))
  exact hp rank (List.mem_range.mp hmem)

theorem congr_results {a : Nat → α} (h : Passes size before p after results)
    (ha : ∀ rank < size, a rank = results rank) : Passes size before p after a := by
  intro e he hprograms
  obtain ⟨f, hlead, hf, hdone⟩ := h e he hprograms
  refine ⟨f, hlead, hf, hdone.trans (List.map_congr_left fun rank hmem => ?_)⟩
  rw [ha rank (List.mem_range.mp hmem)]

/-- One operation after the other: `k` goes on with the `results` of `p`. -/
protected theorem bind (h : Passes size before p after results)
    (h' : Passes size after (fun rank => k rank (results rank)) last results') :
    Passes size before (fun rank => p rank >>= k rank) last results' := by
  intro e he hprograms
  -- the first operation on its own, and then what the ranks go on with
  let first : Ensemble β σ α :=
    ⟨e.world, e.members.mapIdx fun rank m => ⟨p rank, m.memory, m.events⟩⟩
  have hfirst : first.programs = (List.range size).map p := by
    refine List.ext_getElem (by simp [first, programs, length_members hprograms]) ?_
    intro rank _ _
    simp [first, programs]
  have hbind : first.bind k = e := by
    obtain ⟨world, members⟩ := e
    simp only [Ensemble.bind, first, List.mapIdx_mapIdx, Ensemble.mk.injEq, true_and]
    refine List.ext_getElem (by simp) fun rank _ hlt => ?_
    have hprogram := (program_eq hprograms (List.getElem?_eq_getElem hlt)).2
    simp [Member.bind, ← hprogram]
  obtain ⟨f, hlead, hf, hdone⟩ := h first ⟨he.size_eq, he.intact, he.queue_eq⟩ hfirst
  have hgoes : (f.bind k).programs =
      (List.range size).map fun rank => k rank (results rank) := by
    refine List.ext_getElem (by simp [Ensemble.bind, programs, length_members hdone]) ?_
    intro rank hlt _
    have hlt' : rank < f.members.length := by simpa [Ensemble.bind, programs] using hlt
    have hprogram := (program_eq hdone (List.getElem?_eq_getElem hlt')).2
    simp only [Ensemble.bind, programs, List.getElem_map, List.getElem_mapIdx, Member.bind,
      hprogram, List.getElem_range]
    rfl
  obtain ⟨g, hlead', hg, hdone'⟩ := h' (f.bind k) ⟨hf.size_eq, hf.intact, hf.queue_eq⟩ hgoes
  refine ⟨g, (hbind ▸ hlead.bind fun rank m a hm hprogram error => ?_).trans hlead', hg, hdone'⟩
  have hgoing : (f.bind k).members[rank]? = some (m.bind (k rank)) := by simp [Ensemble.bind, hm]
  have hne := hlead'.reaches.ne_fail (finished_of_programs hdone') hgoing error
  rw [Member.bind, hprogram] at hne
  exact hne

/-- Every rank runs `p rank` alone, one after the other. -/
theorem of_exchanges {taken sent : Nat → Nat → List (Envelope β)}
    (h : ∀ rank < size, (p rank).Exchanges ⟨rank, size⟩ (taken rank) (sent rank) (results rank))
    (htaken : ∀ rank < size, ∀ a, taken rank a <+: before a rank)
    (hafter : ∀ a b, after a b =
      (if b < size then (before a b).drop (taken b a).length else before a b) ++
        if a < size then sent a b else []) :
    Passes size before p after results := by
  intro e he hprograms
  -- the ranks below `n` have run
  have hrun : ∀ n ≤ size, ∃ f, Leads e f ∧ f.Holds size (fun a b =>
        (if b < n then (before a b).drop (taken b a).length else before a b) ++
          if a < n then sent a b else []) ∧
      f.programs = (List.range size).map fun rank =>
        if rank < n then .done (results rank) else p rank := by
    intro n hn
    induction n with
    | zero =>
      exact ⟨e, .refl he.intact, ⟨he.size_eq, he.intact, by simp [he.queue_eq]⟩,
        by simp [hprograms]⟩
    | succ n ih =>
      obtain ⟨f, hlead, hf, hdone⟩ := ih (Nat.le_of_succ_le hn)
      obtain ⟨m, hm, hprogram⟩ := exists_member hdone hn
      rw [if_neg (Nat.lt_irrefl n)] at hprogram
      have hthere : ∀ a, taken n a <+: f.world.queue a n := fun a => by
        rw [hf.queue_eq, if_neg (Nat.lt_irrefl n)]
        exact (htaken n hn a).trans (List.prefix_append ..)
      obtain ⟨w, hsolo, hw, hsize, hqueue⟩ := h n hn f.world hf.intact hf.size_eq hthere
      obtain ⟨m', hm', hlead'⟩ := leads_of_solo? hf.intact hm (hprogram ▸ hsolo)
      refine ⟨_, hlead.trans hlead', ⟨hsize, hw, fun a b => ?_⟩, ?_⟩
      · have hsent : ((if a < n then sent a b else []) ++ if a = n then sent n b else []) =
            if a < n + 1 then sent a b else [] := by
          rcases Nat.lt_trichotomy a n with hlt | rfl | hlt
          · simp [hlt, Nat.ne_of_lt hlt, Nat.lt_succ_of_lt hlt]
          · simp
          · simp [Nat.lt_asymm hlt, Nat.ne_of_gt hlt, Nat.not_lt.mpr hlt]
        rw [hqueue, hf.queue_eq, ← hsent, ← List.append_assoc]
        congr 2
        rcases Nat.lt_trichotomy b n with hlt | rfl | hlt
        · simp [hlt, Nat.ne_of_lt hlt, Nat.lt_succ_of_lt hlt]
        · simp [List.drop_append_of_le_length (htaken b hn a).length_le]
        · simp [Nat.lt_asymm hlt, Nat.ne_of_gt hlt, Nat.not_lt.mpr hlt]
      · rw [programs, List.map_set, ← programs, hdone, hm']
        refine List.ext_getElem (by simp) fun rank _ _ => ?_
        simp only [List.getElem_set, List.getElem_map, List.getElem_range]
        rcases Nat.lt_trichotomy rank n with hlt | rfl | hlt
        · simp [hlt, Nat.ne_of_gt hlt, Nat.lt_succ_of_lt hlt]
        · simp
        · simp [Nat.lt_asymm hlt, Nat.ne_of_lt hlt, Nat.not_lt.mpr hlt]
  obtain ⟨f, hlead, hf, hdone⟩ := hrun size (Nat.le_refl size)
  refine ⟨f, hlead, ⟨hf.size_eq, hf.intact, fun a b => (hf.queue_eq a b).trans (hafter a b).symm⟩,
    hdone.trans (List.map_congr_left fun rank hmem => ?_)⟩
  rw [if_pos (List.mem_range.mp hmem)]

/-- Every rank does its part `p rank` without messages. -/
theorem of_silent
    (h : ∀ rank < size, (p rank).Silent ⟨rank, size⟩ (results rank)) :
    Passes size before p before results :=
  of_exchanges h (fun _ _ _ => List.nil_prefix) fun a b => by simp

/-- What the ranks make of their `results` by `f`, without further ado. -/
theorem map (h : Passes size before p after results) (f : Nat → α → γ) :
    Passes size before (fun rank => do pure (f rank (← p rank))) after
      fun rank => f rank (results rank) :=
  h.bind (of_silent fun _ _ => .pure _)

end Passes

namespace Collective

variable {size : Nat} {p : Nat → RankProgram β σ α} {k : Nat → α → RankProgram β σ γ}
  {results : Nat → γ}

/-- All ranks send their `sent`, and then each of them takes what was sent to it. -/
theorem round (handles : Nat → α) (sent : Nat → Nat → List (Envelope β))
    (hsend : ∀ rank < size,
      (p rank).Exchanges ⟨rank, size⟩ (fun _ => []) (sent rank) (handles rank))
    (houtside : ∀ rank < size, ∀ peer, size ≤ peer → sent rank peer = [])
    (hwait : ∀ rank < size, (k rank (handles rank)).Exchanges ⟨rank, size⟩
      (fun a => if a < size then sent a rank else []) (fun _ => []) (results rank)) :
    Collective size (fun rank => p rank >>= k rank) results := by
  have hfirst : Passes size idle p (fun a b => if a < size then sent a b else []) handles :=
    Passes.of_exchanges hsend (fun _ _ _ => List.nil_prefix) fun a b => by simp [idle]
  refine hfirst.bind (Passes.of_exchanges hwait (fun _ _ _ => List.prefix_rfl) fun a b => ?_)
  by_cases hb : b < size
  · simp [hb, idle]
  · by_cases ha : a < size <;> simp [ha, hb, idle, houtside a, Nat.le_of_not_lt hb]

end Collective

/-! ## One list for every pair of ranks -/

/-- Where the keys of `list` are distinct, they contribute `f b` at `b` if it is one of them. -/
theorem flatMap_ite_of_nodup {δ : Type} {list : List δ} {key : δ → Nat}
    (h : (list.map key).Nodup) (b : Nat) (f : Nat → List γ) :
    (list.flatMap fun x => if b = key x then f (key x) else []) =
      if b ∈ list.map key then f b else [] := by
  induction list with
  | nil => rfl
  | cons x list ih =>
    obtain ⟨hx, hrest⟩ := List.nodup_cons.mp h
    rw [List.flatMap_cons, ih hrest]
    by_cases hb : b = key x
    · subst hb
      simp [hx]
    · simp [hb]

theorem flatMap_range_ite (size b : Nat) (f : Nat → List γ) :
    ((List.range size).flatMap fun i => if b = i then f i else []) =
      if b < size then f b else [] := by
  have hnodup : ((List.range size).map fun i => i).Nodup := by simpa using List.nodup_range
  simpa using flatMap_ite_of_nodup hnodup b f

namespace RankProgram

variable [Plain β α] {place : Place} {tag : Tag} {outgoing : List (List α)} {peer : Nat}

/-- The message of one rank with `values` for another. -/
def message (tag : Tag) (values : List α) : Envelope β := ⟨tag, encode values⟩

theorem exchanges_swapWith (hpeer : peer < place.size)
    (hlength : peer ≠ place.rank → peer < outgoing.length) :
    (swapWith place tag outgoing peer : RankProgram β σ (Option Handle)).Exchanges place
      (fun _ => [])
      (fun b => if b = peer then
        if peer = place.rank then [] else [message tag (outgoing.getD peer [])] else [])
      (if peer = place.rank then none else some ⟨place.rank, peer, tag⟩) := by
  unfold swapWith
  by_cases hown : peer = place.rank
  · simpa [hown] using Exchanges.pure none
  · have hvalues : Word.orFault outgoing[peer]? = .ok (outgoing.getD peer []) := by
      rw [List.getD_eq_getElem?_getD, List.getElem?_eq_getElem (hlength hown)]
      rfl
    simp only [hown, ↓reduceIte]
    exact (Exchanges.post hpeer tag).bind_of_silent
      ((Exchanges.ofExcept hvalues).bind_of_silent
        ((Exchanges.send hpeer tag _).silent_bind (.pure _)))

theorem exchanges_waitValues {values : List α}
    (hread : decode (encode values : List β) = .ok values) :
    (waitValues ⟨place.rank, peer, tag⟩ : RankProgram β σ (List α)).Exchanges place
      (fun a => if a = peer then [message tag values] else []) (fun _ => []) values :=
  (Exchanges.wait peer tag (encode values)).silent_bind (.ofExcept hread)

theorem exchanges_waitOptional {values : List α}
    (hread : peer ≠ place.rank → decode (encode values : List β) = .ok values) :
    (waitOptional (if peer = place.rank then none else some ⟨place.rank, peer, tag⟩) :
      RankProgram β σ (List α)).Exchanges place
      (fun a => if a = peer then if peer = place.rank then [] else [message tag values] else [])
      (fun _ => []) (if peer = place.rank then [] else values) := by
  by_cases hown : peer = place.rank
  · simpa [hown, waitOptional] using Exchanges.pure ([] : List α)
  · simpa [hown, waitOptional] using exchanges_waitValues (hread hown)

end RankProgram

/-- Every rank gets what each of the others has for it in `outgoing`. -/
theorem Collective.allToAll [Plain β α] (size : Nat) (tag : Tag) (outgoing : Nat → List (List α))
    (hlength : ∀ rank < size, ∀ peer < size, peer ≠ rank → peer < (outgoing rank).length)
    (hread : ∀ rank < size, ∀ values ∈ outgoing rank,
      decode (encode values : List β) = .ok values) :
    Collective size (fun rank => (RankProgram.allToAll ⟨rank, size⟩ tag (outgoing rank) :
        RankProgram β σ (List (List α))))
      fun rank => (List.range size).map fun peer =>
        if peer = rank then [] else (outgoing peer).getD rank [] := by
  refine Collective.round
    (fun rank => (List.range size).map fun peer =>
      if peer = rank then none else some ⟨rank, peer, tag⟩)
    (fun rank peer => if peer < size then
      if peer = rank then [] else [RankProgram.message tag ((outgoing rank).getD peer [])] else [])
    (fun rank hrank => ?_) (fun rank _ peer hpeer => by simp [Nat.not_lt.mpr hpeer])
    (fun rank hrank => ?_)
  · refine (RankProgram.Exchanges.mapM fun peer hpeer => RankProgram.exchanges_swapWith
      (List.mem_range.mp hpeer) (hlength rank hrank peer (List.mem_range.mp hpeer))).congr
      (fun _ => by simp) fun peer => ?_
    exact (flatMap_range_ite size peer fun i =>
      if i = rank then [] else [RankProgram.message tag ((outgoing rank).getD i [])]).symm
  · rw [List.mapM_map]
    refine (RankProgram.Exchanges.mapM fun peer hpeer => RankProgram.exchanges_waitOptional
      fun hne => hread peer (List.mem_range.mp hpeer) _ ?_).congr (fun a => ?_) fun _ => by simp
    · have hlt := hlength peer (List.mem_range.mp hpeer) rank hrank (Ne.symm hne)
      rw [List.getD_eq_getElem?_getD, List.getElem?_eq_getElem hlt]
      exact List.getElem_mem hlt
    · rw [flatMap_range_ite]
      simp [hrank, eq_comm]

/-- The same, where every rank has a list of `values` for each rank. -/
theorem Collective.allToAll_map [Plain β α] (size : Nat) (tag : Tag)
    (values : Nat → Nat → List α)
    (hread : ∀ rank < size, ∀ peer < size,
      decode (encode (values rank peer) : List β) = .ok (values rank peer)) :
    Collective size (fun rank => (RankProgram.allToAll ⟨rank, size⟩ tag
        ((List.range size).map (values rank)) : RankProgram β σ (List (List α))))
      fun rank => (List.range size).map fun peer =>
        if peer = rank then [] else values peer rank := by
  refine Passes.congr_results (Collective.allToAll size tag
    (fun rank => (List.range size).map (values rank))
    (fun rank _ peer hpeer _ => by simpa using hpeer) fun rank hrank list hlist => ?_)
    fun rank hrank => ?_
  · obtain ⟨peer, hpeer, rfl⟩ := List.mem_map.mp hlist
    exact hread rank hrank peer (List.mem_range.mp hpeer)
  · simp [hrank]

/-! ## Every interleaving -/

/-- All ranks have finished with these `results`, nobody has gone away, and no message is left. -/
structure Ensemble.Ended (e : Ensemble β σ α) (size : Nat) (results : Nat → α) : Prop where
  programs_eq : e.programs = (List.range size).map fun rank => .done (results rank)
  intact : e.world.Intact
  queue_eq : ∀ a b, e.world.queue a b = []

/-- However the steps of the ranks of a new world are interleaved, all of them can finish their
programs `p`, and once no rank can step they have finished, with these `results`. -/
def Completes (size : Nat) (p : Nat → RankProgram β σ α) (results : Nat → α) : Prop :=
  ∀ (memory : Nat → σ) (e : Ensemble β σ α),
    Reaches (Ensemble.start (World.new size)
      ((List.range size).map fun rank => (p rank, memory rank))) e →
    (∃ f, Reaches e f ∧ f.Ended size results) ∧
      ((∀ rank, e.step? rank = none) → e.Ended size results)

/-- Where none of the programs in `ranks` fails before its first request, nobody leaves at the
start. -/
theorem Ensemble.start_eq (w : World β) {ranks : List (RankProgram β σ α × σ)}
    (h : ∀ x ∈ ranks, ∀ error, x.1 ≠ .fail error) :
    Ensemble.start w ranks = ⟨w, ranks.map fun (program, memory) => { program, memory }⟩ := by
  have hfold : ∀ list : List ((RankProgram β σ α × σ) × Nat),
      (∀ x ∈ list, ∀ error, x.1.1 ≠ .fail error) →
      list.foldl (fun w x => Member.settle x.2 w x.1.1) w = w := by
    intro list hlist
    induction list with
    | nil => rfl
    | cons x list ih =>
      obtain ⟨hx, hrest⟩ := List.forall_mem_cons.mp hlist
      simp only [List.foldl_cons, Member.settle_eq_of_ne_fail _ hx]
      exact ih hrest
  refine congrArg (fun w => (⟨w, _⟩ : Ensemble β σ α)) (hfold ranks.zipIdx fun x hx => ?_)
  exact h x.1 (List.fst_mem_of_mem_zipIdx hx)

theorem Collective.completes {size : Nat} {p : Nat → RankProgram β σ α} {results : Nat → α}
    (h : Collective size p results) : Completes size p results := by
  intro memory e hreaches
  let ranks := (List.range size).map fun rank => (p rank, memory rank)
  let first : Ensemble β σ α :=
    ⟨World.new size, ranks.map fun (program, memory) => { program, memory }⟩
  obtain ⟨f, hlead, hf, hdone⟩ := h first ⟨rfl, fun _ => rfl, fun _ _ => rfl⟩
    (by simp [first, ranks, programs])
  have hfinished := finished_of_programs hdone
  have hstart : Ensemble.start (World.new size) ranks = first := by
    refine start_eq _ fun x hx error => ?_
    have hmem : ({ program := x.1, memory := x.2 } : Member β σ α) ∈ first.members :=
      List.mem_map.mpr ⟨x, hx, rfl⟩
    obtain ⟨rank, hrank⟩ := List.getElem?_of_mem hmem
    exact hlead.reaches.ne_fail hfinished hrank error
  have hended : f.Ended size results := ⟨hdone, hf.intact, hf.queue_eq⟩
  obtain ⟨hrest, hstuck⟩ := hlead.determinate hfinished (hstart ▸ hreaches)
  exact ⟨⟨f, hrest, hended⟩, fun hnone => hstuck hnone ▸ hended⟩

/-- Some interleaving of the steps of the ranks of a new world ends with these `results` of `p`. -/
def MayFinish (size : Nat) (p : Nat → RankProgram β σ α) (results : Nat → α) : Prop :=
  ∃ (memory : Nat → σ) (f : Ensemble β σ α),
    Reaches (Ensemble.start (World.new size)
      ((List.range size).map fun rank => (p rank, memory rank))) f ∧
    f.programs = (List.range size).map fun rank => .done (results rank)

section

variable {size : Nat} {p : Nat → RankProgram β σ α} {results results' : Nat → α}

theorem Completes.mayFinish (h : Completes size p results) (memory : Nat → σ) :
    MayFinish size p results := by
  obtain ⟨⟨f, hreaches, hended⟩, -⟩ := h memory _ (.refl _)
  exact ⟨memory, f, hreaches, hended.programs_eq⟩

/-- Where the ranks may finish, no program `p rank` fails before its first request. -/
theorem MayFinish.ne_fail (h : MayFinish size p results) {rank : Nat} (hrank : rank < size)
    (error : Error) : p rank ≠ .fail error := by
  obtain ⟨memory, f, hreaches, hdone⟩ := h
  have hmember : (Ensemble.start (World.new size)
      ((List.range size).map fun rank => (p rank, memory rank))).members[rank]? =
      some { program := p rank, memory := memory rank } := by
    simp [Ensemble.start, hrank]
  exact hreaches.ne_fail (finished_of_programs hdone) hmember error

/-- All interleavings that finish do so with the same `results`. -/
theorem Completes.eq_of_mayFinish (h : Completes size p results) (h' : MayFinish size p results')
    {rank : Nat} (hrank : rank < size) : results' rank = results rank := by
  obtain ⟨memory, f, hreaches, hdone⟩ := h'
  have hended := (h memory f hreaches).2 fun rank =>
    (finished_of_programs hdone).step?_eq_none rank
  obtain ⟨m, hm, hprogram⟩ := exists_member hdone hrank
  have hprogram' := (program_eq hended.programs_eq hm).2
  rw [hprogram] at hprogram'
  exact RankProgram.done.inj hprogram'

end

end FemAssembly
