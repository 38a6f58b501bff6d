import FemAssembly.Proofs.Message.Channels
import Mathlib.Data.List.Perm.Basic

/-!
# Delivery

The ranks of a network send, post receives, wait for them and give up what they hold, in any order.
Whatever the order is, the messages from one rank to another are taken in the order in which they
were sent, by the waits for that pair and no others. A wait fails for lack of a message only when
the sender is gone and all that it sent was taken.

* `Action`, `Traffic.step`, `Traffic.run`: what ranks do, one action after the other.
* `Record`: what is seen of an action. `sentBetween`, `takenBetween` are the messages of a pair.
* `awaited`: what a wait gets, by what was seen before.
* `Traffic.exists_does`: an action of the network is one of the world that it represents.
* `World.Agrees.does`: what was seen accounts for the queues of the world, after every action.
* `Traffic.delivered_run`: what is seen of every run.
-/

namespace FemAssembly

variable {β : Type}

/-- What a rank can do with its communicator, or with one of the pending receives. -/
inductive Action (β : Type) where
  | send (rank peer : Nat) (tag : Tag) (payload : List β)
  | post (rank peer : Nat) (tag : Tag)
  | wait (index : Nat)
  | giveUp (index : Nat)
  | drop (rank : Nat)

/-- What is seen of an action. A wait shows the message that it took, if there was one, and what it
made of it. -/
inductive Record (β : Type) where
  | sent (rank peer : Nat) (envelope : Envelope β) (outcome : Except Error Unit)
  | posted (rank peer : Nat) (tag : Tag) (outcome : Except Error Unit)
  | waited (handle : Handle) (received : Option (Envelope β)) (outcome : Except Error (List β))
  | gaveUp (handle : Handle)
  | dropped (rank : Nat)

/-- A network and its pending receives. -/
structure Traffic (β : Type) where
  network : Network β
  receives : List Receive := []
  deriving DecidableEq

namespace Traffic

/-- The network of `size` ranks before any action. -/
def start (size : Nat) : Traffic β := { network := .new size }

/-- One action on `t`. It is not possible without the communicator or the pending receive that it
needs, and while a wait has to wait. -/
def step (t : Traffic β) : Action β → Option (Record β × Traffic β)
  | .send rank peer tag payload => do
    let c ← t.network.communicator? rank
    let outcome := (t.network.send c peer tag payload).result
    pure (.sent rank peer ⟨tag, payload⟩ (outcome.map fun _ => ()),
      { t with network := outcome.toOption.getD t.network })
  | .post rank peer tag => do
    let c ← t.network.communicator? rank
    match t.network.post c peer tag with
    | .ok (h, network) => pure (.posted rank peer tag (.ok ()), ⟨network, t.receives ++ [h]⟩)
    | .error e => pure (.posted rank peer tag (.error e), t)
  | .wait index => do
    let h ← t.receives[index]?
    let (network, received) ← t.network.take h
    pure (.waited h.toHandle received (h.answer received).result,
      ⟨network, t.receives.eraseIdx index⟩)
  | .giveUp index => do
    let h ← t.receives[index]?
    pure (.gaveUp h.toHandle, ⟨t.network.dropHandle h, t.receives.eraseIdx index⟩)
  | .drop rank => do
    let _ ← t.network.communicator? rank
    pure (.dropped rank, { t with network := t.network.drop rank })

/-- Some actions on `t`, one after the other, and what is seen of them. -/
def run (t : Traffic β) : List (Action β) → Option (List (Record β) × Traffic β)
  | [] => some ([], t)
  | action :: rest => do
    let (record, t) ← t.step action
    let (log, t) ← t.run rest
    pure (record :: log, t)

end Traffic

/-! ## What is seen -/

namespace Record

/-- The message that `source` sent to `target` with success. -/
def sent? (source target : Nat) : Record β → Option (Envelope β)
  | .sent rank peer envelope (.ok ()) =>
    if rank = source ∧ peer = target then some envelope else none
  | _ => none

/-- The message from `source` to `target` that a wait took. -/
def taken? (source target : Nat) : Record β → Option (Envelope β)
  | .waited handle received _ =>
    if handle.peer = source ∧ handle.rank = target then received else none
  | _ => none

/-- The rank `rank` gave up its communicator. -/
def drops (rank : Nat) : Record β → Bool
  | .dropped other => other = rank
  | _ => false

end Record

/-- The messages in `log` that were sent from `source` to `target`, in order. -/
def sentBetween (source target : Nat) (log : List (Record β)) : List (Envelope β) :=
  log.filterMap (Record.sent? source target)

/-- The messages from `source` to `target` that the waits in `log` took, in the order of the waits.
-/
def takenBetween (source target : Nat) (log : List (Record β)) : List (Envelope β) :=
  log.filterMap (Record.taken? source target)

theorem sentBetween_concat (source target : Nat) (log : List (Record β)) (record : Record β) :
    sentBetween source target (log ++ [record]) =
      sentBetween source target log ++ (record.sent? source target).toList :=
  List.filterMap_append

theorem takenBetween_concat (source target : Nat) (log : List (Record β)) (record : Record β) :
    takenBetween source target (log ++ [record]) =
      takenBetween source target log ++ (record.taken? source target).toList :=
  List.filterMap_append

/-- The first message for the handle `h` that was sent and not taken in `log`. -/
def nextFor (h : Handle) (log : List (Record β)) : Option (Envelope β) :=
  (sentBetween h.peer h.rank log)[(takenBetween h.peer h.rank log).length]?

/-- What a wait for `h` gets after all that was seen in `log`: the next message for `h`. When there
is none it gets nothing if the sender is gone, and otherwise it waits: `none`. -/
def awaited (h : Handle) (log : List (Record β)) : Option (Option (Envelope β)) :=
  match nextFor h log with
  | some envelope => some (some envelope)
  | none => if log.any (Record.drops h.peer) then some none else none

/-! ## One action -/

/-- What an action does to a world, and what `Record` is seen of it. -/
inductive World.Does : World β → Record β → World β → Prop
  | sent {w rank peer tag payload} (hpresent : w.present rank) :
    Does w (.sent rank peer ⟨tag, payload⟩ ((w.send rank peer tag payload).result.map fun _ => ()))
      ((w.send rank peer tag payload).result.toOption.getD w)
  | posted {w w' rank peer tag h} (hpost : w.post rank peer tag = .ok (h, w')) :
    Does w (.posted rank peer tag (.ok ())) w'
  | refused {w rank peer tag e} (hpost : w.post rank peer tag = .error e) :
    Does w (.posted rank peer tag (.error e)) w
  | waited {w w' h received} (hreceived : (w.channelOf h.peer h.rank).receive? = some received)
    (hwait : w.wait h = some (w', h.answer received)) :
    Does w (.waited h received (h.answer received).result) w'
  | gaveUp {w h} : Does w (.gaveUp h) (w.dropHandle h)
  | dropped {w rank} (hpresent : w.present rank) : Does w (.dropped rank) (w.drop rank)

/-- Taking a `list` apart at the position `i`. -/
theorem perm_eraseIdx {γ : Type} {list : List γ} {i : Nat} {a : γ} (h : list[i]? = some a) :
    (a :: list.eraseIdx i).Perm list := by
  obtain ⟨hi, rfl⟩ := List.getElem?_eq_some_iff.mp h
  exact List.getElem_cons_eraseIdx_perm hi

/-- An `action` of the network of `t` is one of the world `w` that the network represents. -/
theorem Traffic.exists_does {t t' : Traffic β} {w : World β} {action : Action β} {record : Record β}
    (hr : t.network.Represents t.receives w) (hstep : t.step action = some (record, t')) :
    ∃ w', w.Does record w' ∧ t'.network.Represents t'.receives w' := by
  cases action with
  | send rank peer tag payload =>
    obtain ⟨c, hc, hstep⟩ := Option.bind_eq_some_iff.mp hstep
    cases hstep
    obtain ⟨-, houtcome, hr'⟩ := hr.send hc peer tag payload
    rw [houtcome]
    exact ⟨_, .sent (hr.of_communicator? hc).2.1, hr'⟩
  | post rank peer tag =>
    obtain ⟨c, hc, hstep⟩ := Option.bind_eq_some_iff.mp hstep
    rcases hr.post hc peer tag with ⟨h, n', w', hn, hw, hr'⟩ | ⟨e, hn, hw⟩
    · simp only [hn] at hstep
      cases hstep
      exact ⟨w', .posted hw, hr'⟩
    · simp only [hn] at hstep
      cases hstep
      exact ⟨w, .refused hw, hr⟩
  | wait index =>
    obtain ⟨h, hh, hstep⟩ := Option.bind_eq_some_iff.mp hstep
    obtain ⟨⟨n', received⟩, htake, hstep⟩ := Option.bind_eq_some_iff.mp hstep
    cases hstep
    obtain ⟨hreceive, hwait⟩ := hr.take (perm_eraseIdx hh)
    obtain ⟨w', hw, hr'⟩ := hwait n' received htake
    rw [htake] at hreceive
    exact ⟨w', .waited hreceive.symm hw, hr'⟩
  | giveUp index =>
    obtain ⟨h, hh, hstep⟩ := Option.bind_eq_some_iff.mp hstep
    cases hstep
    exact ⟨_, .gaveUp, hr.dropHandle (perm_eraseIdx hh)⟩
  | drop rank =>
    obtain ⟨c, hc, hstep⟩ := Option.bind_eq_some_iff.mp hstep
    cases hstep
    exact ⟨_, .dropped (hr.of_communicator? hc).2.1, hr.drop hc⟩

/-- What is received from `c` is at the head of the queue. -/
theorem Channel.queue_of_receive? {c : Channel β} {received : Option (Envelope β)}
    (h : c.receive? = some received) : c.queue = received.toList ++ c.queue.tail := by
  unfold receive? at h
  split at h
  · rename_i envelope rest hqueue
    cases h
    rw [hqueue]
    rfl
  · rename_i hqueue
    split at h
    · cases h
    · cases h
      rw [hqueue]
      rfl

namespace World

variable {w w' : World β}

/-- Sending a message to `peer` changes nothing but a queue. -/
theorem of_send_eq_ok {rank peer : Nat} {tag : Tag} {payload : List β}
    (h : (w.send rank peer tag payload).result = .ok w') :
    w'.size = w.size ∧ w'.present = w.present := by
  by_cases hpeer : peer < w.size
  · rw [send_of_lt hpeer] at h
    split at h
    · cases h
      exact ⟨rfl, rfl⟩
    · cases h
  · unfold send checkPeer at h
    rw [if_neg hpeer] at h
    cases h

/-- Posting a receive from `peer` changes nothing but the number of pending handles. -/
theorem of_post_eq_ok {rank peer : Nat} {tag : Tag} {h : Handle}
    (hpost : w.post rank peer tag = .ok (h, w')) :
    w'.size = w.size ∧ w'.queue = w.queue ∧ w'.present = w.present := by
  unfold post checkPeer at hpost
  split at hpost
  · cases hpost
    exact ⟨rfl, rfl, rfl⟩
  · cases hpost

/-- Waiting for `h` changes nothing but the queue and the number of pending handles. -/
theorem of_wait_eq_some {h : Handle} {outcome : Noted (List β)}
    (hwait : w.wait h = some (w', outcome)) :
    w'.size = w.size ∧ w'.present = w.present ∧
      w'.queue = updatePair w.queue h.peer h.rank (w.queue h.peer h.rank).tail := by
  rw [wait_eq] at hwait
  obtain ⟨received, -, heq⟩ := Option.map_eq_some_iff.mp hwait
  cases heq
  exact ⟨rfl, rfl, rfl⟩

namespace Does

variable {record : Record β}

/-- The action seen as `record` adds to the end of a queue what it sends, and takes from its head
what it takes. -/
theorem queue_eq (hdoes : w.Does record w') (source target : Nat) :
    w.queue source target ++ (record.sent? source target).toList =
      (record.taken? source target).toList ++ w'.queue source target := by
  cases hdoes with
  | @sent rank peer tag payload _ =>
    cases hsend : (w.send rank peer tag payload).result with
    | error e => simp [Except.map, Except.toOption, Record.sent?, Record.taken?]
    | ok w' =>
      have hqueue := queue_send hsend source target
      by_cases hpair : source = rank ∧ target = peer
      · obtain ⟨rfl, rfl⟩ := hpair
        simp [Except.map, Except.toOption, Record.sent?, Record.taken?, hqueue]
      · have hother : ¬ (rank = source ∧ peer = target) := fun h => hpair ⟨h.1.symm, h.2.symm⟩
        simp [Except.map, Except.toOption, Record.sent?, Record.taken?, hqueue, hpair, hother]
  | posted hpost => simp [Record.sent?, Record.taken?, (of_post_eq_ok hpost).2.1]
  | refused _ => simp [Record.sent?, Record.taken?]
  | @waited _ h received hreceived hwait =>
    rw [(of_wait_eq_some hwait).2.2]
    simp only [Record.sent?, Record.taken?, Option.toList_none, List.append_nil]
    by_cases hpair : source = h.peer ∧ target = h.rank
    · obtain ⟨rfl, rfl⟩ := hpair
      rw [if_pos ⟨rfl, rfl⟩, updatePair_same]
      exact Channel.queue_of_receive? hreceived
    · have hother : ¬ (h.peer = source ∧ h.rank = target) := fun heq =>
        hpair ⟨heq.1.symm, heq.2.symm⟩
      rw [if_neg hother, updatePair_ne _ _ hpair]
      rfl
  | gaveUp => simp [Record.sent?, Record.taken?, dropHandle]
  | dropped _ => simp [Record.sent?, Record.taken?, drop]

theorem size_eq (hdoes : w.Does record w') : w'.size = w.size := by
  cases hdoes with
  | @sent rank peer tag payload _ =>
    cases hsend : (w.send rank peer tag payload).result with
    | error e => rfl
    | ok w' => exact (of_send_eq_ok hsend).1
  | posted hpost => exact (of_post_eq_ok hpost).1
  | refused _ => rfl
  | waited _ hwait => exact (of_wait_eq_some hwait).1
  | gaveUp => rfl
  | dropped _ => rfl

/-- The rank `rank` is absent as soon as it has given up its communicator. -/
theorem present_eq (hdoes : w.Does record w') (rank : Nat) :
    w'.present rank = (w.present rank && !record.drops rank) := by
  cases hdoes with
  | @sent rank peer tag payload _ =>
    cases hsend : (w.send rank peer tag payload).result with
    | error e => simp [Except.toOption, Record.drops]
    | ok w' => simp [Except.toOption, Record.drops, (of_send_eq_ok hsend).2]
  | posted hpost => simp [Record.drops, (of_post_eq_ok hpost).2.2]
  | refused _ => simp [Record.drops]
  | waited _ hwait => simp [Record.drops, (of_wait_eq_some hwait).2.1]
  | gaveUp => simp [Record.drops, dropHandle]
  | @dropped other _ =>
    by_cases hrank : rank = other
    · simp [drop, Record.drops, hrank]
    · simp [drop, Record.drops, hrank, Ne.symm hrank]

end Does

end World

/-- What was seen in `log` accounts for what the world `w` is: the queue of a pair holds what was
sent and not taken, a rank is absent if it gave up its communicator, and every wait got what it had
to get by then. -/
structure World.Agrees (w : World β) (log : List (Record β)) : Prop where
  queue_eq : ∀ source target,
    takenBetween source target log ++ w.queue source target = sentBetween source target log
  present_eq : ∀ rank, w.present rank = !log.any (Record.drops rank)
  waited_eq : ∀ i h received outcome, log[i]? = some (.waited h received outcome) →
    awaited h (log.take i) = some received ∧ outcome = (h.answer received).result ∧
      takenBetween h.peer h.rank (log.take i) <+: sentBetween h.peer h.rank (log.take i)

namespace World.Agrees

variable {w w' : World β} {log : List (Record β)}

theorem new (size : Nat) : (World.new size : World β).Agrees [] where
  queue_eq _ _ := rfl
  present_eq _ := rfl
  waited_eq i h received outcome hget := by simp at hget

/-- The queue for `h` begins with the next message. -/
theorem nextFor_eq (ha : w.Agrees log) (h : Handle) :
    nextFor h log = (w.queue h.peer h.rank).head? := by
  unfold nextFor
  rw [← ha.queue_eq, List.getElem?_append_right (Nat.le_refl _), Nat.sub_self,
    List.head?_eq_getElem?]

theorem awaited_eq (ha : w.Agrees log) (h : Handle) :
    awaited h log = (w.channelOf h.peer h.rank).receive? := by
  unfold awaited Channel.receive? World.channelOf
  rw [ha.nextFor_eq, ha.present_eq]
  cases w.queue h.peer h.rank with
  | cons envelope rest => rfl
  | nil => cases log.any (Record.drops h.peer) <;> rfl

/-- What was seen accounts for the world after one more action, the one seen as `record`. -/
theorem does (ha : w.Agrees log) {record : Record β} (hdoes : w.Does record w') :
    w'.Agrees (log ++ [record]) := by
  refine ⟨fun source target => ?_, fun rank => ?_, fun i h received outcome hget => ?_⟩
  · rw [takenBetween_concat, sentBetween_concat, List.append_assoc, ← hdoes.queue_eq,
      ← List.append_assoc, ha.queue_eq]
  · rw [hdoes.present_eq, ha.present_eq, List.any_append]
    simp
  · rcases Nat.lt_or_ge i log.length with hi | hi
    · rw [List.getElem?_append_left hi] at hget
      rw [List.take_append_of_le_length (Nat.le_of_lt hi)]
      exact ha.waited_eq i h received outcome hget
    · -- the last action was a wait, and it got what is awaited after all the others
      rw [List.getElem?_append_right hi, List.getElem?_singleton] at hget
      split at hget
      · rename_i hlast
        have hlength : i = log.length := by omega
        cases hget
        cases hdoes with
        | waited hreceived _ =>
          rw [hlength, List.take_left, ha.awaited_eq]
          exact ⟨hreceived, rfl, _, ha.queue_eq _ _⟩
      · cases hget

end World.Agrees

/-! ## Runs -/

/-- After every run of `actions`, what was seen accounts for the world that the network represents.
-/
theorem Traffic.exists_agrees {t t' : Traffic β} {w : World β} {actions : List (Action β)}
    {before log : List (Record β)} (hr : t.network.Represents t.receives w)
    (ha : w.Agrees before) (hrun : t.run actions = some (log, t')) :
    ∃ w', w'.size = w.size ∧ w'.Agrees (before ++ log) ∧
      t'.network.Represents t'.receives w' := by
  induction actions generalizing t w before log with
  | nil =>
    cases hrun
    exact ⟨w, rfl, by rwa [List.append_nil], hr⟩
  | cons action rest ih =>
    obtain ⟨⟨record, t₁⟩, hstep, hrun⟩ := Option.bind_eq_some_iff.mp hrun
    obtain ⟨⟨log₁, t₂⟩, hrest, hrun⟩ := Option.bind_eq_some_iff.mp hrun
    cases hrun
    obtain ⟨w₁, hdoes, hr₁⟩ := exists_does hr hstep
    obtain ⟨w', hsize, ha', hr'⟩ := ih hr₁ (ha.does hdoes) hrest
    refine ⟨w', hsize.trans hdoes.size_eq, ?_, hr'⟩
    rwa [List.append_assoc] at ha'

/-- What is seen in `log` of the messages between ranks. -/
structure Delivered (log : List (Record β)) : Prop where
  /-- For every ordered pair of ranks `source` and `target`, the messages that waits took are the
  first ones that were sent, in the order in which they were sent. -/
  taken_prefix : ∀ source target, takenBetween source target log <+: sentBetween source target log
  /-- A wait for `h` that took a message took the first one of its pair that was not taken before.
  -/
  takes_next : ∀ i h envelope outcome, log[i]? = some (.waited h (some envelope) outcome) →
    nextFor h (log.take i) = some envelope
  /-- It returns the payload if the tag is that of `h`, and fails otherwise. -/
  outcome_eq : ∀ h envelope outcome, .waited h (some envelope) outcome ∈ log →
    outcome = if envelope.tag = h.tag then .ok envelope.payload
      else .error (.communication (.wrongTag h.rank h.peer h.tag envelope.tag))
  /-- A wait for `h` without a message fails, because all messages of its pair were taken and the
  sender had given up its communicator. -/
  lost : ∀ i h outcome, log[i]? = some (.waited h none outcome) →
    outcome = .error (.communication (.lost h.rank h.peer)) ∧
      takenBetween h.peer h.rank (log.take i) = sentBetween h.peer h.rank (log.take i) ∧
      .dropped h.peer ∈ log.take i

theorem Record.any_drops_iff {rank : Nat} {log : List (Record β)} :
    log.any (drops rank) ↔ .dropped rank ∈ log := by
  rw [List.any_eq_true]
  constructor
  · rintro ⟨record, hmem, hdrops⟩
    unfold drops at hdrops
    split at hdrops
    · rw [decide_eq_true_iff] at hdrops
      exact hdrops ▸ hmem
    · cases hdrops
  · exact fun hmem => ⟨_, hmem, decide_eq_true rfl⟩

theorem of_awaited_eq_some {h : Handle} {log : List (Record β)} {envelope : Envelope β}
    (hawaited : awaited h log = some (some envelope)) : nextFor h log = some envelope := by
  unfold awaited at hawaited
  split at hawaited
  · rename_i hnext
    cases hawaited
    exact hnext
  · split at hawaited <;> cases hawaited

theorem of_awaited_eq_none {h : Handle} {log : List (Record β)}
    (hawaited : awaited h log = some none) : nextFor h log = none ∧ .dropped h.peer ∈ log := by
  unfold awaited at hawaited
  split at hawaited
  · cases hawaited
  · rename_i hnext
    split at hawaited
    · rename_i hdrops
      exact ⟨hnext, Record.any_drops_iff.mp hdrops⟩
    · cases hawaited

theorem Handle.result_answer_some (h : Handle) (envelope : Envelope β) :
    (h.answer (some envelope)).result = if envelope.tag = h.tag then .ok envelope.payload
      else .error (.communication (.wrongTag h.rank h.peer h.tag envelope.tag)) := by
  simp only [answer]
  split <;> rfl

theorem World.Agrees.delivered {w : World β} {log : List (Record β)} (ha : w.Agrees log) :
    Delivered log where
  taken_prefix source target := ⟨_, ha.queue_eq source target⟩
  takes_next i h envelope outcome hget :=
    of_awaited_eq_some (ha.waited_eq i h _ outcome hget).1
  outcome_eq h envelope outcome hmem := by
    obtain ⟨i, hget⟩ := List.mem_iff_getElem?.mp hmem
    obtain ⟨-, houtcome, -⟩ := ha.waited_eq i h _ outcome hget
    rw [houtcome, Handle.result_answer_some]
  lost i h outcome hget := by
    obtain ⟨hawaited, houtcome, hprefix⟩ := ha.waited_eq i h _ outcome hget
    obtain ⟨hnext, hdropped⟩ := of_awaited_eq_none hawaited
    exact ⟨houtcome, hprefix.eq_of_length_le (List.getElem?_eq_none_iff.mp hnext), hdropped⟩

/-- After every run of `actions` on a network of any `size`, the messages in `log` were delivered in
order, and those that were sent between two ranks and not taken are still in the channel of the
pair. Exactly the ranks that did not give up their communicators still hold them. Each pending
receive gets the next message of its pair, and without one it waits, unless the sender is gone. -/
theorem Traffic.delivered_run (size : Nat) {actions : List (Action β)} {log : List (Record β)}
    {t : Traffic β} (hrun : (start size).run actions = some (log, t)) :
    Delivered log ∧
    (∀ source < size, ∀ target < size, takenBetween source target log ++
      (t.network.channel (channelNumber size source target)).queue =
        sentBetween source target log) ∧
    (∀ rank, (t.network.communicator? rank).isSome ↔ rank < size ∧ .dropped rank ∉ log) ∧
    ∀ h ∈ t.receives,
      (t.network.wait h).map Prod.snd = (awaited h.toHandle log).map h.answer := by
  obtain ⟨w, hsize, ha, hr⟩ :=
    exists_agrees (Network.represents_new size) (World.Agrees.new size) hrun
  rw [List.nil_append] at ha
  have hworld : w.size = size := hsize
  refine ⟨ha.delivered, fun source hsource target htarget => ?_, fun rank => ?_, fun h hmem => ?_⟩
  · rw [← hworld] at hsource htarget ⊢
    rw [hr.channel_eq hsource htarget]
    exact ha.queue_eq source target
  · rw [hr.communicator_eq, ha.present_eq, hworld, ← Record.any_drops_iff]
    simp
  · obtain ⟨i, hget⟩ := List.mem_iff_getElem?.mp hmem
    rw [ha.awaited_eq, ← (hr.take (perm_eraseIdx hget)).1]
    unfold Network.wait
    rw [Option.map_map, Option.map_map]
    rfl

/-- Two handles of one tag and one of another compete for two messages of different tags, in another
order than they were posted in, after the sender is gone. A message of a rank to itself is left. -/
def crossedActions : List (Action Nat) :=
  [.send 0 1 7 [10], .send 0 1 9 [20], .send 1 1 7 [30], .post 1 0 9, .post 1 0 9, .post 1 1 7,
    .post 1 0 7, .drop 0, .wait 1, .wait 0, .wait 1]

def crossedLog : List (Record Nat) :=
  [.sent 0 1 ⟨7, [10]⟩ (.ok ()), .sent 0 1 ⟨9, [20]⟩ (.ok ()), .sent 1 1 ⟨7, [30]⟩ (.ok ()),
    .posted 1 0 9 (.ok ()), .posted 1 0 9 (.ok ()), .posted 1 1 7 (.ok ()), .posted 1 0 7 (.ok ()),
    .dropped 0, .waited ⟨1, 0, 9⟩ (some ⟨7, [10]⟩) (.error (.communication (.wrongTag 1 0 9 7))),
    .waited ⟨1, 0, 9⟩ (some ⟨9, [20]⟩) (.ok [20]),
    .waited ⟨1, 0, 7⟩ none (.error (.communication (.lost 1 0)))]

theorem Traffic.delivered_run_crossed : ∃ t,
    (start 2).run crossedActions = some (crossedLog, t) ∧ Delivered crossedLog ∧
    t.network.communicator? 0 = none ∧ t.receives = [⟨⟨1, 1, 7⟩, 3⟩] ∧
    ∀ h ∈ t.receives, ((t.network.wait h).map fun x => x.2.result) = some (.ok [30]) := by
  have hnew : (Network.new 2 : Network Nat) =
      { channels := #[.fresh, .fresh, .fresh, .fresh]
        communicators := #[some ⟨0, #[0, 1], #[0, 2]⟩, some ⟨1, #[2, 3], #[1, 3]⟩] } := by
    decide +kernel
  obtain ⟨t, hrun, hreceives⟩ : ∃ t, (start 2).run crossedActions = some (crossedLog, t) ∧
      t.receives = [⟨⟨1, 1, 7⟩, 3⟩] := by
    unfold start
    rw [hnew]
    exact ⟨_, rfl, rfl⟩
  obtain ⟨hdelivered, -, hheld, hpending⟩ := delivered_run 2 hrun
  refine ⟨t, hrun, hdelivered, ?_, hreceives, fun h hmem => ?_⟩
  · rw [← Option.not_isSome_iff_eq_none, hheld]
    exact fun h => h.2 (by simp [crossedLog])
  · have hwait := hpending h hmem
    rw [hreceives, List.mem_singleton] at hmem
    subst hmem
    have hresult := congrArg (Option.map Noted.result) hwait
    rw [Option.map_map] at hresult
    exact hresult.trans rfl

end FemAssembly
