import FemAssembly.Message.Network

/-!
# Channels of a network

The loops that connect the ranks give every ordered pair of ranks a channel of its own, for every
number of ranks. So a network does what a world does, which has one queue for each pair to begin
with: every operation has the same outcome in both, with the same events and errors.

* `channelNumber`, `channelNumber_inj`: the channel of a pair, which is that of no other pair.
* `Network.new_eq`: the channels and communicators of a new network.
* `Network.Represents`: a network and its pending receives do the work of a world.
* `Network.represents_new`, `Network.Represents.send`, `Network.Represents.post`,
  `Network.Represents.take`, `Network.Represents.dropHandle`, `Network.Represents.drop`: a new
  network represents a new world, and every operation goes on with that.
-/

namespace FemAssembly

variable {β : Type}

/-! ## The wiring -/

/-- The number of the channel from `source` to `target` among `size` ranks: the channels of a rank
are numbered one after the other. -/
def channelNumber (size source target : Nat) : Nat := source * size + target

theorem channelNumber_lt {size source target : Nat} (hsource : source < size)
    (htarget : target < size) : channelNumber size source target < size * size := by
  have := Nat.mul_le_mul_right size (Nat.succ_le_of_lt hsource)
  rw [Nat.succ_mul] at this
  unfold channelNumber
  omega

/-- No two pairs of ranks have the same `channelNumber`. -/
theorem channelNumber_inj {size source target source' target' : Nat} (h : target < size)
    (h' : target' < size) :
    channelNumber size source target = channelNumber size source' target' ↔
      source = source' ∧ target = target' := by
  refine ⟨fun heq => ?_, fun ⟨hsource, htarget⟩ => by rw [hsource, htarget]⟩
  unfold channelNumber at heq
  have hparts : ∀ {a b : Nat}, b < size → (a * size + b) / size = a := fun {a b} hb => by
    rw [Nat.mul_comm, Nat.mul_add_div (Nat.zero_lt_of_lt hb), Nat.div_eq_of_lt hb, Nat.add_zero]
  have hsource : source = source' :=
    calc source = (source * size + target) / size := (hparts h).symm
      _ = (source' * size + target') / size := by rw [heq]
      _ = source' := hparts h'
  subst hsource
  exact ⟨rfl, Nat.add_left_cancel heq⟩

/-- The communicator of `rank` before it gives anything up. -/
def Communicator.ofRank (size rank : Nat) : Communicator where
  rank := rank
  senders := (Array.range size).map (channelNumber size rank)
  receivers := (Array.range size).map (channelNumber size · rank)

namespace Communicator

variable {size rank peer : Nat}

@[simp] theorem size_ofRank : (ofRank size rank).size = size := by simp [Communicator.size, ofRank]

theorem senders_ofRank (h : peer < size) :
    (ofRank size rank).senders[peer]? = some (channelNumber size rank peer) := by
  simp [ofRank, h]

theorem receivers_ofRank (h : peer < size) :
    (ofRank size rank).receivers[peer]? = some (channelNumber size peer rank) := by
  simp [ofRank, h]

/-- The rank `rank` sends through the channels of which it is the source. -/
theorem mem_senders_ofRank {source target : Nat} (htarget : target < size) :
    channelNumber size source target ∈ (ofRank size rank).senders.toList ↔ source = rank := by
  simp only [ofRank, Array.toList_map, Array.toList_range, List.mem_map, List.mem_range]
  constructor
  · rintro ⟨other, hother, heq⟩
    exact ((channelNumber_inj hother htarget).mp heq).1.symm
  · rintro rfl
    exact ⟨target, htarget, rfl⟩

/-- The rank `rank` receives through the channels of which it is the target. -/
theorem mem_receivers_ofRank {source target : Nat} (hrank : rank < size) (hsource : source < size)
    (htarget : target < size) :
    channelNumber size source target ∈ (ofRank size rank).receivers.toList ↔ target = rank := by
  simp only [ofRank, Array.toList_map, Array.toList_range, List.mem_map, List.mem_range]
  constructor
  · rintro ⟨other, hother, heq⟩
    exact ((channelNumber_inj hrank htarget).mp heq).2.symm
  · rintro rfl
    exact ⟨source, hsource, rfl⟩

theorem nodup_senders_ofRank : (ofRank size rank).senders.toList.Nodup := by
  simp only [ofRank, Array.toList_map, Array.toList_range, List.Nodup, List.pairwise_map]
  refine List.pairwise_lt_range.imp fun hlt heq => ?_
  unfold channelNumber at heq
  omega

theorem nodup_receivers_ofRank (hrank : rank < size) :
    (ofRank size rank).receivers.toList.Nodup := by
  simp only [ofRank, Array.toList_map, Array.toList_range, List.Nodup, List.pairwise_map]
  refine List.pairwise_lt_range.imp fun hlt heq => ?_
  exact Nat.ne_of_lt hlt ((channelNumber_inj hrank hrank).mp heq).1

/-- A channel `number` that a communicator has an end of exists. -/
theorem lt_of_mem_ofRank {number : Nat} (hrank : rank < size)
    (h : number ∈ (ofRank size rank).senders.toList ∨
      number ∈ (ofRank size rank).receivers.toList) :
    number < size * size := by
  simp only [ofRank, Array.toList_map, Array.toList_range, List.mem_map, List.mem_range] at h
  rcases h with ⟨peer, hpeer, rfl⟩ | ⟨peer, hpeer, rfl⟩
  · exact channelNumber_lt hrank hpeer
  · exact channelNumber_lt hpeer hrank

end Communicator

namespace Wiring

/-- A row of channel numbers `f i` with one more entry. -/
private theorem map_range_succ (f : Nat → Nat) (count : Nat) :
    (Array.range (count + 1)).map f = ((Array.range count).map f).push (f count) := by
  rw [Array.range_succ, Array.map_append, Array.push_eq_append, Array.map_singleton]

private theorem map_range_zero (f : Nat → Nat) : (Array.range 0).map f = #[] :=
  Array.eq_empty_of_size_eq_zero (by simp)

/-- Connecting `source` makes `count` channels, one for each target. Its sending ends go to `source`
in the order of the targets, and each target gets one receiving end. -/
theorem connectFrom_eq (count : Nat) (w : Wiring β) (source : Nat) :
    connectFrom count w source =
      { channels := w.channels ++ Array.replicate count .fresh
        senders := w.senders.modify source (· ++ (Array.range count).map (w.channels.size + ·))
        receivers := w.receivers.mapIdx fun target row =>
          if target < count then row.push (w.channels.size + target) else row } := by
  unfold connectFrom
  induction count with
  | zero =>
    simp only [map_range_zero, Array.append_empty, Array.replicate_zero, Nat.not_lt_zero, if_false]
    have hsenders : (w.senders.modify source fun row => row) = w.senders :=
      Array.ext (by simp) fun i _ _ => by simp [Array.getElem_modify]
    have hreceivers : (w.receivers.mapIdx fun _ row => row) = w.receivers :=
      Array.ext (by simp) fun i _ _ => by simp
    rw [hsenders, hreceivers]
    rfl
  | succ count ih =>
    rw [List.range_succ, List.foldl_append, ih]
    simp only [List.foldl_cons, List.foldl_nil, connect, map_range_succ, Array.append_push]
    congr 1
    · rw [Array.replicate_succ, Array.append_push]
    · refine Array.ext (by simp) fun i _ _ => ?_
      simp only [Array.getElem_modify, Array.size_append, Array.size_replicate]
      split <;> rfl
    · refine Array.ext (by simp) fun i _ _ => ?_
      simp only [Array.getElem_modify, Array.getElem_mapIdx, Array.size_append,
        Array.size_replicate]
      rcases Nat.lt_trichotomy i count with hlt | rfl | hgt
      · rw [if_neg (by omega), if_pos hlt, if_pos (by omega)]
      · rw [if_pos rfl, if_neg (by omega), if_pos (by omega)]
      · rw [if_neg (by omega), if_neg (by omega), if_neg (by omega)]

/-- The first `count` ranks are connected to all ranks. -/
theorem foldl_connectFrom_eq {size count : Nat} (hcount : count ≤ size) :
    (List.range count).foldl (connectFrom size) (empty size : Wiring β) =
      { channels := Array.replicate (count * size) .fresh
        senders := (Array.range size).map fun source =>
          if source < count then (Array.range size).map (channelNumber size source) else #[]
        receivers := (Array.range size).map fun target =>
          (Array.range count).map (channelNumber size · target) } := by
  induction count with
  | zero =>
    simp only [map_range_zero, Nat.not_lt_zero, if_false, Nat.zero_mul]
    have hempty : Array.replicate size (#[] : Array Nat) = (Array.range size).map fun _ => #[] :=
      Array.ext (by simp) fun i _ _ => by simp
    rw [← hempty]
    rfl
  | succ count ih =>
    rw [List.range_succ, List.foldl_append, ih (by omega)]
    simp only [List.foldl_cons, List.foldl_nil, connectFrom_eq, Array.size_replicate,
      map_range_succ]
    congr 1
    · rw [Array.replicate_append_replicate, Nat.succ_mul]
    · refine Array.ext (by simp) fun i _ _ => ?_
      simp only [Array.getElem_modify, Array.getElem_map, Array.getElem_range]
      rcases Nat.lt_trichotomy i count with hlt | rfl | hgt
      · rw [if_neg (by omega), if_pos hlt, if_pos (by omega)]
      · rw [if_pos rfl, if_neg (by omega), if_pos (by omega), Array.empty_append]
        rfl
      · rw [if_neg (by omega), if_neg (by omega), if_neg (by omega)]
    · refine Array.ext (by simp) fun i _ hi => ?_
      have hlt : i < size := by simpa using hi
      simp only [Array.getElem_mapIdx, Array.getElem_map, Array.getElem_range, if_pos hlt]
      rfl

end Wiring

/-- Every ordered pair of the `size` ranks has a channel of its own, with one end at each of the
two. -/
theorem Network.new_eq (size : Nat) : (new size : Network β) =
    { channels := Array.replicate (size * size) .fresh
      communicators := (Array.range size).map fun rank => some (.ofRank size rank) } := by
  simp only [new, Wiring.complete, Wiring.foldl_connectFrom_eq (Nat.le_refl size)]
  congr 1
  refine Array.ext (by simp) fun i _ hi => ?_
  have hlt : i < size := by simpa using hi
  simp [hlt, Communicator.ofRank]

/-! ## Networks and worlds -/

/-- The channel from `source` to `target`, as it is in the world `w`. -/
def World.channelOf (w : World β) (source target : Nat) : Channel β where
  queue := w.queue source target
  senders := (w.present source).toNat
  receivers := (w.present target).toNat + w.pending source target

theorem World.canReceive_iff {w : World β} {source target : Nat} :
    w.canReceive source target ↔ 0 < (w.channelOf source target).receivers := by
  unfold canReceive channelOf
  cases w.present target <;> simp [Nat.add_comm 1]

/-- The channels of `n` hold the queues of `w`, its communicators are those of the ranks that are
present, and its pending receives are the `receives` that `w` counts. -/
structure Network.Represents (n : Network β) (receives : List Receive) (w : World β) : Prop where
  size_channels : n.channels.size = w.size * w.size
  channel_eq : ∀ {source target}, source < w.size → target < w.size →
    n.channel (channelNumber w.size source target) = w.channelOf source target
  communicator_eq : ∀ rank, n.communicator? rank =
    if rank < w.size ∧ w.present rank then some (.ofRank w.size rank) else none
  of_mem : ∀ h ∈ receives, h.rank < w.size ∧ h.peer < w.size ∧
    h.channel = channelNumber w.size h.peer h.rank
  pending_eq : ∀ source target, w.pending source target =
    receives.countP fun h => h.peer = source ∧ h.rank = target

/-- A message to a rank `peer` of the world `w` is noted as sent before it is known whether anyone
can take it. -/
theorem World.send_of_lt {w : World β} {peer : Nat} (hpeer : peer < w.size) (rank : Nat) (tag : Tag)
    (payload : List β) : w.send rank peer tag payload =
      ⟨[.sending rank payload.length peer tag], if w.canReceive rank peer then
        .ok { w with queue := updatePair w.queue rank peer (w.queue rank peer ++ [⟨tag, payload⟩]) }
      else .error (.communication (.lost rank peer))⟩ := by
  unfold send checkPeer
  rw [if_pos hpeer]
  split <;> rfl

/-- What a wait for `h` does in a world, by what the channel of `h` has for it. -/
theorem World.wait_eq (w : World β) (h : Handle) :
    w.wait h = (w.channelOf h.peer h.rank).receive?.map fun received =>
      ({ w.dropHandle h with
          queue := updatePair w.queue h.peer h.rank (w.queue h.peer h.rank).tail },
        h.answer received) := by
  unfold wait channelOf Channel.receive?
  cases hqueue : w.queue h.peer h.rank with
  | cons envelope rest =>
    simp only [Option.map_some, List.tail_cons, Handle.answer]
    split <;> rfl
  | nil =>
    have hsame : updatePair w.queue h.peer h.rank [] = w.queue := by
      funext a b
      by_cases hpair : a = h.peer ∧ b = h.rank
      · rw [hpair.1, hpair.2, updatePair_same, hqueue]
      · rw [updatePair_ne _ _ hpair]
    cases hpresent : w.present h.peer with
    | true => rfl
    | false =>
      simp [hsame, Handle.answer, dropHandle]

namespace Network

/-- A message of `rank` to `peer` is put into the channel that has the two as ends. -/
theorem send_ofRank (n : Network β) {size peer : Nat} (hpeer : peer < size) (rank : Nat) (tag : Tag)
    (payload : List β) : n.send (.ofRank size rank) peer tag payload =
      ⟨[.sending rank payload.length peer tag],
        if 0 < (n.channel (channelNumber size rank peer)).receivers then
          .ok (n.update (channelNumber size rank peer) (·.push ⟨tag, payload⟩))
        else .error (.communication (.lost rank peer))⟩ := by
  unfold send Communicator.checkPeer
  rw [Communicator.size_ofRank, if_pos hpeer, Communicator.senders_ofRank hpeer, Word.orFault_some]
  refine (show _ = (Noted.bind (Noted.note (.sending rank payload.length peer tag)) fun _ =>
    if 0 < (n.channel (channelNumber size rank peer)).receivers then
      pure (n.update (channelNumber size rank peer) (·.push ⟨tag, payload⟩))
    else Noted.fail (.communication (.lost rank peer))) from rfl).trans ?_
  split <;> rfl

theorem represents_new (size : Nat) : (new size : Network β).Represents [] (World.new size) where
  size_channels := by simp [new_eq, World.new]
  channel_eq {source target} hsource htarget := by
    have hlt := channelNumber_lt hsource htarget
    unfold World.new at hlt
    simp only [channel, new_eq, World.new, World.channelOf, Array.getD, Array.size_replicate,
      dif_pos hlt]
    simp [Channel.fresh]
  communicator_eq rank := by
    simp only [communicator?, new_eq, World.new, and_true]
    by_cases h : rank < size <;> simp [h]
  of_mem _ h := by cases h
  pending_eq _ _ := rfl

theorem channel_update {n : Network β} {number : Nat} (hnumber : number < n.channels.size)
    (f : Channel β → Channel β) (other : Nat) :
    (n.update number f).channel other =
      if other = number then f (n.channel other) else n.channel other := by
  unfold update channel
  rw [Array.getD_eq_getD_getElem?, Array.getD_eq_getD_getElem?, Array.getElem?_modify]
  by_cases h : number = other
  · subst h
    simp [hnumber]
  · simp [h, Ne.symm h]

/-- Changing the channels with the given `numbers` leaves all others alone. -/
theorem updateAll_spec {numbers : Array Nat} (hnodup : numbers.toList.Nodup) {n : Network β}
    (hlt : ∀ number ∈ numbers.toList, number < n.channels.size) (f : Channel β → Channel β) :
    (n.updateAll numbers f).channels.size = n.channels.size ∧
    ∀ other, (n.updateAll numbers f).channel other =
      if other ∈ numbers.toList then f (n.channel other) else n.channel other := by
  unfold updateAll
  rw [← Array.foldl_toList]
  generalize numbers.toList = numbers at hnodup hlt
  induction numbers generalizing n with
  | nil => exact ⟨rfl, fun _ => rfl⟩
  | cons number rest ih =>
    obtain ⟨hnotMem, hrest⟩ := List.nodup_cons.mp hnodup
    have hsize : (n.update number f).channels.size = n.channels.size := Array.size_modify
    obtain ⟨hsizes, hchannel⟩ := ih hrest (n := n.update number f) fun k hk =>
      hsize ▸ hlt k (List.mem_cons_of_mem _ hk)
    refine ⟨hsizes.trans hsize, fun other => ?_⟩
    rw [List.foldl_cons, hchannel, channel_update (hlt number List.mem_cons_self)]
    by_cases hother : other = number
    · subst hother
      simp [hnotMem]
    · simp [hother]

/-- When `rank` gives up its communicator `c`, that closes the ends of `c` and does nothing else to
the channels. -/
theorem channels_drop {n : Network β} {rank : Nat} {c : Communicator}
    (hc : n.communicator? rank = some c) : (n.drop rank).channels =
      ((n.updateAll c.senders Channel.closeSender).updateAll c.receivers
        Channel.closeReceiver).channels := by
  unfold drop
  rw [hc]

theorem communicator?_drop {n : Network β} {rank : Nat} {c : Communicator}
    (hc : n.communicator? rank = some c) (other : Nat) :
    (n.drop rank).communicator? other = if other = rank then none else n.communicator? other := by
  unfold drop
  rw [hc]
  unfold communicator?
  show (n.communicators.setIfInBounds rank none)[other]?.join = _
  rw [Array.getElem?_setIfInBounds]
  by_cases hother : other = rank
  · rw [if_pos hother.symm, if_pos hother]
    split <;> rfl
  · rw [if_neg (Ne.symm hother), if_neg hother]

namespace Represents

variable {n : Network β} {receives receives' : List Receive} {w w' : World β}

/-- One channel of the network changes by `f`, as the queue and the ends of its pair do in the
world. -/
theorem update (hr : n.Represents receives w) {source target : Nat} (hsource : source < w.size)
    (htarget : target < w.size) {f : Channel β → Channel β} (hsize : w'.size = w.size)
    (hpresent : w'.present = w.present)
    (hchanged : w'.channelOf source target = f (w.channelOf source target))
    (hothers : ∀ a b, ¬ (a = source ∧ b = target) → w'.channelOf a b = w.channelOf a b)
    (hmem : ∀ h ∈ receives', h.rank < w.size ∧ h.peer < w.size ∧
      h.channel = channelNumber w.size h.peer h.rank)
    (hpending : ∀ a b, w'.pending a b = receives'.countP fun h => h.peer = a ∧ h.rank = b) :
    (n.update (channelNumber w.size source target) f).Represents receives' w' where
  size_channels := by rw [hsize, ← hr.size_channels]; exact Array.size_modify
  channel_eq {a b} ha hb := by
    rw [hsize] at ha hb ⊢
    have hnumber : channelNumber w.size source target < n.channels.size := by
      rw [hr.size_channels]
      exact channelNumber_lt hsource htarget
    rw [channel_update hnumber, hr.channel_eq ha hb]
    by_cases hpair : a = source ∧ b = target
    · obtain ⟨rfl, rfl⟩ := hpair
      rw [if_pos rfl, hchanged]
    · rw [if_neg (mt (channelNumber_inj hb htarget).mp hpair), hothers a b hpair]
  communicator_eq rank := by
    rw [hsize, hpresent]
    exact hr.communicator_eq rank
  of_mem h hh := by
    rw [hsize]
    exact hmem h hh
  pending_eq := hpending

/-- A `rank` that holds a communicator `c` is present, and holds the ends that it was given at the
start. -/
theorem of_communicator? (hr : n.Represents receives w) {rank : Nat} {c : Communicator}
    (hc : n.communicator? rank = some c) :
    rank < w.size ∧ w.present rank = true ∧ c = .ofRank w.size rank := by
  rw [hr.communicator_eq] at hc
  split at hc
  · rename_i h
    exact ⟨h.1, h.2, (Option.some.inj hc).symm⟩
  · cases hc

theorem send (hr : n.Represents receives w) {rank : Nat} {c : Communicator}
    (hc : n.communicator? rank = some c) (peer : Nat) (tag : Tag) (payload : List β) :
    (n.send c peer tag payload).events = (w.send rank peer tag payload).events ∧
    ((n.send c peer tag payload).result.map fun _ => ()) =
      ((w.send rank peer tag payload).result.map fun _ => ()) ∧
    ((n.send c peer tag payload).result.toOption.getD n).Represents receives
      ((w.send rank peer tag payload).result.toOption.getD w) := by
  obtain ⟨hrank, hpresent, rfl⟩ := hr.of_communicator? hc
  by_cases hpeer : peer < w.size
  · rw [send_ofRank n hpeer, World.send_of_lt hpeer, hr.channel_eq hrank hpeer]
    refine ⟨rfl, ?_⟩
    by_cases hreceive : w.canReceive rank peer
    · rw [if_pos hreceive, if_pos (World.canReceive_iff.mp hreceive)]
      refine ⟨rfl, hr.update hrank hpeer rfl rfl ?_ ?_ hr.of_mem hr.pending_eq⟩
      · simp [World.channelOf, Channel.push, updatePair_same, Except.toOption]
      · intro a b hpair
        simp [World.channelOf, updatePair_ne _ _ hpair, Except.toOption]
    · rw [if_neg hreceive, if_neg (mt World.canReceive_iff.mpr hreceive)]
      exact ⟨rfl, hr⟩
  · unfold Network.send World.send Communicator.checkPeer World.checkPeer
    rw [Communicator.size_ofRank, if_neg hpeer]
    exact ⟨rfl, rfl, hr⟩

theorem post (hr : n.Represents receives w) {rank : Nat} {c : Communicator}
    (hc : n.communicator? rank = some c) (peer : Nat) (tag : Tag) :
    (∃ h n' w', n.post c peer tag = .ok (h, n') ∧ w.post rank peer tag = .ok (h.toHandle, w') ∧
      n'.Represents (receives ++ [h]) w') ∨
    ∃ e, n.post c peer tag = .error e ∧ w.post rank peer tag = .error e := by
  obtain ⟨hrank, hpresent, rfl⟩ := hr.of_communicator? hc
  unfold Network.post World.post Communicator.checkPeer World.checkPeer
  rw [Communicator.size_ofRank]
  by_cases hpeer : peer < w.size
  · rw [if_pos hpeer, Communicator.receivers_ofRank hpeer]
    refine .inl ⟨_, _, _, rfl, rfl, hr.update hpeer hrank rfl rfl ?_ ?_ ?_ ?_⟩
    · simp [World.channelOf, Channel.openReceiver, updatePair_same, Nat.add_assoc]
    · intro a b hpair
      simp [World.channelOf, updatePair_ne _ _ hpair]
    · intro h hmem
      rcases List.mem_append.mp hmem with hmem | hmem
      · exact hr.of_mem h hmem
      · obtain rfl := List.mem_singleton.mp hmem
        exact ⟨hrank, hpeer, rfl⟩
    · intro a b
      rw [List.countP_append, ← hr.pending_eq a b]
      by_cases hpair : a = peer ∧ b = rank
      · obtain ⟨rfl, rfl⟩ := hpair
        simp [updatePair_same, Communicator.ofRank]
      · have hother : ¬ (peer = a ∧ rank = b) := fun h => hpair ⟨h.1.symm, h.2.symm⟩
        simp [updatePair_ne _ _ hpair, Communicator.ofRank, hother]
  · rw [if_neg hpeer]
    exact .inr ⟨_, rfl, rfl⟩

/-- The pending receive `h` less, in the network and in the world. -/
theorem dropHandle (hr : n.Represents receives w) {h : Receive}
    (hperm : (h :: receives').Perm receives) :
    (n.dropHandle h).Represents receives' (w.dropHandle h.toHandle) := by
  obtain ⟨hrank, hpeer, hchannel⟩ := hr.of_mem h (hperm.mem_iff.mp List.mem_cons_self)
  have hcount : ∀ a b, w.pending a b =
      (receives'.countP fun h => h.peer = a ∧ h.rank = b) +
        if h.peer = a ∧ h.rank = b then 1 else 0 := fun a b => by
    rw [hr.pending_eq, ← hperm.countP_eq, List.countP_cons]
    simp
  have hself := hcount h.peer h.rank
  rw [if_pos ⟨rfl, rfl⟩] at hself
  unfold Network.dropHandle
  rw [hchannel]
  refine hr.update hpeer hrank rfl rfl ?_ ?_ ?_ ?_
  · have hends : (w.present h.rank).toNat + (w.pending h.peer h.rank - 1) =
        (w.present h.rank).toNat + w.pending h.peer h.rank - 1 := by omega
    simp [World.channelOf, World.dropHandle, Channel.closeReceiver, updatePair_same, hends]
  · intro a b hpair
    simp [World.channelOf, World.dropHandle, updatePair_ne _ _ hpair]
  · exact fun h' hmem => hr.of_mem h' (hperm.mem_iff.mp (List.mem_cons_of_mem _ hmem))
  · intro a b
    unfold World.dropHandle
    by_cases hpair : a = h.peer ∧ b = h.rank
    · obtain ⟨rfl, rfl⟩ := hpair
      simp only [updatePair_same]
      omega
    · have hother : ¬ (h.peer = a ∧ h.rank = b) := fun heq => hpair ⟨heq.1.symm, heq.2.symm⟩
      simp only [updatePair_ne _ _ hpair]
      rw [hcount, if_neg hother, Nat.add_zero]

/-- The pending receive `h` gets what the channel of its pair has for it, as in the world. -/
theorem take (hr : n.Represents receives w) {h : Receive}
    (hperm : (h :: receives').Perm receives) :
    (n.take h).map Prod.snd = (w.channelOf h.peer h.rank).receive? ∧
    ∀ n' received, n.take h = some (n', received) →
      ∃ w', w.wait h.toHandle = some (w', h.answer received) ∧ n'.Represents receives' w' := by
  obtain ⟨hrank, hpeer, hchannel⟩ := hr.of_mem h (hperm.mem_iff.mp List.mem_cons_self)
  have hpop : (n.update h.channel Channel.pop).Represents receives
      { w with queue := updatePair w.queue h.peer h.rank (w.queue h.peer h.rank).tail } := by
    rw [hchannel]
    refine hr.update hpeer hrank rfl rfl ?_ ?_ hr.of_mem hr.pending_eq
    · simp [World.channelOf, Channel.pop, updatePair_same]
    · intro a b hpair
      simp [World.channelOf, updatePair_ne _ _ hpair]
  unfold Network.take
  rw [World.wait_eq, hchannel, hr.channel_eq hpeer hrank, ← hchannel]
  refine ⟨by rw [Option.map_map]; exact Option.map_id', fun n' received htake => ?_⟩
  obtain ⟨received, hreceived, heq⟩ := Option.map_eq_some_iff.mp htake
  cases heq
  rw [hreceived]
  exact ⟨_, rfl, hpop.dropHandle hperm⟩

/-- The rank `rank` gives up one end of each of its channels. -/
theorem drop (hr : n.Represents receives w) {rank : Nat} {c : Communicator}
    (hc : n.communicator? rank = some c) : (n.drop rank).Represents receives (w.drop rank) := by
  obtain ⟨hrank, hpresent, rfl⟩ := hr.of_communicator? hc
  obtain ⟨hsize, hsenders⟩ := updateAll_spec Communicator.nodup_senders_ofRank
    (fun number hnumber => hr.size_channels.symm ▸
      Communicator.lt_of_mem_ofRank hrank (.inl hnumber)) Channel.closeSender
  obtain ⟨hsize', hreceivers⟩ := updateAll_spec (Communicator.nodup_receivers_ofRank hrank)
    (fun number hnumber => (hsize.trans hr.size_channels).symm ▸
      Communicator.lt_of_mem_ofRank hrank (.inr hnumber)) Channel.closeReceiver
  refine ⟨?_, ?_, ?_, hr.of_mem, hr.pending_eq⟩
  · rw [channels_drop hc]
    exact hsize'.trans (hsize.trans hr.size_channels)
  · intro source target (hsource : source < w.size) (htarget : target < w.size)
    have hchannel := (hreceivers (channelNumber w.size source target)).trans
      (by rw [hsenders, hr.channel_eq hsource htarget])
    simp only [Communicator.mem_senders_ofRank htarget,
      Communicator.mem_receivers_ofRank hrank hsource htarget] at hchannel
    unfold channel at hchannel ⊢
    rw [channels_drop hc]
    refine hchannel.trans ?_
    unfold World.drop World.channelOf Channel.closeSender Channel.closeReceiver
    by_cases hs : source = rank <;> by_cases ht : target = rank <;> simp [hs, ht, hpresent]
  · intro other
    refine (communicator?_drop hc other).trans ?_
    by_cases hother : other = rank
    · simp [hother, World.drop]
    · rw [if_neg hother, hr.communicator_eq]
      simp [hother, World.drop]

end Represents
end Network
end FemAssembly
