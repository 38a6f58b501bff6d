import FemAssembly.Distributed.Halo
import FemAssembly.Proofs.Distributed.Rows
import FemAssembly.Proofs.Message.Collective
import FemAssembly.Proofs.Sequence.Results

/-!
# Halo plans and exchanges

Every rank gives the off-diagonal columns that it needs, in increasing order. The plans that the
ranks make together fit each other, and an exchange after them gives every column the value that its
owner has for it.

* `HaloBlock.Covers`, `HaloBlock.covers_ofOwners`: the blocks of an increasing list of owners.
* `ForeignColumns`, `neededFrom`: the columns of a rank, and those that it needs from a peer.
* `HaloPlan.planned`, `Collective.haloPlan`: the plans that the ranks make.
* `HaloPlan.exchanges_startExchange`, `Exchange.exchanges_wait`: the two halves of an exchange.
-/

namespace FemAssembly

/-! ## Blocks -/

namespace HaloBlock

/-- The peers of `blocks` increase and are those in `owners`, and every block is the range of the
positions of its peer, counted from `start`. -/
structure Covers (start : Nat) (owners : List Nat) (blocks : List HaloBlock) : Prop where
  increasing : (blocks.map HaloBlock.peer).Pairwise (· < ·)
  mem_iff : ∀ p, p ∈ blocks.map HaloBlock.peer ↔ p ∈ owners
  range : ∀ b ∈ blocks, b.start = start + owners.countP (· < b.peer) ∧
    b.stop = start + owners.countP (· ≤ b.peer)

theorem countP_lt_eq_zero {owners : List Nat} {p : Nat} (h : ∀ o ∈ owners, p ≤ o) :
    owners.countP (· < p) = 0 := by
  rw [List.countP_eq_zero]
  intro o ho
  simpa using h o ho

/-- One more owner `o` in front extends the first block, or it makes a block of its own. -/
theorem Covers.extend {owners : List Nat} {start : Nat} {blocks : List HaloBlock}
    (h : Covers (start + 1) owners blocks) {o : Nat} (hle : ∀ p ∈ owners, o ≤ p) :
    Covers start (o :: owners) (extend o start blocks) := by
  have hpeer : ∀ b ∈ blocks, o ≤ b.peer := fun b hb =>
    hle _ ((h.mem_iff _).mp (List.mem_map_of_mem hb))
  -- a block of another peer starts and ends one later
  have hlater : ∀ b ∈ blocks, o < b.peer →
      b.start = start + (o :: owners).countP (· < b.peer) ∧
        b.stop = start + (o :: owners).countP (· ≤ b.peer) := by
    intro b hb hlt
    obtain ⟨hstart, hstop⟩ := h.range b hb
    rw [List.countP_cons_of_pos (by simpa using hlt),
      List.countP_cons_of_pos (by simpa using Nat.le_of_lt hlt)]
    omega
  have hnone : (o :: owners).countP (· < o) = 0 := countP_lt_eq_zero (by simpa using hle)
  have hfirst : (o :: owners).countP (· ≤ o) = owners.countP (· ≤ o) + 1 :=
    List.countP_cons_of_pos (by simp)
  cases blocks with
  | nil =>
    obtain rfl : owners = [] := by
      refine List.eq_nil_iff_forall_not_mem.mpr fun p hp => ?_
      simpa using (h.mem_iff p).mpr hp
    exact ⟨by simp [HaloBlock.extend], by simp [HaloBlock.extend, eq_comm],
      by simp [HaloBlock.extend]⟩
  | cons b rest =>
    obtain ⟨hafter, hincreasing⟩ := List.pairwise_cons.mp h.increasing
    have hrest : ∀ c ∈ rest, b.peer < c.peer := fun c hc => hafter _ (List.mem_map_of_mem hc)
    by_cases heq : b.peer = o
    · have hextend : HaloBlock.extend o start (b :: rest) = { b with start := start } :: rest := by
        simp [HaloBlock.extend, heq]
      rw [hextend]
      refine ⟨List.pairwise_cons.mpr ⟨hafter, hincreasing⟩, fun p => ?_, ?_⟩
      · have hmem := h.mem_iff p
        have ho := (h.mem_iff o).mp (by simp [heq])
        simp only [List.map_cons, List.mem_cons] at hmem ⊢
        rw [hmem]
        exact ⟨.inr, fun hp => hp.elim (fun hp => hp ▸ ho) id⟩
      · refine List.forall_mem_cons.mpr ⟨?_, fun c hc => hlater c (List.mem_cons_of_mem _ hc) ?_⟩
        · have hstop := (h.range b List.mem_cons_self).2
          simp only [heq] at hstop ⊢
          omega
        · exact heq ▸ hrest c hc
    · have hlt : o < b.peer := by
        have := hpeer b List.mem_cons_self
        omega
      have hextend : HaloBlock.extend o start (b :: rest) =
          ⟨o, start, start + 1⟩ :: b :: rest := by
        simp [HaloBlock.extend, heq]
      have hblock : ∀ c ∈ b :: rest, o < c.peer :=
        List.forall_mem_cons.mpr ⟨hlt, fun c hc => Nat.lt_trans hlt (hrest c hc)⟩
      rw [hextend]
      refine ⟨List.pairwise_cons.mpr ⟨fun p hp => ?_, h.increasing⟩, fun p => ?_, ?_⟩
      · obtain ⟨c, hc, rfl⟩ := List.mem_map.mp hp
        exact hblock c hc
      · rw [List.map_cons, List.mem_cons, h.mem_iff, List.mem_cons]
      · refine List.forall_mem_cons.mpr ⟨?_, fun c hc => hlater c hc (hblock c hc)⟩
        have hzero : owners.countP (· ≤ o) = 0 := by
          rw [List.countP_eq_zero]
          intro p hp
          obtain ⟨c, hc, rfl⟩ := List.mem_map.mp ((h.mem_iff p).mpr hp)
          simpa using hblock c hc
        simp only
        omega

theorem covers_ofOwners {owners : List Nat} (h : owners.Pairwise (· ≤ ·)) (start : Nat) :
    Covers start owners (ofOwners start owners) := by
  induction owners generalizing start with
  | nil => exact ⟨.nil, by simp [ofOwners], by simp [ofOwners]⟩
  | cons o owners ih =>
    obtain ⟨hle, hrest⟩ := List.pairwise_cons.mp h
    exact (ih hrest (start + 1)).extend hle

end HaloBlock

/-! ## Columns -/

/-- The `columns` are rows of other ranks than `rank`, in increasing order. -/
structure ForeignColumns (starts : Array Nat) (rank : Nat) (columns : List Nat) : Prop where
  increasing : columns.Pairwise (· < ·)
  lt : ∀ c ∈ columns, c < globalSize starts
  not_owns : ∀ c ∈ columns, ¬ Owns starts rank c

/-- Those of `columns` that `peer` owns. -/
def neededFrom (starts : Array Nat) (peer : Nat) (columns : List Nat) : List Nat :=
  columns.filter fun c => owner starts c == peer

namespace ForeignColumns

variable {starts : Array Nat} {size rank : Nat} {columns : List Nat}

theorem pairwise_owners (h : ForeignColumns starts rank columns) (hstarts : RowStarts starts size) :
    (columns.map (owner starts)).Pairwise (· ≤ ·) := by
  refine List.pairwise_map.mpr (h.increasing.imp_of_mem fun {c d} _ hd hcd => ?_)
  exact hstarts.owner_le (Nat.le_of_lt hcd) (h.lt d hd)

theorem covers (h : ForeignColumns starts rank columns) (hstarts : RowStarts starts size) :
    HaloBlock.Covers 0 (columns.map (owner starts))
      (HaloBlock.ofOwners 0 (columns.map (owner starts))) :=
  HaloBlock.covers_ofOwners (h.pairwise_owners hstarts) 0

theorem mem_neededFrom {peer c : Nat} :
    c ∈ neededFrom starts peer columns ↔ c ∈ columns ∧ owner starts c = peer := by
  simp [neededFrom]

/-- The rank `rank` needs nothing from itself. -/
theorem neededFrom_self (h : ForeignColumns starts rank columns) (hstarts : RowStarts starts size)
    (hrank : rank < size) : neededFrom starts rank columns = [] := by
  refine List.eq_nil_iff_forall_not_mem.mpr fun c hc => ?_
  obtain ⟨hmem, howner⟩ := mem_neededFrom.mp hc
  exact h.not_owns c hmem ((hstarts.owner_eq_iff hrank (h.lt c hmem)).mp howner)

/-- The `columns`, block by block. -/
theorem flatMap_neededFrom (h : ForeignColumns starts rank columns)
    (hstarts : RowStarts starts size) :
    (HaloBlock.ofOwners 0 (columns.map (owner starts))).flatMap
      (fun b => neededFrom starts b.peer columns) = columns := by
  have hcovers := h.covers hstarts
  refine List.Pairwise.eq_of_mem_iff ?_ h.increasing fun c => ?_
  · refine List.pairwise_flatMap.mpr ⟨fun b _ => h.increasing.filter _, ?_⟩
    refine (List.pairwise_map.mp hcovers.increasing).imp fun {b b'} hlt c hc c' hc' => ?_
    obtain ⟨hmem, howner⟩ := mem_neededFrom.mp hc
    obtain ⟨hmem', howner'⟩ := mem_neededFrom.mp hc'
    by_contra hle
    have := hstarts.owner_le (Nat.le_of_not_lt hle) (h.lt c hmem)
    omega
  · simp only [List.mem_flatMap, mem_neededFrom]
    constructor
    · rintro ⟨_, -, hmem, -⟩
      exact hmem
    · intro hmem
      obtain ⟨b, hb, hpeer⟩ := List.mem_map.mp
        ((hcovers.mem_iff _).mpr (List.mem_map_of_mem (f := owner starts) hmem))
      exact ⟨b, hb, hmem, hpeer.symm⟩

/-- A block `b` has a position for every column that is needed from its peer. -/
theorem length_neededFrom (h : ForeignColumns starts rank columns) (hstarts : RowStarts starts size)
    {b : HaloBlock} (hb : b ∈ HaloBlock.ofOwners 0 (columns.map (owner starts))) :
    (neededFrom starts b.peer columns).length = b.stop - b.start := by
  obtain ⟨hstart, hstop⟩ := (h.covers hstarts).range b hb
  have hsplit : ∀ list : List Nat, list.countP (· ≤ b.peer) =
      list.countP (· < b.peer) + list.countP (· == b.peer) := by
    intro list
    induction list with
    | nil => rfl
    | cons o list ih =>
      simp only [List.countP_cons, ih]
      rcases Nat.lt_trichotomy o b.peer with hlt | heq | hlt
      · simp [hlt, Nat.le_of_lt hlt, Nat.ne_of_lt hlt]
        omega
      · simp [heq]
        omega
      · simp [Nat.not_lt.mpr (Nat.le_of_lt hlt), Nat.not_le.mpr hlt, Nat.ne_of_gt hlt]
  have hcount : (columns.map (owner starts)).countP (· == b.peer) =
      (neededFrom starts b.peer columns).length := by
    rw [List.countP_map, neededFrom, List.countP_eq_length_filter]
    rfl
  have := hsplit (columns.map (owner starts))
  omega

end ForeignColumns

/-! ## Plans -/

namespace HaloPlan

variable {β σ : Type} {starts : Array Nat} {size : Nat} {columns : Nat → List Nat}

/-- The plan of `rank`, where every rank needs its `columns`. -/
def planned (starts : Array Nat) (size : Nat) (columns : Nat → List Nat) (rank : Nat) :
    HaloPlan where
  receives := HaloBlock.ofOwners 0 ((columns rank).map (owner starts))
  sends := ((List.range size).filter fun peer =>
    !(neededFrom starts rank (columns peer)).isEmpty).map fun peer =>
      (peer, (neededFrom starts rank (columns peer)).map (· - starts.getD rank 0))

variable (hstarts : RowStarts starts size)
  (hcolumns : ∀ rank < size, ForeignColumns starts rank (columns rank))
include hstarts hcolumns

theorem mapM_columnOwner {rank : Nat} (hrank : rank < size) :
    (columns rank).mapM (columnOwner ⟨rank, size⟩ starts) =
      .ok ((columns rank).map (owner starts)) := by
  refine mapM_eq_ok_map fun c hc => ?_
  have hlt := (hcolumns rank hrank).lt c hc
  obtain ⟨howner, hpeer, -⟩ := hstarts.ownerOf_owner hlt
  have hne : owner starts c ≠ rank := fun heq =>
    (hcolumns rank hrank).not_owns c hc ((hstarts.owner_eq_iff hrank hlt).mp heq)
  simp [columnOwner, howner, bind, Except.bind, hne, hpeer]

theorem mapM_requestedRow {rank peer : Nat} (hrank : rank < size) (hpeer : peer < size) :
    (neededFrom starts rank (columns peer)).mapM
      (requestedRow ⟨rank, size⟩ starts (starts.getD rank 0) peer) =
      .ok ((neededFrom starts rank (columns peer)).map (· - starts.getD rank 0)) := by
  refine mapM_eq_ok_map fun c hc => ?_
  obtain ⟨hmem, howner⟩ := ForeignColumns.mem_neededFrom.mp hc
  have hlt := (hcolumns peer hpeer).lt c hmem
  have howns := (hstarts.owner_eq_iff hrank hlt).mp howner
  simp only [requestedRow, hstarts.ownerOf_eq_ok hrank howns, bind, Except.bind, ne_eq,
    not_true_eq_false, ↓reduceIte, if_neg (Nat.not_lt.mpr howns.1)]

omit hstarts hcolumns in
/-- The last part of making a plan: what the rank does with the rows that were `requested` by its
peers. -/
def finish (place : Place) (starts : Array Nat) (owners : List Nat) (requested : List (List Nat)) :
    RankProgram β σ HaloPlan := do
  let sends ← ((requested.zipIdx.filter fun (rows, _) => !rows.isEmpty).mapM fun (rows, peer) => do
    pure (peer, ← rows.mapM (requestedRow place starts (starts.getD place.rank 0) peer)) :
      Except Error (List (Nat × List Nat)))
  let receives := HaloBlock.ofOwners 0 owners
  RankProgram.noteEvent (.planned place.rank receives.length sends.length)
  pure { receives, sends }

theorem create_eq [Plain β Nat] {rank : Nat} (hrank : rank < size) :
    (create ⟨rank, size⟩ starts (columns rank) : RankProgram β σ HaloPlan) =
      RankProgram.allToAll ⟨rank, size⟩ Tag.setup
        ((List.range size).map fun peer => neededFrom starts peer (columns rank)) >>=
      finish ⟨rank, size⟩ starts ((columns rank).map (owner starts)) := by
  have hfirst : Word.orFault starts[rank]? = .ok (starts.getD rank 0) := by
    have hlt : rank < starts.size := by
      have := hstarts.size_eq
      omega
    rw [Array.getD_eq_getD_getElem?, Array.getElem?_eq_getElem hlt]
    rfl
  have hneeded : ∀ peer, (((columns rank).zip ((columns rank).map (owner starts))).filter
      fun x => x.2 == peer).map Prod.fst = neededFrom starts peer (columns rank) := by
    intro peer
    induction columns rank with
    | nil => rfl
    | cons c list ih =>
      simp only [neededFrom, List.map_cons, List.zip_cons_cons, List.filter_cons] at ih ⊢
      split <;> simp [ih]
  unfold create
  simp only [hfirst, mapM_columnOwner hstarts hcolumns hrank, RankProgram.liftM_ok_bind, hneeded]
  rfl

/-- The requests of all ranks make the plan of `rank`. -/
theorem silent_finish {rank : Nat} (hrank : rank < size) :
    (finish ⟨rank, size⟩ starts ((columns rank).map (owner starts))
      ((List.range size).map fun peer => if peer = rank then [] else
        neededFrom starts rank (columns peer)) : RankProgram β σ HaloPlan).Silent ⟨rank, size⟩
      (planned starts size columns rank) := by
  have hown := (hcolumns rank hrank).neededFrom_self hstarts hrank
  have hrequested : ((List.range size).map fun peer => if peer = rank then [] else
      neededFrom starts rank (columns peer)).zipIdx =
        (List.range size).map fun peer => (neededFrom starts rank (columns peer), peer) := by
    refine List.ext_getElem (by simp) fun peer _ _ => ?_
    by_cases heq : peer = rank
    · simp [heq, hown]
    · simp [heq]
  have hsends : (((List.range size).map fun peer =>
      (neededFrom starts rank (columns peer), peer)).filter fun (rows, _) => !rows.isEmpty).mapM
      (fun (rows, peer) => do
        pure (peer, ← rows.mapM (requestedRow ⟨rank, size⟩ starts (starts.getD rank 0) peer)) :
          List Nat × Nat → Except Error (Nat × List Nat)) =
      .ok (planned starts size columns rank).sends := by
    rw [List.filter_map, List.mapM_map]
    refine mapM_eq_ok_map fun peer hpeer => ?_
    have hlt := List.mem_range.mp (List.mem_filter.mp hpeer).1
    simp only [Function.comp, mapM_requestedRow hstarts hcolumns hrank hlt]
    rfl
  rw [finish, hrequested]
  refine (RankProgram.Exchanges.ofExcept hsends).bind_of_silent ?_
  exact (RankProgram.Exchanges.note _).bind_of_silent (.pure _)

end HaloPlan

/-- What the ranks ask each other for, here `values`, reads back. -/
theorem decode_encode_of_lt {β : Type} [Plain β Nat] [LawfulIndices β] {values : List Nat}
    (h : ∀ n ∈ values, n < Word.bound) : decode (encode values : List β) = .ok values :=
  decode_encode_of_readsBack (LawfulIndices.width_pos (β := β)) fun n hn =>
    LawfulIndices.readsBack n (h n hn)

/-- All ranks make their plans for `columns`. -/
theorem Collective.haloPlan {β σ : Type} [Plain β Nat] [LawfulIndices β] {starts : Array Nat}
    {size : Nat} {columns : Nat → List Nat} (hstarts : RowStarts starts size)
    (hword : globalSize starts ≤ Word.bound)
    (hcolumns : ∀ rank < size, ForeignColumns starts rank (columns rank)) :
    Collective size
      (fun rank => (HaloPlan.create ⟨rank, size⟩ starts (columns rank) : RankProgram β σ HaloPlan))
      (HaloPlan.planned starts size columns) := by
  have hrequests := Collective.allToAll_map (β := β) (σ := σ) size Tag.setup
    (fun rank peer => neededFrom starts peer (columns rank)) fun rank hrank peer _ =>
      decode_encode_of_lt fun c hc => Nat.lt_of_lt_of_le
        ((hcolumns rank hrank).lt c (ForeignColumns.mem_neededFrom.mp hc).1) hword
  exact Passes.congr (Passes.bind hrequests
    (Passes.of_silent fun rank hrank => HaloPlan.silent_finish hstarts hcolumns hrank))
    fun rank hrank => HaloPlan.create_eq hstarts hcolumns hrank

/-! ## Exchanges -/

section

variable {β σ γ : Type} [Plain β γ] {starts : Array Nat} {size rank : Nat}
  {columns : Nat → List Nat}

/-- The message of `source` to `target` in an exchange: the values of the rows that are needed. -/
def haloTraffic (starts : Array Nat) (columns : Nat → List Nat) (tag : Tag) (value : Nat → γ)
    (source target : Nat) : List (Envelope β) :=
  if (neededFrom starts source (columns target)).isEmpty then []
  else [RankProgram.message tag ((neededFrom starts source (columns target)).map value)]

/-- The receives that `rank` posts for an exchange with `plan`. -/
def HaloPlan.awaited (plan : HaloPlan) (rank : Nat) (tag : Tag) : Exchange where
  pending := plan.receives.map fun b => (b, ⟨rank, b.peer, tag⟩)

variable (value : Nat → γ) (hstarts : RowStarts starts size)
  (hcolumns : ∀ rank < size, ForeignColumns starts rank (columns rank)) (hrank : rank < size)
include hstarts hcolumns hrank

/-- The rank `rank` posts its receives and sends the `values` of its own rows. -/
theorem HaloPlan.exchanges_startExchange {values : Array γ}
    (hvalues : ∀ row, Owns starts rank row → values[row - starts.getD rank 0]? = some (value row))
    (tag : Tag) :
    ((planned starts size columns rank).startExchange tag values :
      RankProgram β σ Exchange).Exchanges ⟨rank, size⟩ (fun _ => [])
      (fun peer => if peer < size then haloTraffic starts columns tag value rank peer else [])
      ((planned starts size columns rank).awaited rank tag) := by
  have hpost : ∀ b ∈ (planned starts size columns rank).receives,
      (do pure (b, ← RankProgram.postReceive b.peer tag) :
        RankProgram β σ (HaloBlock × Handle)).Silent ⟨rank, size⟩ (b, ⟨rank, b.peer, tag⟩) := by
    intro b hb
    have hpeer : b.peer < size := by
      obtain ⟨c, hc, howner⟩ := List.mem_map.mp
        ((((hcolumns rank hrank).covers hstarts).mem_iff _).mp (List.mem_map_of_mem hb))
      exact howner ▸ (hstarts.ownerOf_owner ((hcolumns rank hrank).lt c hc)).2.1
    exact (RankProgram.Exchanges.post hpeer tag).bind_of_silent (.pure _)
  have hsend : ∀ x ∈ (planned starts size columns rank).sends,
      (do let message ← (x.2.mapM (ownValue values) : Except Error (List γ))
          RankProgram.sendMessage x.1 tag (encode message) : RankProgram β σ Unit).Exchanges
        ⟨rank, size⟩ (fun _ => []) (fun peer => if peer = x.1 then
          [RankProgram.message tag ((neededFrom starts rank (columns x.1)).map value)]
          else []) () := by
    intro x hx
    obtain ⟨peer, hpeer, rfl⟩ := List.mem_map.mp hx
    have hlt := List.mem_range.mp (List.mem_filter.mp hpeer).1
    have hmessage : ((neededFrom starts rank (columns peer)).map (· - starts.getD rank 0)).mapM
        (ownValue values) = .ok ((neededFrom starts rank (columns peer)).map value) := by
      rw [List.mapM_map]
      refine mapM_eq_ok_map fun c hc => ?_
      obtain ⟨hmem, howner⟩ := ForeignColumns.mem_neededFrom.mp hc
      have howns := (hstarts.owner_eq_iff hrank ((hcolumns peer hlt).lt c hmem)).mp howner
      simp only [Function.comp, ownValue, hvalues c howns]
    exact (RankProgram.Exchanges.ofExcept hmessage).bind_of_silent (.send hlt tag _)
  have hnodup : ((planned starts size columns rank).sends.map Prod.fst).Nodup := by
    simp only [planned, List.map_map, Function.comp_def, List.map_id']
    exact List.nodup_range.filter _
  have hrest : ((planned starts size columns rank).sends.forM (fun x => do
        let message ← (x.2.mapM (ownValue values) : Except Error (List γ))
        RankProgram.sendMessage x.1 tag (encode message)) >>= fun _ =>
      pure ((planned starts size columns rank).awaited rank tag) :
      RankProgram β σ Exchange).Exchanges ⟨rank, size⟩ _ _ _ :=
    (RankProgram.Exchanges.forM hsend).silent_bind (.pure _)
  refine ((RankProgram.Exchanges.mapM hpost).bind hrest).congr (fun _ => by simp) fun peer => ?_
  rw [flatMap_ite_of_nodup hnodup peer fun peer =>
    [RankProgram.message tag ((neededFrom starts rank (columns peer)).map value)]]
  simp only [planned, List.map_map, Function.comp_def, List.map_id', List.mem_filter,
    List.mem_range, haloTraffic]
  by_cases hpeer : peer < size <;>
    by_cases hempty : (neededFrom starts rank (columns peer)).isEmpty <;> simp [hpeer, hempty]

/-- The rank `rank` takes the values of its `columns`. -/
theorem Exchange.exchanges_wait [LawfulPlain β γ] (tag : Tag) :
    (((HaloPlan.planned starts size columns rank).awaited rank tag).wait :
      RankProgram β σ (List γ)).Exchanges ⟨rank, size⟩
      (fun peer => if peer < size then haloTraffic starts columns tag value peer rank else [])
      (fun _ => []) ((columns rank).map value) := by
  have hcovers := (hcolumns rank hrank).covers hstarts
  have hblock : ∀ b ∈ (HaloPlan.planned starts size columns rank).receives,
      (Exchange.waitBlock b ⟨rank, b.peer, tag⟩ : RankProgram β σ (List γ)).Exchanges ⟨rank, size⟩
        (fun a => if a = b.peer then
          [RankProgram.message tag ((neededFrom starts b.peer (columns rank)).map value)] else [])
        (fun _ => []) ((neededFrom starts b.peer (columns rank)).map value) := by
    intro b hb
    have hlength := (hcolumns rank hrank).length_neededFrom hstarts hb
    unfold Exchange.waitBlock
    refine (RankProgram.Exchanges.wait b.peer tag _).silent_bind
      ((RankProgram.Exchanges.ofExcept (decode_encode _)).bind_of_silent ?_)
    simpa [hlength] using RankProgram.Exchanges.pure _
  have hnodup : ((HaloPlan.planned starts size columns rank).receives.map HaloBlock.peer).Nodup :=
    hcovers.increasing.imp Nat.ne_of_lt
  have hmem : ∀ peer, peer ∈ (HaloPlan.planned starts size columns rank).receives.map
      HaloBlock.peer ↔ peer < size ∧ (neededFrom starts peer (columns rank)).isEmpty = false := by
    intro peer
    refine (hcovers.mem_iff peer).trans ?_
    rw [List.isEmpty_eq_false_iff_exists_mem, List.mem_map]
    constructor
    · rintro ⟨c, hc, rfl⟩
      exact ⟨(hstarts.ownerOf_owner ((hcolumns rank hrank).lt c hc)).2.1, c,
        ForeignColumns.mem_neededFrom.mpr ⟨hc, rfl⟩⟩
    · rintro ⟨-, c, hc⟩
      exact ⟨c, ForeignColumns.mem_neededFrom.mp hc⟩
  have hflatten : ((HaloPlan.planned starts size columns rank).receives.map fun b =>
      (neededFrom starts b.peer (columns rank)).map value).flatten = (columns rank).map value := by
    rw [← List.flatMap_def, ← List.map_flatMap]
    exact congrArg _ ((hcolumns rank hrank).flatMap_neededFrom hstarts)
  unfold Exchange.wait HaloPlan.awaited
  rw [List.mapM_map, ← hflatten]
  refine ((RankProgram.Exchanges.mapM hblock).silent_bind
    (k := fun parts => pure parts.flatten) (.pure _)).congr (fun peer => ?_) fun peer => ?_
  · rw [flatMap_ite_of_nodup hnodup peer fun peer =>
      [RankProgram.message tag ((neededFrom starts peer (columns rank)).map value)]]
    simp only [hmem, haloTraffic]
    by_cases hpeer : peer < size <;>
      cases hempty : (neededFrom starts peer (columns rank)).isEmpty <;> simp [hpeer]
  · simp

end

end FemAssembly
