import FemAssembly.Proofs.Distributed.Halo
import FemAssembly.Proofs.Message.Rounds

/-!
# Exchanges, again and again

The plans that all ranks make together describe the same messages on both sides, and in every round
of exchanges each rank gets for its off-diagonal columns what their owners supply in that round. The
ranks may be several rounds apart.

* `HaloBlock.Tiles`, `HaloBlock.tiles_ofOwners`: the blocks of a plan follow each other and take up
  all positions. `HaloBlock.Tiles.slice_eq`: the part of a list that a block stands for.
* `HaloPlan.Matched`, `HaloPlan.matched_planned`: what one rank receives is what another one sends.
* `Collective.haloExchange`: one exchange.
* `HaloPlan.exchange_rounds`: any number of them, after the plans are made.
-/

namespace FemAssembly

variable {β σ γ : Type}

/-! ## Blocks in a row -/

namespace HaloBlock

/-- The blocks follow each other from a position to the last one before `stop`, and none of them is
empty. -/
def Tiles (stop : Nat) : Nat → List HaloBlock → Prop
  | start, [] => start = stop
  | start, block :: rest => block.start = start ∧ start < block.stop ∧ Tiles stop block.stop rest

theorem Tiles.extend {start stop : Nat} {blocks : List HaloBlock}
    (h : Tiles stop (start + 1) blocks) (owner : Nat) :
    Tiles stop start (extend owner start blocks) := by
  cases blocks with
  | nil => exact ⟨rfl, Nat.lt_succ_self start, h⟩
  | cons block rest =>
    obtain ⟨hstart, hlt, hrest⟩ := h
    rw [HaloBlock.extend]
    split
    · exact ⟨rfl, Nat.lt_of_succ_lt hlt, hrest⟩
    · exact ⟨rfl, Nat.lt_succ_self start, hstart, hlt, hrest⟩

theorem tiles_ofOwners (owners : List Nat) (start : Nat) :
    Tiles (start + owners.length) start (ofOwners start owners) := by
  induction owners generalizing start with
  | nil => exact rfl
  | cons owner owners ih =>
    have hstop : start + (owner :: owners).length = start + 1 + owners.length := by
      rw [List.length_cons]
      omega
    rw [hstop]
    exact (ih (start + 1)).extend owner

/-- The part of `list` that stands at the positions of `block`. -/
def slice (block : HaloBlock) (list : List γ) : List γ :=
  (list.drop block.start).take (block.stop - block.start)

/-- Where `list` is put together from `part b` block by block, a block stands for its part. -/
theorem Tiles.slice_eq {start stop : Nat} {blocks : List HaloBlock} (h : Tiles stop start blocks)
    {list : List γ} {part : HaloBlock → List γ} (hlist : list.drop start = blocks.flatMap part)
    (hlength : ∀ b ∈ blocks, (part b).length = b.stop - b.start) :
    ∀ b ∈ blocks, b.slice list = part b := by
  induction blocks generalizing start with
  | nil => exact nofun
  | cons block rest ih =>
    obtain ⟨rfl, hlt, hrest⟩ := h
    obtain ⟨hblock, htail⟩ := List.forall_mem_cons.mp hlength
    have hnext : list.drop block.stop = rest.flatMap part := by
      have hstop : block.stop = block.start + (block.stop - block.start) := by omega
      rw [hstop, ← List.drop_drop, hlist, List.flatMap_cons, ← hblock, List.drop_left]
    refine List.forall_mem_cons.mpr ⟨?_, ih hrest hnext htail⟩
    rw [slice, hlist, List.flatMap_cons, ← hblock, List.take_left]

end HaloBlock

/-! ## Both sides of a plan -/

namespace HaloPlan

/-- The plans of all ranks describe the same messages, for the `columns` that every rank needs. -/
structure Matched (starts : Array Nat) (size : Nat) (columns : Nat → List Nat)
    (plan : Nat → HaloPlan) : Prop where
  tiles : ∀ rank < size, HaloBlock.Tiles (columns rank).length 0 (plan rank).receives
  receives_increasing : ∀ rank < size, ((plan rank).receives.map HaloBlock.peer).Pairwise (· < ·)
  /-- the columns of `block` are rows of its peer -/
  owned : ∀ rank < size, ∀ block ∈ (plan rank).receives, block.peer < size ∧
    ∀ c ∈ block.slice (columns rank), Owns starts block.peer c
  sends_increasing : ∀ rank < size, ((plan rank).sends.map Prod.fst).Pairwise (· < ·)
  /-- the rank `source` sends to those that receive from it, and what it sends are the rows of their
  blocks -/
  mem_sends : ∀ source < size, ∀ target rows, (target, rows) ∈ (plan source).sends ↔
    target < size ∧ ∃ block ∈ (plan target).receives, block.peer = source ∧
      rows = (block.slice (columns target)).map (· - starts.getD source 0)

variable {starts : Array Nat} {size : Nat} {columns : Nat → List Nat}

theorem matched_planned (hstarts : RowStarts starts size)
    (hcolumns : ∀ rank < size, ForeignColumns starts rank (columns rank)) :
    Matched starts size columns (planned starts size columns) := by
  have htiles : ∀ rank, HaloBlock.Tiles (columns rank).length 0
      (planned starts size columns rank).receives := by
    intro rank
    simpa [planned] using HaloBlock.tiles_ofOwners ((columns rank).map (owner starts)) 0
  have hslice : ∀ rank < size, ∀ block ∈ (planned starts size columns rank).receives,
      block.slice (columns rank) = neededFrom starts block.peer (columns rank) := by
    intro rank hrank
    have hforeign := hcolumns rank hrank
    exact (htiles rank).slice_eq (hforeign.flatMap_neededFrom hstarts).symm fun block hblock =>
      hforeign.length_neededFrom hstarts hblock
  have hpeers : ∀ rank < size, ∀ p, (∃ block ∈ (planned starts size columns rank).receives,
      block.peer = p) ↔ ∃ c ∈ columns rank, owner starts c = p := by
    intro rank hrank p
    simpa [planned] using ((hcolumns rank hrank).covers hstarts).mem_iff p
  refine ⟨fun rank _ => htiles rank,
    fun rank hrank => ((hcolumns rank hrank).covers hstarts).increasing,
    fun rank hrank block hblock => ?_, fun rank _ => ?_, fun source _ target rows => ?_⟩
  · obtain ⟨c, hc, howner⟩ := (hpeers rank hrank block.peer).mp ⟨block, hblock, rfl⟩
    refine ⟨howner ▸ (hstarts.ownerOf_owner ((hcolumns rank hrank).lt c hc)).2.1, fun d hd => ?_⟩
    rw [hslice rank hrank block hblock] at hd
    obtain ⟨hmem, howner'⟩ := ForeignColumns.mem_neededFrom.mp hd
    exact howner' ▸ (hstarts.ownerOf_owner ((hcolumns rank hrank).lt d hmem)).2.2
  · simp only [planned, List.map_map, Function.comp_def, List.map_id']
    exact List.pairwise_lt_range.filter _
  · simp only [planned, List.mem_map, List.mem_filter, List.mem_range, Prod.mk.injEq,
      Bool.not_eq_true', List.isEmpty_eq_false_iff_exists_mem, ForeignColumns.mem_neededFrom]
    constructor
    · rintro ⟨_, ⟨htarget, hneeded⟩, rfl, rfl⟩
      obtain ⟨block, hblock, hpeer⟩ := (hpeers _ htarget source).mpr hneeded
      exact ⟨htarget, block, hblock, hpeer, by rw [hslice _ htarget block hblock, hpeer]⟩
    · rintro ⟨htarget, block, hblock, hpeer, rfl⟩
      have hneeded := (hpeers target htarget source).mp ⟨block, hblock, hpeer⟩
      exact ⟨target, ⟨htarget, hneeded⟩, rfl, by rw [hslice target htarget block hblock, hpeer]⟩

end HaloPlan

/-! ## Exchanges -/

/-- In an exchange every rank gets, for each of its `columns`, the `value` that belongs to it. -/
theorem Collective.haloExchange [Plain β γ] [LawfulPlain β γ] {starts : Array Nat} {size : Nat}
    {columns : Nat → List Nat} (hstarts : RowStarts starts size)
    (hcolumns : ∀ rank < size, ForeignColumns starts rank (columns rank)) (tag : Tag)
    (value : Nat → γ) {values : Nat → Array γ}
    (hvalues : ∀ rank < size, ∀ row, Owns starts rank row →
      (values rank)[row - starts.getD rank 0]? = some (value row)) :
    Collective size
      (fun rank => (HaloPlan.planned starts size columns rank).startExchange tag (values rank) >>=
        fun exchange => (exchange.wait : RankProgram β σ (List γ)))
      fun rank => (columns rank).map value := by
  refine Collective.round
    (fun rank => (HaloPlan.planned starts size columns rank).awaited rank tag)
    (fun rank peer => if peer < size then haloTraffic starts columns tag value rank peer else [])
    (fun rank hrank => HaloPlan.exchanges_startExchange value hstarts hcolumns hrank
      (hvalues rank hrank) tag)
    (fun rank _ peer hpeer => if_neg (Nat.not_lt.mpr hpeer)) fun rank hrank => ?_
  simp only [if_pos hrank]
  exact Exchange.exchanges_wait value hstarts hcolumns hrank tag

/-- The values that arrived in one round `m`, with the element type `Value m` of the round. -/
abbrev Received (Value : Nat → Type) : Type := Σ m, List (Value m)

namespace HaloPlan

variable {Value : Nat → Type} [∀ m, Plain β (Value m)]

/-- The exchange `m` of several. What a rank supplies in `values` may depend on the `history` before
it. -/
def exchangeRound (plan : HaloPlan) (tag : Nat → Tag)
    (values : (m : Nat) → List (Received Value) → Array (Value m)) (m : Nat)
    (history : List (Received Value)) : RankProgram β σ (Received Value) := do
  let exchange ← plan.startExchange (tag m) (values m history)
  let received ← exchange.wait
  pure ⟨m, received⟩

/-- Make a plan for `columns`, and exchange values for a number of `rounds` after it. -/
def createAndExchange [Plain β Nat] (place : Place) (starts : Array Nat) (columns : List Nat)
    (tag : Nat → Tag) (values : (m : Nat) → List (Received Value) → Array (Value m))
    (rounds : Nat) : RankProgram β σ (HaloPlan × List (Received Value)) := do
  let plan ← create place starts columns
  let received ← RankProgram.rounds (plan.exchangeRound tag values) rounds
  pure (plan, received)

/-- The value that the owner of `row` supplies in `values`. -/
def supplied (starts : Array Nat) (values : Nat → Array γ) (fallback : γ) (row : Nat) : γ :=
  (values (owner starts row))[row - starts.getD (owner starts row) 0]?.getD fallback

theorem getElem?_eq_supplied {starts : Array Nat} {size rank row : Nat}
    {values : Nat → Array γ} (hstarts : RowStarts starts size)
    (hvalues : ∀ rank < size,
      (values rank).size = starts.getD (rank + 1) 0 - starts.getD rank 0)
    (fallback : γ) (hrank : rank < size) (howns : Owns starts rank row) :
    (values rank)[row - starts.getD rank 0]? = some (supplied starts values fallback row) := by
  have hlt : row - starts.getD rank 0 < (values rank).size := by
    have := howns.1
    have := howns.2
    rw [hvalues rank hrank]
    omega
  have howner : owner starts row = rank :=
    (hstarts.owner_eq_iff hrank (hstarts.lt_globalSize hrank howns)).mpr howns
  rw [supplied, howner, Array.getElem?_eq_getElem hlt, Option.getD_some]

/-- All ranks make their plans for `columns`, and the plans are `Matched`. In each round `m` of the
`n` exchanges after that, each rank gets for every column `c` the value that the owner `p` of `c`
supplies in `values` for this round, whatever the interleaving of the ranks. -/
theorem exchange_rounds [Plain β Nat] [LawfulIndices β] [∀ m, LawfulPlain β (Value m)]
    {starts : Array Nat} {size : Nat} {columns : Nat → List Nat} (n : Nat) (tag : Nat → Tag)
    (values : Nat → (m : Nat) → List (Received Value) → Array (Value m))
    (hstarts : checkRowStarts starts size = .ok ()) (hword : globalSize starts ≤ Word.bound)
    (hcolumns : ∀ rank < size, ForeignColumns starts rank (columns rank))
    (hvalues : ∀ rank < size, ∀ m history,
      (values rank m history).size = starts.getD (rank + 1) 0 - starts.getD rank 0) :
    ∃ (plan : Nat → HaloPlan) (results : Nat → List (Received Value)),
      Matched starts size columns plan ∧
      (∀ rank, (results rank).length = n) ∧
      (∀ m < n, ∀ rank, ∃ received : List (Value m), (results rank)[m]? = some ⟨m, received⟩ ∧
        received.length = (columns rank).length ∧
        ∀ j c : Nat, (columns rank)[j]? = some c → ∀ p < size, Owns starts p c →
          received[j]? = (values p m ((results p).take m))[c - starts.getD p 0]?) ∧
      ∀ (memory : Nat → σ) (e : Ensemble β σ (HaloPlan × List (Received Value))),
        Ensemble.Reaches (Ensemble.start (World.new size) ((List.range size).map fun rank =>
          (createAndExchange ⟨rank, size⟩ starts (columns rank) tag (values rank) n,
            memory rank))) e →
        e.OnTrack size fun rank => (plan rank, results rank) := by
  have hpartition := checkRowStarts_eq_ok_iff.mp hstarts
  -- what the owner of a row supplies in a round, after the results of the rounds before
  let value (m : Nat) (history : Nat → List (Received Value)) : Nat → Value m :=
    supplied starts (fun rank => values rank m (history rank)) (Plain.read (β := β) [])
  have hvalue : ∀ m history, ∀ rank < size, ∀ row, Owns starts rank row →
      (values rank m (history rank))[row - starts.getD rank 0]? = some (value m history row) :=
    fun m history rank hrank row howns => getElem?_eq_supplied hpartition
      (fun rank hrank => hvalues rank hrank m (history rank)) _ hrank howns
  have hround : ∀ m history, Collective (β := β) (σ := σ) size
      (fun rank => (planned starts size columns rank).exchangeRound tag (values rank) m
        (history rank))
      fun rank => ⟨m, (columns rank).map (value m history)⟩ := by
    intro m history
    have hexchange := Collective.haloExchange (β := β) (σ := σ) hpartition hcolumns (tag m)
      (value m history) (hvalue m history)
    have hreturned := hexchange.map fun _ received => (⟨m, received⟩ : Received Value)
    simpa [exchangeRound] using hreturned
  obtain ⟨results, hrounds, hcount, hresult⟩ := Collective.rounds hround n
  have hall : Collective size (fun rank => (createAndExchange ⟨rank, size⟩ starts (columns rank) tag
      (values rank) n : RankProgram β σ (HaloPlan × List (Received Value))))
      fun rank => (planned starts size columns rank, results rank) :=
    (Collective.haloPlan hpartition hword hcolumns).bind
      (hrounds.map fun rank received => (planned starts size columns rank, received))
  refine ⟨planned starts size columns, results, matched_planned hpartition hcolumns, hcount,
    fun m hm rank => ⟨_, hresult m hm rank, by simp, fun j c hj p hp howns => ?_⟩,
    fun memory e he => hall.completes.onTrack he⟩
  rw [List.getElem?_map, hj, Option.map_some]
  exact (hvalue m _ p hp c howns).symm

/-- Off-diagonal columns of three ranks, of which the second one owns no row. -/
def columnsAroundEmpty (rank : Nat) : List Nat :=
  match rank with
  | 0 => [1]
  | 1 => [0, 1]
  | _ => [0]

/-- The number made of `rank` and the round `m`, if the rank has a row. -/
def rankAndRound (rank m : Nat) : Array UInt64 :=
  if rank = 1 then #[] else #[.ofNat (10 * rank + m)]

theorem exchange_rounds_aroundEmpty :
    checkRowStarts #[0, 1, 1, 2] 3 = .ok () ∧ globalSize #[0, 1, 1, 2] ≤ Word.bound ∧
    (∀ rank < 3, ForeignColumns #[0, 1, 1, 2] rank (columnsAroundEmpty rank)) ∧
    (∀ rank < 3, ∀ m, (rankAndRound rank m).size =
      #[0, 1, 1, 2].getD (rank + 1) 0 - #[0, 1, 1, 2].getD rank 0) ∧
    ∃ (plan : Nat → HaloPlan) (results : Nat → List (Received fun _ => UInt64)),
      Matched #[0, 1, 1, 2] 3 columnsAroundEmpty plan ∧
      (results 1)[1]? = some ⟨1, [1, 21]⟩ ∧
      ∀ (memory : Nat → Unit)
        (e : Ensemble UInt8 Unit (HaloPlan × List (Received fun _ => UInt64))),
        Ensemble.Reaches (Ensemble.start (World.new 3) ((List.range 3).map fun rank =>
          (createAndExchange ⟨rank, 3⟩ #[0, 1, 1, 2] (columnsAroundEmpty rank)
            (fun _ => Tag.product) (fun m _ => rankAndRound rank m) 2, memory rank))) e →
        e.OnTrack 3 fun rank => (plan rank, results rank) := by
  have hstarts : checkRowStarts #[0, 1, 1, 2] 3 = .ok () := by decide
  have hword : globalSize #[0, 1, 1, 2] ≤ Word.bound := by decide
  have hcolumns : ∀ rank < 3, ForeignColumns #[0, 1, 1, 2] rank (columnsAroundEmpty rank) := by
    intro rank hrank
    have hchecked : ∀ rank < 3, (columnsAroundEmpty rank).Pairwise (· < ·) ∧
        (∀ c ∈ columnsAroundEmpty rank, c < globalSize #[0, 1, 1, 2]) ∧
        ∀ c ∈ columnsAroundEmpty rank, ¬ Owns #[0, 1, 1, 2] rank c := by decide
    obtain ⟨hincreasing, hlt, howns⟩ := hchecked rank hrank
    exact ⟨hincreasing, hlt, howns⟩
  have hvalues : ∀ rank < 3, ∀ m, (rankAndRound rank m).size =
      #[0, 1, 1, 2].getD (rank + 1) 0 - #[0, 1, 1, 2].getD rank 0 := by
    intro rank hrank m
    interval_cases rank <;> rfl
  obtain ⟨plan, results, hmatched, -, hresult, hruns⟩ :=
    exchange_rounds (β := UInt8) (σ := Unit) 2 (fun _ => Tag.product)
      (fun rank m (_ : List (Received fun _ => UInt64)) => rankAndRound rank m) hstarts hword
      hcolumns fun rank hrank m _ => hvalues rank hrank m
  refine ⟨hstarts, hword, hcolumns, hvalues, plan, results, hmatched, ?_, hruns⟩
  obtain ⟨received, hreceived, hlength, hvalue⟩ := hresult 1 (by decide) 1
  have hfirst : received[0]? = some 1 := hvalue 0 0 rfl 0 (by decide) (by decide)
  have hsecond : received[1]? = some 21 := hvalue 1 1 rfl 2 (by decide) (by decide)
  have hboth : received = [1, 21] := by
    refine List.ext_getElem? fun j => ?_
    match j with
    | 0 => exact hfirst
    | 1 => exact hsecond
    | j + 2 => simp [hlength, columnsAroundEmpty]
  rw [hreceived, hboth]

end HaloPlan

end FemAssembly
