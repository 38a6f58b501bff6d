import FemAssembly.Proofs.Message.Collective

/-!
# Rounds of exchanges

Ranks that exchange messages again and again do not wait for each other between two rounds. A fast
rank can be several rounds ahead, so that messages of different rounds wait in one queue, perhaps
with the same tag. Every rank still gets in a round what the others sent in that round.

* `RankProgram.rounds`: a number of operations, each of which may depend on the results before it.
  `Collective.rounds`: if every round is a collective, then so are all of them together.
* `Ensemble.OnTrack`: nobody has failed, somebody can go on, and who has finished has its result.
  `Completes.onTrack`: this holds in every state that an interleaving can lead to.
* `Collective.allToAll_rounds`: exchanges of one list for every pair of ranks, with an element type
  for every round.
-/

namespace FemAssembly

variable {β σ α ρ : Type}

/-! ## One round after the other -/

/-- A number of rounds. Each `round` knows the results of the rounds before it. -/
def RankProgram.rounds (round : Nat → List ρ → RankProgram β σ ρ) :
    Nat → RankProgram β σ (List ρ)
  | 0 => pure []
  | n + 1 => do
    let history ← rounds round n
    let result ← round n history
    pure (history ++ [result])

/-- If every `round` is a collective whatever came before it, then so are `n` rounds together. The
result of a round is the `next` one, which follows from the results of the rounds before it. -/
theorem Collective.rounds {size : Nat} {round : Nat → Nat → List ρ → RankProgram β σ ρ}
    {next : Nat → (Nat → List ρ) → Nat → ρ}
    (h : ∀ m history, Collective size (fun rank => round rank m (history rank)) (next m history))
    (n : Nat) :
    ∃ results : Nat → List ρ,
      Collective size (fun rank => RankProgram.rounds (round rank) n) results ∧
      (∀ rank, (results rank).length = n) ∧
      ∀ m < n, ∀ rank,
        (results rank)[m]? = some (next m (fun peer => (results peer).take m) rank) := by
  induction n with
  | zero => exact ⟨fun _ => [], Passes.of_silent fun _ _ => .pure [], by simp, by simp⟩
  | succ n ih =>
    obtain ⟨results, hrounds, hlength, hresult⟩ := ih
    -- the last round knows all results before it; what the others knew stays a part of that
    refine ⟨fun rank => results rank ++ [next n results rank], ?_, by simp [hlength], ?_⟩
    · exact hrounds.bind ((h n results).map fun rank result => results rank ++ [result])
    · intro m hm rank
      have htake : ∀ peer, (results peer ++ [next n results peer]).take m = (results peer).take m :=
        fun peer => List.take_append_of_le_length (by rw [hlength]; omega)
      simp only [htake]
      rcases Nat.lt_succ_iff_lt_or_eq.mp hm with hlt | rfl
      · rw [List.getElem?_append_left (by rwa [hlength]), hresult m hlt]
      · rw [← hlength rank, List.getElem?_concat_length, hlength]
        simp [List.take_of_length_le (Nat.le_of_eq (hlength _))]

/-! ## States on the way -/

/-- All goes well at `e`: no rank has failed, a rank that has finished has its result in `results`,
and unless all ranks have finished, some rank can step. When all have finished, no message is left.
-/
structure Ensemble.OnTrack (e : Ensemble β σ α) (size : Nat) (results : Nat → α) : Prop where
  not_failed : ∀ m ∈ e.members, ∀ error, m.program ≠ .fail error
  result_eq : ∀ (rank : Nat) (m : Member β σ α) (a : α), e.members[rank]? = some m →
    m.program = .done a → a = results rank
  progress : ¬ e.Finished → ∃ rank e', e.step? rank = some e'
  ended : e.Finished → e.Ended size results

theorem Completes.onTrack {size : Nat} {p : Nat → RankProgram β σ α} {results : Nat → α}
    (h : Completes size p results) {memory : Nat → σ} {e : Ensemble β σ α}
    (he : Ensemble.Reaches (Ensemble.start (World.new size)
      ((List.range size).map fun rank => (p rank, memory rank))) e) :
    e.OnTrack size results := by
  obtain ⟨⟨f, hreaches, hended⟩, hstuck⟩ := h memory e he
  have hfinished : f.Finished := Ensemble.finished_of_programs hended.programs_eq
  -- what has happened to a rank for good is still there at the end `f`
  refine ⟨fun m hm => ?_, fun rank m a hm hdone => ?_, fun hnot => ?_, fun hdone => ?_⟩
  · obtain ⟨rank, hrank⟩ := List.getElem?_of_mem hm
    exact hreaches.ne_fail hfinished hrank
  · have hlast := hreaches.getElem?_of_ended hm fun w => by simp [Member.step?, hdone]
    have hprogram := (Ensemble.program_eq hended.programs_eq hlast).2
    rw [hdone] at hprogram
    exact RankProgram.done.inj hprogram
  · refine Classical.byContradiction fun hnone => ?_
    have hsteps : ∀ rank, e.step? rank = none := fun rank =>
      Option.eq_none_iff_forall_not_mem.mpr fun e' hstep => hnone ⟨rank, e', hstep⟩
    exact hnot (Ensemble.finished_of_programs (hstuck hsteps).programs_eq)
  · exact hstuck fun rank => hdone.step?_eq_none rank

/-! ## One list for every pair of ranks, again and again -/

/-- What one round `m` brought: the lists of all ranks, with the element type `Value m` of the
round. -/
abbrev Incoming (Value : Nat → Type) : Type := Σ m, List (List (Value m))

/-- The round `m` of exchanges. What a rank has `outgoing` for the others may depend on the
`history` before it. -/
def RankProgram.swapRound {Value : Nat → Type} [∀ m, Plain β (Value m)] (place : Place)
    (tag : Nat → Tag) (outgoing : (m : Nat) → List (Incoming Value) → List (List (Value m)))
    (m : Nat) (history : List (Incoming Value)) : RankProgram β σ (Incoming Value) := do
  let incoming ← RankProgram.allToAll place (tag m) (outgoing m history)
  pure ⟨m, incoming⟩

/-- Ranks that exchange lists for `n` rounds never get stuck and never fail, however their steps are
interleaved. In every round `m` each rank gets what the others have `outgoing` for it in that round,
and when all have finished no message is left. The `tag` of a round may repeat, and its element type
`Value m` changes. -/
theorem Collective.allToAll_rounds {Value : Nat → Type} [∀ m, Plain β (Value m)] (size n : Nat)
    (tag : Nat → Tag)
    (outgoing : Nat → (m : Nat) → List (Incoming Value) → List (List (Value m)))
    (hlength : ∀ rank < size, ∀ m history, ∀ peer < size, peer ≠ rank →
      peer < (outgoing rank m history).length)
    (hwidth : ∀ m, 0 < Plain.width β (Value m))
    (hread : ∀ rank < size, ∀ m history, ∀ values ∈ outgoing rank m history, ∀ value ∈ values,
      ReadsBack β value) :
    ∃ results : Nat → List (Incoming Value),
      (∀ rank, (results rank).length = n) ∧
      (∀ m < n, ∀ rank, (results rank)[m]? = some ⟨m, (List.range size).map fun peer =>
        if peer = rank then [] else (outgoing peer m ((results peer).take m)).getD rank []⟩) ∧
      ∀ (memory : Nat → σ) (e : Ensemble β σ (List (Incoming Value))),
        Ensemble.Reaches (Ensemble.start (World.new size) ((List.range size).map fun rank =>
          (RankProgram.rounds (RankProgram.swapRound ⟨rank, size⟩ tag (outgoing rank)) n,
            memory rank))) e →
        e.OnTrack size results := by
  have hround : ∀ (m : Nat) (history : Nat → List (Incoming Value)),
      Collective (β := β) (σ := σ) size
        (fun rank => RankProgram.swapRound ⟨rank, size⟩ tag (outgoing rank) m (history rank))
        fun rank => ⟨m, (List.range size).map fun peer =>
          if peer = rank then [] else (outgoing peer m (history peer)).getD rank []⟩ := by
    intro m history
    have hexchange := Collective.allToAll (β := β) (σ := σ) size (tag m)
      (fun rank => outgoing rank m (history rank))
      (fun rank hrank => hlength rank hrank m (history rank))
      fun rank hrank values hvalues => decode_encode_of_readsBack (hwidth m)
        (hread rank hrank m (history rank) values hvalues)
    exact hexchange.map fun _ incoming => (⟨m, incoming⟩ : Incoming Value)
  obtain ⟨results, hrounds, hcount, hresult⟩ := Collective.rounds hround n
  exact ⟨results, hcount, hresult, fun memory e he => hrounds.completes.onTrack he⟩

/-- Indices in the first round and floating-point numbers in all others. -/
def IndicesFirst : Nat → Type
  | 0 => Nat
  | _ + 1 => Binary64

instance : ∀ m, Plain UInt8 (IndicesFirst m)
  | 0 => inferInstanceAs (Plain UInt8 Nat)
  | _ + 1 => inferInstanceAs (Plain UInt8 Binary64)

/-- What two ranks have for each other in round `m`: first an index and then a NaN for the second
rank, and nothing for the first one. -/
def indexAndValue (rank m : Nat) : List (List (IndicesFirst m)) :=
  match rank, m with
  | 0, 0 => [[], [(7 : Nat)]]
  | 0, _ + 1 => [[], [(⟨0x7FF8000000000001⟩ : Binary64)]]
  | _ + 1, _ => [[], []]

theorem Collective.allToAll_rounds_indexAndValue :
    (∀ rank < 2, ∀ m, ∀ peer < 2, peer ≠ rank → peer < (indexAndValue rank m).length) ∧
    (∀ m, 0 < Plain.width UInt8 (IndicesFirst m)) ∧
    (∀ rank < 2, ∀ m, ∀ values ∈ indexAndValue rank m, ∀ value ∈ values,
      ReadsBack UInt8 value) ∧
    ∃ results : Nat → List (Incoming IndicesFirst),
      results 1 = [⟨0, [[(7 : Nat)], []]⟩, ⟨1, [[(⟨0x7FF8000000000001⟩ : Binary64)], []]⟩] ∧
      ∀ (memory : Nat → Unit) (e : Ensemble UInt8 Unit (List (Incoming IndicesFirst))),
        Ensemble.Reaches (Ensemble.start (World.new 2) ((List.range 2).map fun rank =>
          (RankProgram.rounds (RankProgram.swapRound ⟨rank, 2⟩ (fun _ => Tag.galerkin)
            fun m _ => indexAndValue rank m) 2, memory rank))) e →
        e.OnTrack 2 results := by
  have hlength : ∀ rank < 2, ∀ m, ∀ peer < 2, peer ≠ rank →
      peer < (indexAndValue rank m).length := by
    intro rank _ m peer hpeer _
    rcases rank with _ | rank <;> rcases m with _ | m <;> exact hpeer
  have hwidth : ∀ m, 0 < Plain.width UInt8 (IndicesFirst m) := by
    rintro (_ | m) <;> exact Nat.zero_lt_succ 7
  have hread : ∀ rank < 2, ∀ m, ∀ values ∈ indexAndValue rank m, ∀ value ∈ values,
      ReadsBack UInt8 value := by
    intro rank _ m values hvalues value hvalue
    rcases m with _ | m
    · have hindex : ∀ values ∈ indexAndValue rank 0, ∀ value ∈ values, value = (7 : Nat) := by
        rcases rank with _ | rank
        · simp only [indexAndValue, List.forall_mem_cons]
          exact ⟨nofun, fun _ => List.mem_singleton.mp, nofun⟩
        · simp [indexAndValue]
      obtain rfl := hindex values hvalues value hvalue
      exact LawfulIndices.readsBack (β := UInt8) 7 (by decide)
    · exact LawfulPlain.readsBack (β := UInt8) (α := Binary64) value
  obtain ⟨results, hcount, hresult, hruns⟩ := Collective.allToAll_rounds (β := UInt8) (σ := Unit)
    2 2 (fun _ => Tag.galerkin) (fun rank m _ => indexAndValue rank m)
    (fun rank hrank m _ => hlength rank hrank m) hwidth fun rank hrank m _ => hread rank hrank m
  refine ⟨hlength, hwidth, hread, results, ?_, hruns⟩
  refine List.ext_getElem? fun m => ?_
  rcases m with _ | _ | m
  · exact hresult 0 (by decide) 1
  · exact hresult 1 (by decide) 1
  · simp [hcount]

end FemAssembly
