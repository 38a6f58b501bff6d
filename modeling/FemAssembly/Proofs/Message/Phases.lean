import FemAssembly.Proofs.Message.Rounds

/-!
# Phases of a program

What a rank does next depends on the answers that it has got. Without any knowledge of them, its
program still says what may be left of it at some time, and with what result it may end.

* `RankProgram.MayLeave`, `RankProgram.MayReturn`: what may be left of a program, and its results.
  `RankProgram.MayLeave.bind_cases`, `RankProgram.MayReturn.exists_of_bind`: those of a sequence.
* `Ensemble.Reaches.mayLeave`, `MayFinish.mayReturn`: an interleaving keeps to the programs.
* `Ensemble.Reaches.of_map`: what ranks make of their results in the end does not change what they
  do before.
* `Ensemble.GoesOnWith`: no rank has gone on with another result of the first phase than the right
  one. `Collective.goesOnWith`: this holds in every state that an interleaving can lead to.
-/

namespace FemAssembly

variable {β σ α γ : Type}

/-! ## What is left of a program -/

namespace RankProgram

/-- What may be left of a program after some requests, whatever the answers are. -/
inductive MayLeave : RankProgram β σ α → RankProgram β σ α → Prop
  | refl (p) : MayLeave p p
  | step {p q r} : Follows q p → MayLeave q r → MayLeave p r

/-- The program `p` may end with the result `a`. -/
abbrev MayReturn (p : RankProgram β σ α) (a : α) : Prop := p.MayLeave (.done a)

variable {p q r : RankProgram β σ α} {k : α → RankProgram β σ γ} {a b : α} {c : γ}

theorem MayLeave.trans (h : p.MayLeave q) (h' : q.MayLeave r) : p.MayLeave r := by
  induction h with
  | refl _ => exact h'
  | step hstep _ ih => exact .step hstep (ih h')

/-- The sequence of `p` and `k` goes on in `p`, or in `k a` once `p` is done with `a`. -/
theorem Follows.bind_cases {q : RankProgram β σ γ} (h : Follows q (p >>= k)) :
    (∃ p', Follows p' p ∧ q = p' >>= k) ∨ ∃ a, p = .done a ∧ Follows q (k a) := by
  cases p with
  | done a => exact .inr ⟨a, rfl, h⟩
  | fail error => exact nomatch h
  | send _ _ _ next =>
    cases h with
    | send => exact .inl ⟨_, .send .., rfl⟩
    | sendFailed error => exact .inl ⟨_, .sendFailed error .., rfl⟩
  | post _ _ next =>
    cases h with
    | post handle => exact .inl ⟨_, .post handle .., rfl⟩
    | postFailed error => exact .inl ⟨_, .postFailed error .., rfl⟩
  | wait _ next =>
    cases h with
    | wait message => exact .inl ⟨_, .wait message .., rfl⟩
    | waitFailed error => exact .inl ⟨_, .waitFailed error .., rfl⟩
  | note _ next =>
    cases h
    exact .inl ⟨_, .note .., rfl⟩
  | save _ next =>
    cases h
    exact .inl ⟨_, .save .., rfl⟩

/-- What is left of the sequence of `p` and `k`: something of `p` and all of `k`, or something of
`k a`. -/
theorem MayLeave.bind_cases {q : RankProgram β σ γ} (h : (p >>= k).MayLeave q) :
    (∃ p', p.MayLeave p' ∧ (∀ a, p' ≠ .done a) ∧ q = p' >>= k) ∨
      ∃ a, p.MayReturn a ∧ (k a).MayLeave q := by
  generalize hsequence : p >>= k = sequence at h
  induction h generalizing p with
  | refl _ =>
    by_cases hdone : ∃ a, p = .done a
    · obtain ⟨a, rfl⟩ := hdone
      exact .inr ⟨a, .refl _, hsequence ▸ .refl _⟩
    · exact .inl ⟨p, .refl p, fun a ha => hdone ⟨a, ha⟩, hsequence.symm⟩
  | step hstep hrest ih =>
    subst hsequence
    rcases hstep.bind_cases with ⟨p', hp', rfl⟩ | ⟨a, rfl, ha⟩
    · rcases ih rfl with ⟨p'', hp'', hnot, rfl⟩ | ⟨a, ha, hrest⟩
      · exact .inl ⟨p'', .step hp' hp'', hnot, rfl⟩
      · exact .inr ⟨a, .step hp' ha, hrest⟩
    · exact .inr ⟨a, .refl _, .step ha hrest⟩

theorem Follows.bind (h : Follows q p) (k : α → RankProgram β σ γ) :
    Follows (q >>= k) (p >>= k) := by
  cases h with
  | send => exact .send ..
  | sendFailed error => exact .sendFailed error ..
  | post handle => exact .post handle _ _ fun handle => _ >>= k
  | postFailed error => exact .postFailed error ..
  | wait message => exact .wait message _ fun message => _ >>= k
  | waitFailed error => exact .waitFailed error ..
  | note => exact .note ..
  | save => exact .save ..

theorem MayLeave.bind (h : p.MayLeave q) (k : α → RankProgram β σ γ) :
    (p >>= k).MayLeave (q >>= k) := by
  induction h with
  | refl _ => exact .refl _
  | step hstep _ ih => exact .step (hstep.bind k) ih

namespace MayReturn

/-- A result `c` of a sequence comes from a result `a` of its first part. -/
theorem exists_of_bind (h : (p >>= k).MayReturn c) :
    ∃ a, p.MayReturn a ∧ (k a).MayReturn c := by
  rcases MayLeave.bind_cases h with ⟨p', -, hnot, hdone⟩ | hreturn
  · cases p' with
    | done a => exact absurd rfl (hnot a)
    | _ => exact nomatch hdone
  · exact hreturn

theorem eq_of_pure (h : (pure a : RankProgram β σ α).MayReturn b) : a = b := by
  cases h with
  | refl _ => rfl
  | step hstep _ => exact nomatch hstep

theorem not_fail (error : Error) : ¬ (fail error : RankProgram β σ α).MayReturn a := by
  intro h
  cases h with
  | step hstep _ => exact nomatch hstep

/-- A computation `x` without messages has one result. -/
theorem eq_ok_of_liftM {x : Except Error α} (h : (liftM x : RankProgram β σ α).MayReturn a) :
    x = .ok a := by
  cases x with
  | ok b => exact congrArg Except.ok (eq_of_pure h)
  | error error => exact absurd h (not_fail error)

end MayReturn

end RankProgram

open RankProgram

/-! ## What is left of the programs of an ensemble -/

/-- What `rank` still has to do at `f` is left over from what it had to do at `e`. -/
theorem Ensemble.Reaches.mayLeave {e f : Ensemble β σ α} (h : Reaches e f) {rank : Nat}
    {m : Member β σ α} (hm : f.members[rank]? = some m) :
    ∃ m₀, e.members[rank]? = some m₀ ∧ m₀.program.MayLeave m.program := by
  induction h with
  | refl _ => exact ⟨m, hm, .refl _⟩
  | @step e e' f other hstep _ ih =>
    obtain ⟨m', hm', hrest⟩ := ih hm
    by_cases hne : rank = other
    · subst hne
      obtain ⟨m₀, _, n, hm₀, hstep', rfl⟩ := step?_eq_some_iff.mp hstep
      have hlt := (List.getElem?_eq_some_iff.mp hm₀).1
      obtain rfl : n = m' := by simpa [hlt] using hm'
      exact ⟨m₀, hm₀, .step (Member.follows_of_step? hstep') hrest⟩
    · exact ⟨m', getElem?_members_of_step? hstep hne ▸ hm', hrest⟩

/-- The member of `rank` in a new ensemble has the program `p rank`. -/
theorem Ensemble.program_of_start {w : World β} {size rank : Nat} {p : Nat → RankProgram β σ α}
    {memory : Nat → σ} {m : Member β σ α}
    (hm : (Ensemble.start w
      ((List.range size).map fun rank => (p rank, memory rank))).members[rank]? = some m) :
    m.program = p rank := by
  have hprograms : (Ensemble.start w
      ((List.range size).map fun rank => (p rank, memory rank))).programs =
      (List.range size).map p := by
    simp [programs, start]
  exact (program_eq hprograms hm).2

/-- The ranks may finish with `results` only where each program `p rank` may end with its result. -/
theorem MayFinish.mayReturn {size rank : Nat} {p : Nat → RankProgram β σ α} {results : Nat → α}
    (h : MayFinish size p results) (hrank : rank < size) : (p rank).MayReturn (results rank) := by
  obtain ⟨memory, f, hreaches, hdone⟩ := h
  obtain ⟨m, hm, hprogram⟩ := Ensemble.exists_member hdone hrank
  obtain ⟨m₀, hm₀, hleft⟩ := hreaches.mayLeave hm
  rwa [Ensemble.program_of_start hm₀, hprogram] at hleft

/-! ## What becomes of the results -/

/-- A member `m` that in the end makes `f a` of its result `a` steps as before. -/
theorem Member.step?_map (rank : Nat) (w : World β) (m : Member β σ α) (f : α → γ) :
    (m.bind fun a => pure (f a)).step? rank w =
      (m.step? rank w).map fun x => (x.1, x.2.bind fun a => pure (f a)) := by
  cases hstep : m.step? rank w with
  | some x => exact step?_bind hstep _
  | none =>
    obtain ⟨program, memory, events⟩ := m
    cases program with
    | done _ => rfl
    | fail _ => rfl
    | post peer tag next =>
      simp only [step?] at hstep
      split at hstep <;> cases hstep
    | wait handle next =>
      have hwait : w.wait handle = none := Option.map_eq_none_iff.mp hstep
      have hwaited : (RankProgram.wait handle next >>= fun a => pure (f a)) =
          .wait handle fun message => next message >>= fun a => pure (f a) := rfl
      simp only [step?, bind, hwaited, hwait, Option.map_none]
    | _ => cases hstep

namespace Ensemble

variable {e : Ensemble β σ α} {f : α → γ}

/-- Every rank of `e` makes `f a` of its result `a` in the end. -/
def map (f : α → γ) (e : Ensemble β σ α) : Ensemble β σ γ := e.bind fun _ a => pure (f a)

theorem getElem?_members_map (f : α → γ) (e : Ensemble β σ α) (rank : Nat) :
    (e.map f).members[rank]? = (e.members[rank]?).map fun m => m.bind fun a => pure (f a) := by
  simp [map, Ensemble.bind]

theorem step?_map (f : α → γ) (e : Ensemble β σ α) (rank : Nat) :
    (e.map f).step? rank = (e.step? rank).map (map f) := by
  have hsettle : ∀ (w : World β) (p : RankProgram β σ α),
      Member.settle rank w (p >>= fun a => pure (f a)) = Member.settle rank w p := by
    intro w p
    cases p <;> rfl
  simp only [step?, getElem?_members_map]
  cases hm : e.members[rank]? with
  | none => rfl
  | some m =>
    simp only [Option.map_some, Option.bind_eq_bind, Option.bind_some]
    rw [show (e.map f).world = e.world from rfl, Member.step?_map]
    cases m.step? rank e.world with
    | none => rfl
    | some x =>
      simp only [Option.map_some, Option.bind_some, Option.pure_def, map, Ensemble.bind,
        Member.bind, hsettle, List.mapIdx_set]

/-- The states that `e.map f` reaches are those that `e` reaches, but for the results. -/
theorem Reaches.of_map {g : Ensemble β σ γ} (h : Reaches (e.map f) g) :
    ∃ g', Reaches e g' ∧ g = g'.map f := by
  generalize hfirst : e.map f = first at h
  induction h generalizing e with
  | refl _ => exact ⟨e, .refl e, hfirst.symm⟩
  | step hstep _ ih =>
    subst hfirst
    rw [step?_map] at hstep
    obtain ⟨e', he', rfl⟩ := Option.map_eq_some_iff.mp hstep
    obtain ⟨g', hg', rfl⟩ := ih rfl
    exact ⟨g', .step he' hg', rfl⟩

/-- Every rank has still something to do of `p`, or does what follows with `k` on its result in
`results`, and nothing else. -/
def GoesOnWith (e : Ensemble β σ γ) (p : Nat → RankProgram β σ α)
    (k : Nat → α → RankProgram β σ γ) (results : Nat → α) : Prop :=
  ∀ rank m, e.members[rank]? = some m →
    (∃ q, (p rank).MayLeave q ∧ (∀ a, q ≠ .done a) ∧ m.program = q >>= k rank) ∨
      (k rank (results rank)).MayLeave m.program

end Ensemble

open Ensemble

/-- Where all ranks come to the end of a first phase `p` and go on with `k`, each of them goes on
with its result of the first phase, however far the others are. -/
theorem Collective.goesOnWith {size : Nat} {p : Nat → RankProgram β σ α}
    {k : Nat → α → RankProgram β σ γ} {results : Nat → α} {results' : Nat → γ}
    (h : Collective size p results)
    (h' : Collective size (fun rank => k rank (results rank)) results') {memory : Nat → σ}
    {e : Ensemble β σ γ}
    (he : Reaches (Ensemble.start (World.new size)
      ((List.range size).map fun rank => (p rank >>= k rank, memory rank))) e) :
    e.GoesOnWith p k results := by
  -- the same programs, where the ranks keep the result of the first phase
  let kept := fun rank a => k rank a >>= fun c => (pure (a, c) : RankProgram β σ (α × γ))
  have hcollective : Collective size (fun rank => p rank >>= kept rank)
      fun rank => (results rank, results' rank) :=
    Passes.bind (k := kept) h (h'.map fun rank c => (results rank, c))
  have hcompletes := hcollective.completes
  have hforget : ∀ rank, (p rank >>= kept rank >>= fun x => pure x.2) = p rank >>= k rank := by
    simp [kept]
  have hstart : Ensemble.start (World.new size)
        ((List.range size).map fun rank => (p rank >>= k rank, memory rank)) =
      (Ensemble.start (World.new size)
        ((List.range size).map fun rank => (p rank >>= kept rank, memory rank))).map Prod.snd := by
    have hkept := hcompletes.mayFinish memory
    have hplain := (Collective.completes (Passes.bind h h')).mayFinish memory
    rw [start_eq _ fun x hx => ?_, start_eq _ fun x hx => ?_]
    · refine congrArg (Ensemble.mk _) (List.ext_getElem (by simp) fun rank _ _ => ?_)
      simp [Member.bind, ← hforget]
    · obtain ⟨rank, hrank, rfl⟩ := List.mem_map.mp hx
      exact hkept.ne_fail (List.mem_range.mp hrank)
    · obtain ⟨rank, hrank, rfl⟩ := List.mem_map.mp hx
      exact hplain.ne_fail (List.mem_range.mp hrank)
  obtain ⟨g, hg, rfl⟩ := Reaches.of_map (hstart ▸ he)
  obtain ⟨f, hf, hended⟩ := (hcompletes memory g hg).1
  intro rank m hm
  rw [getElem?_members_map, Option.map_eq_some_iff] at hm
  obtain ⟨n, hn, rfl⟩ := hm
  obtain ⟨n₀, hn₀, hleft⟩ := hg.mayLeave hn
  rw [program_of_start hn₀] at hleft
  rcases hleft.bind_cases with ⟨q, hq, hnot, hprogram⟩ | ⟨a, -, hrest⟩
  · refine .inl ⟨q, hq, hnot, ?_⟩
    simp [Member.bind, hprogram, kept]
  · -- the state can be completed, and then the rank has the results of both phases
    have hrank : rank < f.members.length := by
      rw [length_members hended.programs_eq]
      have hlt := (List.getElem?_eq_some_iff.mp hn₀).1
      simpa [Ensemble.start] using hlt
    obtain ⟨n', hn', hrest'⟩ := hf.mayLeave (List.getElem?_eq_getElem hrank)
    rw [hn] at hn'
    obtain rfl := Option.some.inj hn'
    rw [(program_eq hended.programs_eq (List.getElem?_eq_getElem hrank)).2] at hrest'
    obtain ⟨c, -, hpair⟩ := MayReturn.exists_of_bind (hrest.trans hrest')
    obtain ⟨rfl, -⟩ := Prod.mk.inj (MayReturn.eq_of_pure hpair)
    refine .inr ?_
    simpa [kept, Member.bind] using hrest.bind fun x => (pure x.2 : RankProgram β σ γ)

end FemAssembly
