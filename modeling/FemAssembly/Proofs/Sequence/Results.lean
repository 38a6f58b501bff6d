/-!
# Operations that may fail, over a list

* `exists_of_isOk`: an operation that is found to succeed has a result.
* `bind_eq_ok_iff`, `bind_of_eq_ok`: two operations one after the other.
* `mapM_eq_ok_iff`: an operation succeeds on a whole list when it succeeds on every element.
* `exists_mapM_eq_error`: otherwise the failure is that of one of the elements.
  `exists_append_of_mapM_eq_error`: it is that of the first element that fails.
* `mapM_eq_ok_of_perm`: the order of the list decides the order of the results, and nothing else.
* `foldlM_eq_map_mapM`, `foldlM_eq_map_mapM_of_invariant`: an accumulation that only fails with the
  operation on an element. `foldlM_eq_ok_foldl`, `foldlM_eq_ok_foldl_of_invariant`: one that does
  not fail.
* `bind_ne_error`, `map_ne_error`, `mapM_ne_error`: an error that no part of an operation has.
-/

namespace FemAssembly

variable {ε β γ σ : Type}

theorem exists_of_isOk {x : Except ε β} (h : x.isOk) : ∃ b, x = .ok b := by
  cases x with
  | error e => cases h
  | ok b => exact ⟨b, rfl⟩

theorem bind_eq_ok_iff {x : Except ε β} {f : β → Except ε γ} {c : γ} :
    (x >>= f) = .ok c ↔ ∃ b, x = .ok b ∧ f b = .ok c := by
  cases x with
  | error e => exact ⟨nofun, fun ⟨_, hb, _⟩ => nomatch hb⟩
  | ok b => exact ⟨fun h => ⟨b, rfl, h⟩, fun ⟨_, hb, h⟩ => Except.ok.inj hb ▸ h⟩

theorem bind_of_eq_ok {x : Except ε β} {b : β} (h : x = .ok b) (f : β → Except ε γ) :
    (x >>= f) = f b := by
  rw [h]
  rfl

theorem mapM_cons_of_ok {f : β → Except ε γ} {b : β} {c : γ} (h : f b = .ok c) (list : List β) :
    (b :: list).mapM f = (list.mapM f).map (c :: ·) := by
  rw [List.mapM_cons, h]
  cases list.mapM f <;> rfl

theorem mapM_cons_of_error {f : β → Except ε γ} {b : β} {e : ε} (h : f b = .error e)
    (list : List β) : (b :: list).mapM f = .error e := by
  rw [List.mapM_cons, h]
  rfl

theorem mapM_cons_eq_ok_iff {f : β → Except ε γ} {b : β} {list : List β} {results : List γ} :
    (b :: list).mapM f = .ok results ↔
      ∃ c rest, f b = .ok c ∧ list.mapM f = .ok rest ∧ results = c :: rest := by
  cases hb : f b with
  | error e =>
    rw [mapM_cons_of_error hb]
    exact ⟨nofun, fun ⟨_, _, hc, _⟩ => nomatch hc⟩
  | ok c =>
    rw [mapM_cons_of_ok hb]
    cases list.mapM f with
    | error e => exact ⟨nofun, fun ⟨_, _, _, hrest, _⟩ => nomatch hrest⟩
    | ok rest => simp [Except.map, eq_comm]

theorem mapM_congr {f g : β → Except ε γ} {list : List β} (h : ∀ b ∈ list, f b = g b) :
    list.mapM f = list.mapM g := by
  induction list with
  | nil => rfl
  | cons b list ih =>
    rw [List.mapM_cons, List.mapM_cons, h b (by simp), ih fun b hb => h b (by simp [hb])]

theorem mapM_eq_ok_iff {f : β → Except ε γ} {list : List β} {results : List γ} :
    list.mapM f = .ok results ↔ list.map f = results.map .ok := by
  induction list generalizing results with
  | nil => cases results <;> simp [pure, Except.pure]
  | cons b list ih =>
    rw [mapM_cons_eq_ok_iff, List.map_cons]
    constructor
    · rintro ⟨c, rest, hc, hrest, rfl⟩
      rw [List.map_cons, hc, ih.mp hrest]
    · intro h
      cases results with
      | nil => cases h
      | cons c rest =>
        rw [List.map_cons] at h
        obtain ⟨hc, hrest⟩ := List.cons_eq_cons.mp h
        exact ⟨c, rest, hc, ih.mpr hrest, rfl⟩

theorem mapM_eq_ok_map {f : β → Except ε γ} {g : β → γ} {list : List β}
    (h : ∀ b ∈ list, f b = .ok (g b)) : list.mapM f = .ok (list.map g) := by
  rw [mapM_eq_ok_iff, List.map_map]
  exact List.map_congr_left h

theorem length_of_mapM_eq_ok {f : β → Except ε γ} {list : List β} {results : List γ}
    (h : list.mapM f = .ok results) : results.length = list.length := by
  have hlength := congrArg List.length (mapM_eq_ok_iff.mp h)
  simpa using hlength.symm

theorem getElem?_of_mapM_range_eq_ok {f : Nat → Except ε γ} {n : Nat} {results : List γ}
    (h : (List.range n).mapM f = .ok results) {i : Nat} (hi : i < n) :
    ∃ c, results[i]? = some c ∧ f i = .ok c := by
  have hget := congrArg (·[i]?) (mapM_eq_ok_iff.mp h)
  simp only [List.getElem?_map, List.getElem?_range hi, Option.map_some] at hget
  obtain ⟨c, hc, heq⟩ := Option.map_eq_some_iff.mp hget.symm
  exact ⟨c, hc, heq.symm⟩

theorem getD_of_mapM_range_eq_ok {f : Nat → Except ε γ} {n : Nat} {results : List γ}
    (h : (List.range n).mapM f = .ok results) {i : Nat} (hi : i < n) (c : γ) :
    f i = .ok (results.getD i c) := by
  obtain ⟨result, hresult, hf⟩ := getElem?_of_mapM_range_eq_ok h hi
  rw [hf, List.getD_eq_getElem?_getD, hresult, Option.getD_some]

theorem exists_mapM_eq_ok {f : β → Except ε γ} {list : List β}
    (h : ∀ b ∈ list, ∃ c, f b = .ok c) : ∃ results, list.mapM f = .ok results := by
  induction list with
  | nil => exact ⟨[], rfl⟩
  | cons b list ih =>
    obtain ⟨c, hc⟩ := h b (by simp)
    obtain ⟨results, hresults⟩ := ih fun b hb => h b (by simp [hb])
    refine ⟨c :: results, ?_⟩
    rw [mapM_cons_of_ok hc, hresults]
    rfl

/-- Where `f` fails on some `b` in `list`, the whole list fails as one of its elements does. -/
theorem exists_mapM_eq_error {f : β → Except ε γ} {list : List β} {b : β} {e : ε} (hb : b ∈ list)
    (h : f b = .error e) : ∃ b' ∈ list, ∃ e', f b' = .error e' ∧ list.mapM f = .error e' := by
  induction list with
  | nil => cases hb
  | cons a list ih =>
    cases ha : f a with
    | error e' => exact ⟨a, by simp, e', ha, mapM_cons_of_error ha list⟩
    | ok c =>
      have hmem : b ∈ list := by
        rcases List.mem_cons.mp hb with rfl | hb
        · rw [h] at ha
          cases ha
        · exact hb
      obtain ⟨b', hb', e', he', hlist⟩ := ih hmem
      refine ⟨b', by simp [hb'], e', he', ?_⟩
      rw [mapM_cons_of_ok ha, hlist]
      rfl

/-- A `list` fails as the first of its elements `b` that does: `f` succeeds on all `before` it. -/
theorem exists_append_of_mapM_eq_error {f : β → Except ε γ} {list : List β} {e : ε}
    (h : list.mapM f = .error e) : ∃ before b after, list = before ++ b :: after ∧
      f b = .error e ∧ ∀ c ∈ before, ∃ result, f c = .ok result := by
  induction list with
  | nil => cases h
  | cons a list ih =>
    cases ha : f a with
    | error e' =>
      rw [mapM_cons_of_error ha] at h
      obtain rfl := Except.error.inj h
      exact ⟨[], a, list, rfl, ha, by simp⟩
    | ok result =>
      rw [mapM_cons_of_ok ha] at h
      cases hlist : list.mapM f with
      | ok results =>
        rw [hlist] at h
        cases h
      | error e' =>
        rw [hlist] at h
        obtain rfl := Except.error.inj h
        obtain ⟨before, b, after, rfl, hb, hbefore⟩ := ih hlist
        exact ⟨a :: before, b, after, rfl, hb, List.forall_mem_cons.mpr ⟨⟨result, ha⟩, hbefore⟩⟩

/-- A `list` fails as one of its elements `b` does. -/
theorem exists_of_mapM_eq_error {f : β → Except ε γ} {list : List β} {e : ε}
    (h : list.mapM f = .error e) : ∃ b ∈ list, f b = .error e := by
  obtain ⟨before, b, after, rfl, hb, -⟩ := exists_append_of_mapM_eq_error h
  exact ⟨b, by simp, hb⟩

/-- The `results` of a whole `list` are those of its elements. -/
theorem mem_of_mapM_eq_ok {f : β → Except ε γ} {list : List β} {results : List γ}
    (h : list.mapM f = .ok results) {c : γ} : c ∈ results ↔ ∃ b ∈ list, f b = .ok c := by
  have hmap := mapM_eq_ok_iff.mp h
  have hc : c ∈ results ↔ (Except.ok c : Except ε γ) ∈ results.map .ok := by simp
  rw [hc, ← hmap, List.mem_map]

theorem exists_of_mapM_eq_ok {f : β → Except ε γ} {list : List β} {results : List γ}
    (h : list.mapM f = .ok results) {b : β} (hb : b ∈ list) : ∃ c, f b = .ok c := by
  have hmem : f b ∈ list.map f := List.mem_map_of_mem hb
  rw [mapM_eq_ok_iff.mp h] at hmem
  obtain ⟨c, -, hc⟩ := List.mem_map.mp hmem
  exact ⟨c, hc.symm⟩

theorem mapM_eq_ok_of_perm {f : β → Except ε γ} {list list' : List β} (hperm : list.Perm list')
    {results : List γ} (h : list.mapM f = .ok results) :
    ∃ results', list'.mapM f = .ok results' ∧ results.Perm results' := by
  obtain ⟨results', hresults'⟩ : ∃ results', list'.mapM f = .ok results' := by
    apply exists_mapM_eq_ok
    intro b hb
    exact exists_of_mapM_eq_ok h (hperm.mem_iff.mpr hb)
  refine ⟨results', hresults', ?_⟩
  have hmaps : (results.map (Except.ok : γ → Except ε γ)).Perm (results'.map .ok) := by
    rw [← mapM_eq_ok_iff.mp h, ← mapM_eq_ok_iff.mp hresults']
    exact hperm.map f
  have htake := hmaps.filterMap Except.toOption
  simpa [List.filterMap_map, Function.comp_def, Except.toOption] using htake

/-- An accumulation whose `step` fails only as `f` does on the element, from a state in which `I`
holds and stays so. -/
theorem foldlM_eq_map_mapM_of_invariant {I : σ → Prop} {step : σ → β → Except ε σ}
    {f : β → Except ε γ} {g : σ → γ → σ} {list : List β}
    (hstep : ∀ s, I s → ∀ b ∈ list, step s b = (f b).map (g s)) (hkeeps : ∀ s c, I s → I (g s c))
    {s : σ} (hs : I s) : list.foldlM step s = (list.mapM f).map (·.foldl g s) := by
  induction list generalizing s with
  | nil => rfl
  | cons b list ih =>
    rw [List.foldlM_cons, hstep s hs b (by simp)]
    cases hb : f b with
    | error e =>
      rw [mapM_cons_of_error hb]
      rfl
    | ok c =>
      rw [mapM_cons_of_ok hb]
      refine (ih (fun s hs b hb => hstep s hs b (by simp [hb])) (hkeeps s c hs)).trans ?_
      cases list.mapM f <;> rfl

theorem foldlM_eq_map_mapM (f : β → Except ε γ) (g : σ → γ → σ) (s : σ) (list : List β) :
    list.foldlM (fun s b => do let c ← f b; pure (g s c)) s =
      (list.mapM f).map (·.foldl g s) := by
  refine foldlM_eq_map_mapM_of_invariant (I := fun _ => True) (fun s _ b _ => ?_)
    (fun _ _ _ => trivial) trivial
  cases f b <;> rfl

/-- An accumulation in which no `step` fails, from a state in which `I` holds and stays so. -/
theorem foldlM_eq_ok_foldl_of_invariant {I : σ → Prop} {step : σ → β → Except ε σ} {g : σ → β → σ}
    {list : List β} (hstep : ∀ s, I s → ∀ b ∈ list, step s b = .ok (g s b))
    (hkeeps : ∀ s b, I s → I (g s b)) {s : σ} (hs : I s) :
    list.foldlM step s = .ok (list.foldl g s) := by
  have hmap : list.mapM (Except.ok : β → Except ε β) = .ok list :=
    (mapM_eq_ok_map fun _ _ => rfl).trans (congrArg Except.ok (List.map_id list))
  rw [foldlM_eq_map_mapM_of_invariant (f := .ok) hstep hkeeps hs, hmap]
  rfl

theorem foldlM_eq_ok_foldl {f : σ → β → Except ε σ} {g : σ → β → σ} {list : List β}
    (h : ∀ s, ∀ b ∈ list, f s b = .ok (g s b)) (s : σ) : list.foldlM f s = .ok (list.foldl g s) :=
  foldlM_eq_ok_foldl_of_invariant (I := fun _ => True) (fun s _ => h s) (fun _ _ _ => trivial)
    trivial

/-! ## Errors that do not arise -/

theorem bind_ne_error {x : Except ε β} {f : β → Except ε γ} {e : ε} (hx : x ≠ .error e)
    (hf : ∀ b, x = .ok b → f b ≠ .error e) : (x >>= f) ≠ .error e := by
  cases x with
  | error e' => exact fun h => hx (congrArg Except.error (Except.error.inj h))
  | ok b => exact hf b rfl

theorem map_ne_error {x : Except ε β} {e : ε} (h : x ≠ .error e) (f : β → γ) :
    x.map f ≠ .error e := by
  cases x with
  | error e' => exact fun heq => h (congrArg Except.error (Except.error.inj heq))
  | ok b => nofun

theorem mapM_ne_error {f : β → Except ε γ} {list : List β} {e : ε}
    (h : ∀ b ∈ list, f b ≠ .error e) : list.mapM f ≠ .error e := by
  intro herror
  obtain ⟨b, hb, hfails⟩ := exists_of_mapM_eq_error herror
  exact h b hb hfails

end FemAssembly
