/-!
# The first shared value

Two lists in increasing order, where values may be repeated, are merged until a value of one is met
in the other.

* `firstShared`: the value found first.
* `firstShared_eq_none_iff`, `firstShared_eq_some_iff`: there is none exactly when the lists share
  no value, and otherwise it is the least value of both.
-/

namespace FemAssembly

/-- The first value that a merge of two increasing lists meets in both. The second list is advanced
past what is smaller than the head of the first; where the heads differ, the first is advanced. -/
def firstShared : List Nat → List Nat → Option Nat
  | [], _ => none
  | a :: rest, list =>
    match list.dropWhile (· < a) with
    | [] => none
    | b :: more => if a = b then some a else firstShared rest (b :: more)

/-- From an increasing `list`, dropping what is smaller than `a` leaves the values `b` with `a ≤ b`.
-/
theorem mem_dropWhile_lt {list : List Nat} (h : list.Pairwise (· ≤ ·)) {a b : Nat} :
    b ∈ list.dropWhile (· < a) ↔ b ∈ list ∧ a ≤ b := by
  induction list with
  | nil => simp
  | cons c list ih =>
    obtain ⟨hc, hlist⟩ := List.pairwise_cons.mp h
    by_cases hca : c < a
    · rw [List.dropWhile_cons_of_pos (by simpa using hca), ih hlist, List.mem_cons]
      constructor
      · rintro ⟨hb, hab⟩
        exact ⟨.inr hb, hab⟩
      · rintro ⟨rfl | hb, hab⟩
        · omega
        · exact ⟨hb, hab⟩
    · rw [List.dropWhile_cons_of_neg (by simpa using hca)]
      refine ⟨fun hb => ⟨hb, ?_⟩, fun hb => hb.1⟩
      rcases List.mem_cons.mp hb with rfl | hb
      · omega
      · have := hc b hb
        omega

/-- The values that `a :: rest` and `other` share, as far as a merge has not passed them: what it
drops from `other` is smaller than `a`, and so than all of `rest`. -/
private theorem mem_dropWhile_iff {rest other : List Nat} {a : Nat}
    (ha : ∀ b ∈ rest, a ≤ b) (ho : other.Pairwise (· ≤ ·)) {b : Nat} (hb : b ∈ a :: rest) :
    b ∈ other.dropWhile (· < a) ↔ b ∈ other := by
  rw [mem_dropWhile_lt ho]
  refine and_iff_left ?_
  rcases List.mem_cons.mp hb with rfl | hb
  · exact Nat.le_refl _
  · exact ha b hb

/-- A head `a` that the merge passes by is not in `other`, since the first value `b` of `other` that
is not smaller is another one. -/
private theorem not_mem_of_dropWhile_eq_cons {other more : List Nat} {a b : Nat}
    (ho : other.Pairwise (· ≤ ·)) (h : other.dropWhile (· < a) = b :: more) (hab : a ≠ b) :
    a ∉ other := by
  intro hao
  have hdrop := ho.sublist (List.dropWhile_sublist (decide <| · < a))
  have hb := (mem_dropWhile_lt ho).mp (h ▸ List.mem_cons_self : b ∈ _)
  have ha := (mem_dropWhile_lt ho).mpr ⟨hao, Nat.le_refl a⟩
  rw [h] at ha hdrop
  rcases List.mem_cons.mp ha with rfl | hin
  · exact hab rfl
  · have := (List.pairwise_cons.mp hdrop).1 a hin
    omega

theorem firstShared_eq_none_iff {list other : List Nat} (hl : list.Pairwise (· ≤ ·))
    (ho : other.Pairwise (· ≤ ·)) : firstShared list other = none ↔ ∀ a ∈ list, a ∉ other := by
  induction list generalizing other with
  | nil => simp [firstShared]
  | cons a rest ih =>
    obtain ⟨ha, hrest⟩ := List.pairwise_cons.mp hl
    have hmem : ∀ b ∈ a :: rest, (b ∈ other.dropWhile (· < a) ↔ b ∈ other) :=
      fun b => mem_dropWhile_iff ha ho
    have hdrop := ho.sublist (List.dropWhile_sublist (decide <| · < a))
    rw [firstShared]
    cases h : other.dropWhile (· < a) with
    | nil =>
      rw [h] at hmem
      simp only [true_iff]
      intro b hb hbo
      exact List.not_mem_nil ((hmem b hb).mpr hbo)
    | cons b more =>
      rw [h] at hmem hdrop
      by_cases hab : a = b
      · have : a ∈ other := (hmem a (by simp)).mp (by simp [hab])
        simp [hab, hab ▸ this]
      · simp only [hab, ↓reduceIte]
        rw [ih hrest hdrop, List.forall_mem_cons]
        constructor
        · intro hnot
          refine ⟨not_mem_of_dropWhile_eq_cons ho h hab, fun c hc hco => ?_⟩
          exact hnot c hc ((hmem c (by simp [hc])).mpr hco)
        · rintro ⟨-, hnot⟩ c hc hcd
          exact hnot c hc ((hmem c (by simp [hc])).mp hcd)

/-- A value `a` that the merge finds is in `list` and in `other`, and none before it is. -/
private theorem firstShared_spec {list other : List Nat} (hl : list.Pairwise (· ≤ ·))
    (ho : other.Pairwise (· ≤ ·)) {a : Nat} (h : firstShared list other = some a) :
    a ∈ list ∧ a ∈ other ∧ ∀ b ∈ list, b ∈ other → a ≤ b := by
  induction list generalizing other with
  | nil => simp [firstShared] at h
  | cons c rest ih =>
    obtain ⟨hc, hrest⟩ := List.pairwise_cons.mp hl
    have hmem : ∀ b ∈ c :: rest, (b ∈ other.dropWhile (· < c) ↔ b ∈ other) :=
      fun b => mem_dropWhile_iff hc ho
    have hdrop := ho.sublist (List.dropWhile_sublist (decide <| · < c))
    rw [firstShared] at h
    cases hd : other.dropWhile (· < c) with
    | nil => simp [hd] at h
    | cons b more =>
      rw [hd] at h hmem hdrop
      by_cases hcb : c = b
      · simp only [hcb, ↓reduceIte, Option.some.injEq] at h
        subst h hcb
        refine ⟨by simp, (hmem c (by simp)).mp (by simp), fun d hd _ => ?_⟩
        rcases List.mem_cons.mp hd with rfl | hd
        · exact Nat.le_refl _
        · exact hc d hd
      · simp only [hcb, ↓reduceIte] at h
        obtain ⟨har, hab, hleast⟩ := ih hrest hdrop h
        refine ⟨by simp [har], (hmem a (by simp [har])).mp hab, fun d hd' hdo => ?_⟩
        rcases List.mem_cons.mp hd' with rfl | hdr
        · exact absurd hdo (not_mem_of_dropWhile_eq_cons ho hd hcb)
        · exact hleast d hdr ((hmem d (by simp [hdr])).mpr hdo)

theorem firstShared_eq_some_iff {list other : List Nat} (hl : list.Pairwise (· ≤ ·))
    (ho : other.Pairwise (· ≤ ·)) {a : Nat} :
    firstShared list other = some a ↔
      a ∈ list ∧ a ∈ other ∧ ∀ b ∈ list, b ∈ other → a ≤ b := by
  refine ⟨firstShared_spec hl ho, ?_⟩
  rintro ⟨hal, hao, hleast⟩
  cases h : firstShared list other with
  | none => exact absurd hao ((firstShared_eq_none_iff hl ho).mp h a hal)
  | some b =>
    obtain ⟨hbl, hbo, hb⟩ := firstShared_spec hl ho h
    rw [Nat.le_antisymm (hleast b hbl hbo) (hb a hal hao)]

end FemAssembly
