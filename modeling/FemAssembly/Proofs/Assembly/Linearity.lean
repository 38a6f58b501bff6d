import FemAssembly.Proofs.Assembly.Independence

/-!
# Linearity

An assembler with the values `x * v + y * w` has the outcome of those with the values `v` and `w`.
In exact arithmetic its matrix is the same combination of their matrices, at every stored position.
Positions at which the values cancel stay stored.

* `ElementValues.combine`: the combination of values.
* `Assembler.SameParts`: two assemblers that differ in their values, if at all.
* `Assembler.sum_couplings_combine`: a combination of values has the combination of their sums.
* `Assembler.assembly_linear`: the outcomes and the matrices.
-/

namespace FemAssembly

/-- The values `x * v + y * w`, coefficient by coefficient. -/
def ElementValues.combine {α : Type} [Zero α] [Add α] [Mul α] (x y : α) (v w : ElementValues α) :
    ElementValues α where
  width := v.width
  slots := v.slots
  numElements := v.numElements
  data := v.data.mapIdx fun position value => x * value + y * w.data.getD position 0
  size_eq := by rw [Array.size_mapIdx, v.size_eq]

/-- A relative orientation of `s` and `t` is one or minus one, so it goes past the factors `x` and
`y`. -/
theorem SignedIndex.relativeSign_mul_combine {α : Type} [Ring α] (s t : SignedIndex)
    (x y p q : α) : s.relativeSign t * (x * p + y * q) =
      x * (s.relativeSign t * p) + y * (s.relativeSign t * q) := by
  unfold relativeSign
  split
  · rw [one_mul, one_mul, one_mul]
  · simp only [neg_mul, one_mul, mul_neg, neg_add]

namespace Assembler

variable {α : Type} {a b c : Assembler α}

/-! ## Parts -/

/-- The assemblers `a` and `b` have the same restriction and the same template. -/
structure SameParts (a b : Assembler α) : Prop where
  restriction_eq : b.restriction = a.restriction
  template_eq : b.template = a.template

theorem SameParts.sameStructure (h : a.SameParts b) : a.SameStructure b :=
  ⟨h.restriction_eq ▸ .refl a.restriction, h.template_eq⟩

theorem sameParts_of_ofParts {kind : Discretization} {r : Restriction} {t : Template}
    {v w : ElementValues α} {options : Options} (ha : (ofParts kind r t v options).result = .ok a)
    (hb : (ofParts kind r t w options).result = .ok b) : a.SameParts b := by
  obtain ⟨-, hra, hta, -⟩ := result_ofParts_eq_ok_iff.mp ha
  obtain ⟨-, hrb, htb, -⟩ := result_ofParts_eq_ok_iff.mp hb
  exact ⟨hrb.trans hra.symm, htb.trans hta.symm⟩

/-- The values of `a` and `b` fill the same positions. -/
theorem SameParts.position_eq (h : a.SameParts b) (k i e : Nat) :
    b.values.position k i e = a.values.position k i e := by
  rw [ElementValues.position, ElementValues.position, b.values_width, b.values_slots,
    a.values_width, a.values_slots, h.restriction_eq, h.template_eq]

theorem SameParts.size_eq (h : a.SameParts b) : b.values.data.size = a.values.data.size := by
  rw [b.values.size_eq, a.values.size_eq, b.values_width, b.values_slots, b.values_elements,
    a.values_width, a.values_slots, a.values_elements, h.restriction_eq, h.template_eq]

/-- The parts of an assembler `a` are accepted with all values `w` of the right shape. -/
theorem exists_ofParts_of_sameShape {kind : Discretization} {r : Restriction} {t : Template}
    {v w : ElementValues α} {options : Options} (ha : (ofParts kind r t v options).result = .ok a)
    (hshape : v.SameShape w) : ∃ b, (ofParts kind r t w options).result = .ok b := by
  obtain ⟨rfl, rfl, rfl, rfl, rfl⟩ := result_ofParts_eq_ok_iff.mp ha
  obtain ⟨hwidth, hslots, helements⟩ := hshape
  exact exists_ofParts a.kind a.degree_le a.template_slots (hslots.trans a.values_slots)
    (hwidth.trans a.values_width) (helements.trans a.values_elements)

/-! ## Combinations -/

section

variable [Ring α] {x y : α} (hb : a.SameParts b) (hc : a.SameParts c)
  (hvalues : c.values = a.values.combine x y b.values)
include hb hc hvalues

theorem valueAt_combine (k i e : Nat) :
    c.valueAt k i e = x * a.valueAt k i e + y * b.valueAt k i e := by
  unfold valueAt
  rw [hb.position_eq, hc.position_eq, hvalues]
  by_cases h : a.values.position k i e < a.values.data.size <;>
    simp [ElementValues.combine, Array.getD, h, hb.size_eq]

theorem contribution_combine (e i j : Nat) :
    c.contribution e i j = x * a.contribution e i j + y * b.contribution e i j := by
  unfold contribution
  rw [valueAt_combine hb hc hvalues, SignedIndex.relativeSign_mul_combine, hb.restriction_eq,
    hc.restriction_eq, hb.template_eq, hc.template_eq]

theorem sum_combine (slots : List (Nat × Nat × Nat)) :
    c.sum slots = x * a.sum slots + y * b.sum slots := by
  unfold sum
  simp only [← List.sum_eq_foldl, contribution_combine hb hc hvalues, List.sum_map_add,
    List.sum_map_mul_left]

theorem get?_combine {A B C : SparseMatrix α} (hA : a.Assembled A) (hB : b.Assembled B)
    (hC : c.Assembled C) (row column : Nat) :
    C.get? row column =
      Option.map₂ (fun p q => x * p + y * q) (A.get? row column) (B.get? row column) := by
  have hsum : c.sum (c.couplings row column) =
      x * a.sum (a.couplings row column) + y * b.sum (b.couplings row column) := by
    rw [hc.sameStructure.couplings_eq, hb.sameStructure.couplings_eq]
    exact sum_combine hb hc hvalues _
  -- all three matrices store the same positions, so it is enough to look at the first
  rw [hb.sameStructure.get?_eq_map
      (f := fun _ => b.sum (b.couplings row column)) zero_add hA hB rfl,
    hc.sameStructure.get?_eq_map
      (f := fun p => x * p + y * b.sum (b.couplings row column)) zero_add hA hC hsum]
  cases A.get? row column <;> rfl

end

/-- Values of the right shape do not decide whether an assembler of `r` and `t` is accepted, nor
what comes of any of its executions: with the values `v` and `w`, and with every combination of
them, assembly has the same outcome, and on success the same row offsets and column indices. In
exact arithmetic the entries of `v.combine x y w` are the combination of the entries. -/
theorem assembly_linear (kind : Discretization) (r : Restriction) (t : Template)
    (options : Options) :
    (∀ {α : Type} [Zero α] [One α] [Neg α] [Add α] [Mul α] (v w : ElementValues α) a,
      (ofParts kind r t v options).result = .ok a → v.SameShape w → ∀ x y,
      ∃ b c, (ofParts kind r t w options).result = .ok b ∧
        (ofParts kind r t (v.combine x y w) options).result = .ok c ∧
        SameOutcome a.assembleWithoutEssential.result b.assembleWithoutEssential.result ∧
        SameOutcome a.assembleWithoutEssential.result c.assembleWithoutEssential.result ∧
        ∀ outcome outcome' outcome'', a.MayGive outcome → b.MayGive outcome' →
          c.MayGive outcome'' → SameOutcome outcome outcome' ∧ SameOutcome outcome outcome'') ∧
    ∀ {α : Type} [Ring α] (v w : ElementValues α) a b c x y,
      (ofParts kind r t v options).result = .ok a →
      (ofParts kind r t w options).result = .ok b →
      (ofParts kind r t (v.combine x y w) options).result = .ok c →
      ∀ A B C, a.assembleWithoutEssential.result = .ok A →
        b.assembleWithoutEssential.result = .ok B →
        c.assembleWithoutEssential.result = .ok C →
        ∀ row column, C.get? row column =
          Option.map₂ (fun p q => x * p + y * q) (A.get? row column) (B.get? row column) := by
  constructor
  · intro α _ _ _ _ _ v w a ha hshape x y
    obtain ⟨b, hb⟩ := exists_ofParts_of_sameShape ha hshape
    have hcombined : v.SameShape (v.combine x y w) := ⟨rfl, rfl, rfl⟩
    obtain ⟨c, hc⟩ := exists_ofParts_of_sameShape ha hcombined
    have hab := (sameParts_of_ofParts ha hb).sameStructure
    have hac := (sameParts_of_ofParts ha hc).sameStructure
    exact ⟨b, c, hb, hc, hab.sameOutcome a.mayGive_result b.mayGive_result,
      hac.sameOutcome a.mayGive_result c.mayGive_result,
      fun _ _ _ hgives hgives' hgives'' =>
        ⟨hab.sameOutcome hgives hgives', hac.sameOutcome hgives hgives''⟩⟩
  · intro α _ v w a b c x y ha hb hc A B C hA hB hC row column
    have hvalues : c.values = a.values.combine x y b.values := by
      rw [(result_ofParts_eq_ok_iff.mp ha).2.2.2.1, (result_ofParts_eq_ok_iff.mp hb).2.2.2.1,
        (result_ofParts_eq_ok_iff.mp hc).2.2.2.1]
    exact get?_combine (sameParts_of_ofParts ha hb) (sameParts_of_ofParts ha hc) hvalues
      (assembled_of_result_eq_ok hA) (assembled_of_result_eq_ok hB) (assembled_of_result_eq_ok hC)
      row column

/-- The assembler `chain` with values that cancel those of its first element. -/
def opposed : Assembler Int where
  kind := .h1
  restriction := chain.restriction
  template := chain.template
  values := {
    width := 2, slots := 2, numElements := 2
    data := #[-1, 1, 1, -1, 5, 0, 0, 0]
    size_eq := rfl }
  options := {}
  degree_le := chain.degree_le
  template_slots := chain.template_slots
  values_slots := chain.values_slots
  values_width := chain.values_width
  values_elements := chain.values_elements

/-- The sum of the values of `chain` and of `opposed`. The pair `(0, 1)` is stored with the value
zero. -/
theorem assembly_linear_opposed :
    ∃ c C, (ofParts .h1 chain.restriction chain.template
        (chain.values.combine 1 1 opposed.values) {}).result = .ok c ∧
      c.assembleWithoutEssential.result = .ok C ∧ C.get? 0 1 = some 0 ∧ C.get? 1 1 = some 7 := by
  obtain ⟨houtcome, hentries⟩ := assembly_linear .h1 chain.restriction chain.template {}
  have ha := (result_ofParts_eq_ok_iff (a := chain)).mpr ⟨rfl, rfl, rfl, rfl, rfl⟩
  have hb := (result_ofParts_eq_ok_iff (a := opposed)).mpr ⟨rfl, rfl, rfl, rfl, rfl⟩
  obtain ⟨_, c, -, hc, -, hsame, -⟩ :=
    houtcome chain.values opposed.values chain ha ⟨rfl, rfl, rfl⟩ 1 1
  obtain ⟨A, hA⟩ := exists_result_eq_ok (a := chain) (by decide +kernel) (by decide +kernel)
  obtain ⟨B, hB⟩ := exists_result_eq_ok (a := opposed) (by decide +kernel) (by decide +kernel)
  rw [hA] at hsame
  cases hC : c.assembleWithoutEssential.result with
  | error error =>
    rw [hC] at hsame
    cases hsame
  | ok C =>
    have hget := hentries chain.values opposed.values chain opposed c 1 1 ha hb hc A B C hA hB hC
    have hA' := assembled_of_result_eq_ok hA
    have hB' := assembled_of_result_eq_ok hB
    refine ⟨c, C, hc, hC, ?_, ?_⟩
    · rw [hget,
        hA'.get?_of_writes Int.zero_add (e := 0) (i := 0) (j := 1) (by decide +kernel),
        hB'.get?_of_writes Int.zero_add (e := 0) (i := 0) (j := 1) (by decide +kernel)]
      decide +kernel
    · rw [hget,
        hA'.get?_of_writes Int.zero_add (e := 0) (i := 1) (j := 1) (by decide +kernel),
        hB'.get?_of_writes Int.zero_add (e := 0) (i := 1) (j := 1) (by decide +kernel)]
      decide +kernel

end Assembler

end FemAssembly
