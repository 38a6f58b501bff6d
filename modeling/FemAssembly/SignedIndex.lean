import FemAssembly.Word

/-!
# Signed indices

Vector-valued elements see a degree of freedom (DOF) with an orientation. The orientation is folded
into the index: a raw value `v ≥ 0` is index `v` with positive orientation, and `v < 0` is index
`-1 - v`, the bitwise complement, with reversed orientation.

* `SignedIndex.encode`: the index of an index and an orientation. An index past the signed range
  wraps around, as the machine's conversion does.
* `SignedIndex.index`, `SignedIndex.isReversed`: the two parts of a signed index.
* `SignedIndex.toInt_encode`: the raw value of an index below `2 ^ 63`.
* `SignedIndex.index_encode`, `SignedIndex.isReversed_encode`: encoding an index below `2 ^ 63`
  keeps both parts.
-/

namespace FemAssembly

/-- An index that carries an orientation in its sign. -/
structure SignedIndex where
  raw : Int64
  deriving DecidableEq, Repr

namespace SignedIndex

/-- The signed index of `index`, taken as a machine word: its complement if `reversed`. -/
def encode (index : Nat) (reversed : Bool) : SignedIndex :=
  ⟨if reversed then ~~~(Int64.ofNat index) else Int64.ofNat index⟩

def positive (index : Nat) : SignedIndex := encode index false

def reversed (index : Nat) : SignedIndex := encode index true

def isReversed (s : SignedIndex) : Bool := s.raw.toInt < 0

/-- The index of `s`, whatever the orientation. -/
def index (s : SignedIndex) : Nat :=
  if s.isReversed then (-1 - s.raw.toInt).toNat else s.raw.toInt.toNat

def sameOrientation (s t : SignedIndex) : Bool := s.isReversed == t.isReversed

/-- The factor between two orientations: `1` if `s` and `t` have the same, `-1` otherwise. -/
def relativeSign {α : Type} [One α] [Neg α] (s t : SignedIndex) : α :=
  if s.sameOrientation t then 1 else -1

/-- What `value` is through the orientation of `s`: `-value` if `s` is reversed. -/
def orient {α : Type} [Neg α] (s : SignedIndex) (value : α) : α :=
  if s.isReversed then -value else value

/-- The signed index of `index` with the orientation of `s`. -/
def withIndex (s : SignedIndex) (index : Nat) : SignedIndex := encode index s.isReversed

/-- The text of `s`: its orientation as `+` or `-`, and `s.index`. -/
def text (s : SignedIndex) : String :=
  (if s.isReversed then "-" else "+") ++ toString s.index

/-! ## Encoding -/

private theorem toInt_ofNat {index : Nat} (h : index < Word.signedBound) :
    (Int64.ofNat index).toInt = index := by
  rw [Int64.toInt_ofNat']
  simp only [Int.bmod_def, Int64.size]
  unfold Word.signedBound at h
  omega

private theorem toInt_complement (w : Int64) : (~~~w).toInt = -1 - w.toInt := by
  rw [Int64.toInt_not]
  have h1 := Int64.le_toInt w
  have h2 := Int64.toInt_lt w
  simp only [Int.bmod_def]
  omega

/-- The raw value of `encode index r`, for an `index` below `2 ^ 63`. -/
theorem toInt_encode {index : Nat} (h : index < Word.signedBound) (r : Bool) :
    (encode index r).raw.toInt = if r then -1 - (index : Int) else index := by
  cases r
  · simp [encode, toInt_ofNat h]
  · simp only [encode, if_true, toInt_complement, toInt_ofNat h]

theorem isReversed_encode {index : Nat} (h : index < Word.signedBound) (r : Bool) :
    (encode index r).isReversed = r := by
  rw [isReversed, toInt_encode h]
  cases r
  · simp only [Bool.false_eq_true, if_false]
    exact decide_eq_false (by omega)
  · simp only [if_true]
    exact decide_eq_true (by omega)

theorem index_encode {index : Nat} (h : index < Word.signedBound) (r : Bool) :
    (encode index r).index = index := by
  rw [SignedIndex.index, isReversed_encode h, toInt_encode h]
  cases r
  · simp only [Bool.false_eq_true, if_false, Int.toNat_natCast]
  · simp only [if_true]
    omega

theorem index_withIndex (s : SignedIndex) {index : Nat} (h : index < Word.signedBound) :
    (s.withIndex index).index = index :=
  index_encode h _

theorem isReversed_withIndex (s : SignedIndex) {index : Nat} (h : index < Word.signedBound) :
    (s.withIndex index).isReversed = s.isReversed :=
  isReversed_encode h _

end SignedIndex

end FemAssembly
