import FemAssembly.Error

/-!
# Sizes in machine words

Indices and sizes are natural numbers in this library. Where a size can leave the range of a 64-bit
machine word, it is computed with the operations below, which refuse a result that is no word.

* `Word.add`, `Word.mul`, `Word.pow`: the exact result, or an overflow.
* `Word.reserve`: whether an array of a given length can exist at all.
* `Word.orFault`: an optional element, where its absence is a request outside the array.
* `Word.fit_ne_error`, `Word.pow_ne_error`, `Word.reserve_ne_error`: a size fails as an overflow,
  and in no other way.
-/

namespace FemAssembly

namespace Word

/-- One past the largest machine word: `2 ^ 64`. -/
def bound : Nat := 18446744073709551616

/-- One past the largest signed machine word: `2 ^ 63`. -/
def signedBound : Nat := 9223372036854775808

/-- The number `n`, if it is a machine word. -/
def fit (n : Nat) : Except Error Nat :=
  if n < bound then .ok n else .error (.fault .overflow)

def add (a b : Nat) : Except Error Nat := fit (a + b)

def mul (a b : Nat) : Except Error Nat := fit (a * b)

/-- The power `base ^ exponent`, if it is a machine word. With 64 factors or more it is one for the
bases `0` and `1` only, which are their own powers. -/
def pow (base exponent : Nat) : Except Error Nat :=
  if exponent < 64 then fit (Nat.pow base exponent)
  else if base ≤ 1 then .ok base
  else .error (.fault .overflow)

/-- An array of `length` elements of `width` bytes can exist: `length * width` is a signed word. -/
def reserve (length width : Nat) : Except Error Unit :=
  if length * width < signedBound then .ok () else .error (.fault .overflow)

/-- The element `a` of `some a`; with `none` it was asked for outside the array. -/
def orFault {α : Type _} : Option α → Except Error α
  | some a => .ok a
  | none => .error (.fault .outOfRange)

theorem fit_eq_ok_iff {n m : Nat} : fit n = .ok m ↔ n < bound ∧ m = n := by
  unfold fit
  split
  · simp_all [eq_comm]
  · exact ⟨nofun, fun h => absurd h.1 (by assumption)⟩

theorem fit_ne_error {n : Nat} {error : Error} (h : error ≠ .fault .overflow) :
    fit n ≠ .error error := by
  unfold fit
  split
  · nofun
  · exact fun heq => h (Except.error.inj heq).symm

theorem pow_ne_error {base exponent : Nat} {error : Error} (h : error ≠ .fault .overflow) :
    pow base exponent ≠ .error error := by
  unfold pow
  split
  · exact fit_ne_error h
  · split
    · nofun
    · exact fun heq => h (Except.error.inj heq).symm

theorem reserve_ne_error {length width : Nat} {error : Error} (h : error ≠ .fault .overflow) :
    reserve length width ≠ .error error := by
  unfold reserve
  split
  · nofun
  · exact fun heq => h (Except.error.inj heq).symm

theorem lt_bound {n : Nat} (h : n < signedBound) : n < bound := by
  unfold signedBound at h
  unfold bound
  omega

theorem add_eq_ok {a b : Nat} (h : a + b < bound) : add a b = .ok (a + b) := if_pos h

theorem mul_eq_ok {a b : Nat} (h : a * b < bound) : mul a b = .ok (a * b) := if_pos h

theorem reserve_eq_ok {length width : Nat} (h : length * width < signedBound) :
    reserve length width = .ok () := if_pos h

theorem reserve_eq_ok_iff {length width : Nat} :
    reserve length width = .ok () ↔ length * width < signedBound := by
  unfold reserve
  split <;> simp [*]

@[simp] theorem orFault_some {α : Type _} (a : α) : orFault (some a) = .ok a := rfl

@[simp] theorem orFault_none {α : Type _} :
    orFault (none : Option α) = .error (.fault .outOfRange) := rfl

end Word

end FemAssembly
