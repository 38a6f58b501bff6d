/-!
# Offsets

The exclusive running totals of a list of counts: where each of several lists starts when they are
stored one after the other, and where the last one ends.

* `total`: the sum of the counts.
* `offsets`: one entry more than there are counts.
* `getElem_offsets`: entry `i` is the sum of the first `i` counts.
-/

namespace FemAssembly

/-- The sum of `counts`. -/
def total (counts : List Nat) : Nat := counts.foldr (· + ·) 0

/-- The running totals of a list of counts, from `start` on: `start`, then `start` and the first
count, and so on. -/
def offsetsFrom (start : Nat) : List Nat → List Nat
  | [] => [start]
  | count :: counts => start :: offsetsFrom (start + count) counts

def offsets (counts : List Nat) : List Nat := offsetsFrom 0 counts

@[simp] theorem length_offsetsFrom (start : Nat) (counts : List Nat) :
    (offsetsFrom start counts).length = counts.length + 1 := by
  induction counts generalizing start with
  | nil => rfl
  | cons count counts ih => simp [offsetsFrom, ih]

@[simp] theorem length_offsets (counts : List Nat) :
    (offsets counts).length = counts.length + 1 := length_offsetsFrom 0 counts

theorem getElem_offsetsFrom (start : Nat) (counts : List Nat) (i : Nat)
    (h : i < (offsetsFrom start counts).length) :
    (offsetsFrom start counts)[i] = start + total (counts.take i) := by
  induction counts generalizing start i with
  | nil =>
    have : i = 0 := by simpa [offsetsFrom] using h
    subst this
    rfl
  | cons count counts ih =>
    cases i with
    | zero => rfl
    | succ i => simp [offsetsFrom, ih, total, Nat.add_assoc]

theorem getElem_offsets (counts : List Nat) (i : Nat) (h : i < (offsets counts).length) :
    (offsets counts)[i] = total (counts.take i) := by
  simp [offsets, getElem_offsetsFrom]

end FemAssembly
