import FemAssembly.Binary64
import FemAssembly.Word

/-!
# Gauss-Lobatto points

The nodes of an element of order `n` lie at the Gauss-Lobatto points of `[0, 1]`: the two ends and
the images of the zeros of the derivative of the Legendre polynomial of degree `n`. They are found
by Newton's iteration from the Chebyshev points.

* `legendre`: the Legendre polynomials of degrees `n` and `n - 1` at a point.
* `gaussLobattoPoints`: the points, in increasing order.
-/

namespace FemAssembly

/-- From the values of two successive Legendre polynomials at `x`, of degrees `k - 2` and `k - 1`,
go on to the next `count` degrees by the three-term recurrence. -/
def legendreFrom (x : Float) (k count : Nat) (lower upper : Float) : Float × Float :=
  match count with
  | 0 => (lower, upper)
  | count + 1 =>
    let degree := Float.ofNat k
    let next := ((2.0 * degree - 1.0) * x * upper - (degree - 1.0) * lower) / degree
    legendreFrom x (k + 1) count upper next

/-- The Legendre polynomials of degrees `n - 1` and `n` at `x`, for a positive `n`. -/
def legendre (n : Nat) (x : Float) : Float × Float := legendreFrom x 2 (n - 1) 1.0 x

/-- The step of Newton's iteration at `x` for degree `n`. -/
def newtonStep (n : Nat) (x : Float) : Float :=
  let (lower, upper) := legendre n x
  (x * upper - lower) / (Float.ofNat (n + 1) * upper)

/-- Newton's iteration for all `points` at once, at most `rounds` times. It ends after a round in
which no point moves by `1e-15` or more. -/
def newton (n : Nat) (points : List Float) : (rounds : Nat) → List Float
  | 0 => points
  | rounds + 1 =>
    let steps := points.map (newtonStep n)
    let moved := List.zipWith (· - ·) points steps
    let largest : Float :=
      steps.foldl (fun largest step => if largest < step.abs then step.abs else largest) 0.0
    if largest < 1e-15 then moved else newton n moved rounds

/-- The ratio of a circle's circumference to its diameter. -/
def pi : Float := 3.141592653589793

/-- The Gauss-Lobatto points of a positive `order` on `[0, 1]`, which have to fit into an array. -/
def gaussLobattoPoints (order : Nat) : Except Error (List Binary64) := do
  if order = 0 then .error (.fault (.broken .positiveOrder))
  else
    Word.reserve (order + 1) 8
    let chebyshev := (List.range (order + 1)).map fun i =>
      Float.cos (pi * Float.ofNat i / Float.ofNat order)
    pure ((newton order chebyshev 100).map fun x => .ofFloat (0.5 * (1.0 - x)))

end FemAssembly
