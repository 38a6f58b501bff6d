/-!
# Double-precision numbers

A double-precision number is held in its 64 bits, so that not-a-number values (NaNs) with different
signs and payloads stay apart when they travel. Numbers are calculated with by the machine.

* `Binary64.combine`: an operation of two numbers. It passes the first NaN on, made quiet, and gives
  `Binary64.invalid` where numbers have no result, as in `∞ - ∞`.
* The comparisons are those of the values: a NaN is not equal to itself, and `-0` equals `0`.
-/

namespace FemAssembly

/-- A double-precision number, as its 64 `bits`. -/
structure Binary64 where
  bits : UInt64
  deriving Repr

namespace Binary64

/-- The NaN that is the answer of an operation without a result. -/
def invalid : Binary64 := ⟨0xfff8000000000000⟩

/-- Without the sign, the bits of `x` are past those of an infinity. -/
def isNaN (x : Binary64) : Bool := 0x7ff0000000000000 < x.bits &&& 0x7fffffffffffffff

/-- The quiet NaN with the sign and the payload of the NaN `x`. -/
def quiet (x : Binary64) : Binary64 := ⟨x.bits ||| 0x0008000000000000⟩

def toFloat (x : Binary64) : Float := .ofBits x.bits

def ofFloat (x : Float) : Binary64 := if x.isNaN then invalid else ⟨x.toBits⟩

/-- The result of `op` on `x` and `y`. Of two NaNs the one in `x` is passed on. -/
def combine (op : Float → Float → Float) (x y : Binary64) : Binary64 :=
  if x.isNaN then x.quiet
  else if y.isNaN then y.quiet
  else ofFloat (op x.toFloat y.toFloat)

instance : Zero Binary64 := ⟨⟨0⟩⟩

instance : One Binary64 := ⟨⟨0x3ff0000000000000⟩⟩

instance : NatCast Binary64 := ⟨fun n => ofFloat (Float.ofNat n)⟩

instance : Add Binary64 := ⟨combine (· + ·)⟩

instance : Sub Binary64 := ⟨combine (· - ·)⟩

instance : Mul Binary64 := ⟨combine (· * ·)⟩

instance : Div Binary64 := ⟨combine (· / ·)⟩

/-- The sign of `x` is reversed in `-x`, also that of a NaN. -/
instance : Neg Binary64 := ⟨fun x => ⟨x.bits ^^^ 0x8000000000000000⟩⟩

instance : BEq Binary64 := ⟨fun x y => x.toFloat == y.toFloat⟩

instance : LT Binary64 := ⟨fun x y => x.toFloat < y.toFloat⟩

instance : DecidableLT Binary64 := fun x y => inferInstanceAs (Decidable (x.toFloat < y.toFloat))

end Binary64

end FemAssembly
