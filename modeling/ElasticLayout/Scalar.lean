/-!
# Scalars

The arithmetic that the solver is written in.  Every numerical definition of this library is
generic over a scalar type, so that one definition is both run in double precision and read in
an exact ordered field.

* `Scalar` -- the operations the solver uses: field operations, decimal literals, comparisons,
  absolute value, square root, and the two tests that tell ordinary numbers from exceptional ones;
* `tolerance` -- the one tolerance of every zero test;
* `near` -- two scalars differ by less than the tolerance;
* `sum` -- a left-to-right sum, started at negative zero so that an empty sum has the sign that
  addition leaves alone;
* the instance for `Float`.

No law is assumed here: a statement about exact arithmetic picks a scalar type that is a field,
and a statement about every arithmetic leaves the type open.
-/

namespace ElasticLayout

/-- The operations the solver needs from its numbers. -/
class Scalar (α : Type) extends
    Zero α, One α, Add α, Sub α, Mul α, Div α, Neg α, OfScientific α, LT α, LE α, BEq α where
  /-- Strict comparison can be decided. -/
  decLt : ∀ a b : α, Decidable (a < b)
  /-- Comparison can be decided. -/
  decLe : ∀ a b : α, Decidable (a ≤ b)
  /-- Absolute value. -/
  abs : α → α
  /-- Square root. -/
  sqrt : α → α
  /-- The value stands for no number. -/
  isNaN : α → Bool
  /-- The value is a number, and not an infinite one. -/
  isFinite : α → Bool
  /-- The value of a quantity that has not been computed. -/
  nan : α
  /-- The largest finite value, used as the size of something without a limit. -/
  huge : α

namespace Scalar

variable {α : Type} [Scalar α]

instance (a b : α) : Decidable (a < b) := decLt a b

instance (a b : α) : Decidable (a ≤ b) := decLe a b

/-- The tolerance of every comparison with zero. -/
def tolerance : α := 1e-6

/-- Two scalars differ by less than the tolerance. -/
def near (a b : α) : Bool := abs (a - b) < (tolerance : α)

/-- Left-to-right sum.  The start is negative zero, the neutral element of signed addition. -/
def sum (xs : List α) : α := xs.foldl (· + ·) (-0)

end Scalar

instance : Scalar Float where
  zero := 0.0
  one := 1.0
  decLt := Float.decLt
  decLe := Float.decLe
  abs := Float.abs
  sqrt := Float.sqrt
  isNaN := Float.isNaN
  isFinite := Float.isFinite
  nan := 0.0 / 0.0
  huge := 1.7976931348623157e308

end ElasticLayout
