import ElasticLayout.Decimal.Magnitude

/-!
# The fewest digits that read back

A decimal reads back to a floating-point value if it lies in the interval of reals that round to
that value: from halfway to the neighbour below to halfway to the neighbour above, ends included
just in case the significand is even.

* `Tie` -- what happens to a value halfway between two candidates;
* `readsBack` -- a decimal lies in the interval of a value;
* `order` -- the least power of ten above a value;
* `shortest` -- on the coarsest decimal grid that meets the interval, the grid point nearest to the
  value, without trailing zeros.
-/

namespace ElasticLayout.Decimal

/-- The choice between two equally close candidates. -/
inductive Tie where
  /-- The larger one. -/
  | up
  /-- The one with an even last digit. -/
  | toEven
deriving DecidableEq

namespace Digits

/-- Numerator of the power of ten. -/
def unitNumerator (scale : Int) : Nat := Nat.pow 10 scale.toNat

/-- Denominator of the power of ten. -/
def unitDenominator (scale : Int) : Nat := Nat.pow 10 (-scale).toNat

/-- Remove trailing zeros, at most `fuel` of them. -/
def strip (d : Digits) : Nat → Digits
  | 0 => d
  | fuel + 1 => if d.value % 10 = 0 then strip ⟨d.value / 10, d.scale + 1⟩ fuel else d

end Digits

namespace Magnitude

open Digits

/-- The decimal lies among the reals that round to the value.  Both sides are four times the
quantities compared, over a common denominator. -/
def readsBack (v : Magnitude) (d : Digits) : Bool :=
  let point := 4 * v.denominator * d.value * unitNumerator d.scale
  let below := if v.narrowBelow then v.gap else 2 * v.gap
  let low := (4 * v.numerator - below) * unitDenominator d.scale
  let high := (4 * v.numerator + 2 * v.gap) * unitDenominator d.scale
  if v.significand % 2 = 0 then low ≤ point && point ≤ high else low < point && point < high

/-- The value is less than a power of ten. -/
def isBelow (v : Magnitude) (power : Int) : Bool :=
  v.numerator * unitDenominator power < v.denominator * unitNumerator power

/-- The least power of ten above a positive value: an estimate from the binary logarithm, which is
short by at most three, and exact comparisons. -/
def order (v : Magnitude) : Int :=
  let estimate := ((Nat.log2 v.significand : Int) + v.exponent) * 30103 / 100000
  (([0, 1, 2].map (estimate + ·)).find? v.isBelow).getD (estimate + 3)

/-- Choose between the grid points around the value, of which at least one reads back. -/
def nearest? (tie : Tie) (v : Magnitude) (scale : Int) : Option Digits :=
  let lower : Digits :=
    ⟨v.numerator * unitDenominator scale / (v.denominator * unitNumerator scale), scale⟩
  let upper : Digits := ⟨lower.value + 1, scale⟩
  match v.readsBack lower, v.readsBack upper with
  | false, false => none
  | true, false => some lower
  | false, true => some upper
  | true, true =>
    let twice := 2 * v.numerator * unitDenominator scale
    let middle := (2 * lower.value + 1) * v.denominator * unitNumerator scale
    if twice < middle then some lower
    else if middle < twice then some upper
    else match tie with
      | .up => some upper
      | .toEven => some (if lower.value % 2 = 0 then lower else upper)

/-- The value itself as a decimal. -/
def exact (v : Magnitude) : Digits :=
  ⟨v.numerator * Nat.pow 5 (-v.exponent).toNat, min v.exponent 0⟩

/-- The fewest digits that read back to a positive value, and of those the nearest.  Seventeen
digits always suffice. -/
def shortest (tie : Tie) (v : Magnitude) : Digits :=
  let scales := (List.range 17).map fun n : Nat => v.order - 1 - n
  ((scales.findSome? (v.nearest? tie)).getD v.exact).strip 17

end Magnitude

end ElasticLayout.Decimal
