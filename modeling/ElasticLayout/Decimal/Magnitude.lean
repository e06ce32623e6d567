/-!
# Floating-point values as exact numbers

* `Magnitude` -- a finite non-negative value, a significand times a power of two;
* `Magnitude.numerator`, `Magnitude.denominator` -- the same as a fraction of naturals;
* `Numeral` -- what the bits of a float stand for;
* `Digits` -- a decimal, digits times a power of ten.
-/

namespace ElasticLayout.Decimal

/-- A finite non-negative floating-point value, `significand * 2 ^ exponent`. -/
structure Magnitude where
  /-- Integral significand. -/
  significand : Nat
  /-- Binary exponent. -/
  exponent : Int
  /-- The next smaller value is only half as far away as the next larger one. -/
  narrowBelow : Bool
deriving DecidableEq

namespace Magnitude

/-- Numerator of the value, over `denominator`. -/
def numerator (v : Magnitude) : Nat := v.significand * Nat.pow 2 v.exponent.toNat

/-- A power of two under which the value is a fraction of naturals. -/
def denominator (v : Magnitude) : Nat := Nat.pow 2 (-v.exponent).toNat

/-- Distance to the next larger value, over `denominator`. -/
def gap (v : Magnitude) : Nat := Nat.pow 2 v.exponent.toNat

end Magnitude

/-- What a float stands for. -/
inductive Numeral where
  /-- No number. -/
  | nan
  /-- An infinity. -/
  | infinite (negative : Bool)
  /-- A finite number; zero has two signs. -/
  | finite (negative : Bool) (magnitude : Magnitude)
deriving DecidableEq

namespace Numeral

/-- Decode the bits of a double-precision value: sign, eleven bits of exponent, and fifty-two bits
of fraction. -/
def ofBits (bits : UInt64) : Numeral :=
  let negative := (bits >>> 63) == 1
  let exponent := ((bits >>> 52) &&& 0x7ff).toNat
  let fraction := (bits &&& 0xfffffffffffff).toNat
  if exponent = 0x7ff then
    if fraction = 0 then .infinite negative else .nan
  else if exponent = 0 then .finite negative ⟨fraction, -1074, false⟩
  else .finite negative
    ⟨Nat.pow 2 52 + fraction, (exponent : Int) - 1075, fraction == 0 && exponent != 1⟩

/-- Decode a float. -/
def ofFloat (x : Float) : Numeral := ofBits x.toBits

end Numeral

/-- A decimal, `value * 10 ^ scale`. -/
structure Digits where
  /-- The digits read as a natural number. -/
  value : Nat
  /-- Decimal exponent. -/
  scale : Int
deriving DecidableEq

end ElasticLayout.Decimal
