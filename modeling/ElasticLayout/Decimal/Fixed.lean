import ElasticLayout.Decimal.Magnitude

/-!
# Decimals with a set number of places

The exact binary value is rounded to a number of decimal places; a value halfway between two
decimals goes to the one with an even last digit.

* `roundDiv` -- a quotient rounded to the nearest natural, ties to even;
* `fixed` -- the text of a float with a set number of places;
* `padLeft`, `padRight` -- fill a text up to a width in characters.
-/

namespace ElasticLayout.Decimal

/-- The natural nearest to a quotient; a tie goes to the even neighbour. -/
def roundDiv (numerator denominator : Nat) : Nat :=
  let quotient := numerator / denominator
  let twice := 2 * (numerator % denominator)
  if twice < denominator then quotient
  else if denominator < twice then quotient + 1
  else quotient + quotient % 2

/-- Blanks before a text, up to a width in characters. -/
def padLeft (width : Nat) (text : String) : String :=
  "".pushn ' ' (width - text.length) ++ text

/-- Blanks behind a text, up to a width in characters. -/
def padRight (width : Nat) (text : String) : String :=
  text.pushn ' ' (width - text.length)

/-- A natural number of units of the last place, written with a decimal point. -/
def placed (places units : Nat) : String :=
  let digits := String.ofList (Nat.toDigits 10 units)
  let padded := "".pushn '0' (places + 1 - digits.length) ++ digits
  let whole := padded.toList.take (padded.length - places)
  let fraction := padded.toList.drop (padded.length - places)
  if places = 0 then padded else String.ofList whole ++ "." ++ String.ofList fraction

/-- A float with a set number of decimal places.  The sign is kept where the digits are zero. -/
def fixed (places : Nat) (x : Float) : String :=
  match Numeral.ofFloat x with
  | .nan => "NaN"
  | .infinite negative => if negative then "-inf" else "inf"
  | .finite negative v =>
    let text := placed places (roundDiv (v.numerator * Nat.pow 10 places) v.denominator)
    if negative then "-" ++ text else text

end ElasticLayout.Decimal
