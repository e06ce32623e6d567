import ElasticLayout.Decimal.Shortest

/-!
# Layout of shortest decimals

The digits of a float are those of `Magnitude.shortest`; how they are laid out is a matter of style.

* `Style` -- the decisions of a layout;
* `Style.layout` -- the text of positive digits;
* `Style.render` -- the text of a float;
* `plain` -- positional at every size, whole numbers without a point;
* `interchange` -- positional in a middle range, whole numbers with one decimal place, and a signed
  exponent elsewhere.
-/

namespace ElasticLayout.Decimal

/-- The decisions of a number layout. -/
structure Style where
  /-- Choice between two equally close decimals. -/
  tie : Tie
  /-- Which numbers `0.d… * 10 ^ k` are written positionally. -/
  isPositional : Int → Bool
  /-- What follows the digits of a whole number. -/
  wholeSuffix : String
  /-- Text of a value that is no number. -/
  nan : String
  /-- Text of positive infinity. -/
  infinity : String
  /-- Text before an infinity below zero. -/
  negativeInfinity : String

namespace Style

/-- Lay out the digits of a positive number. -/
def layout (style : Style) (d : Digits) : String :=
  let digits := Nat.toDigits 10 d.value
  let point : Int := digits.length + d.scale
  if style.isPositional point then
    if point ≤ 0 then "0." ++ "".pushn '0' (-point).toNat ++ String.ofList digits
    else if 0 ≤ d.scale then
      String.ofList digits ++ "".pushn '0' d.scale.toNat ++ style.wholeSuffix
    else
      String.ofList (digits.take point.toNat) ++ "." ++ String.ofList (digits.drop point.toNat)
  else
    let fraction := String.ofList (digits.drop 1)
    let power := point - 1
    String.ofList (digits.take 1) ++ (if fraction.isEmpty then "" else "." ++ fraction) ++ "e"
      ++ (if power < 0 then "-" else "+") ++ toString power.natAbs

/-- Lay out a float. -/
def render (style : Style) (x : Float) : String :=
  match Numeral.ofFloat x with
  | .nan => style.nan
  | .infinite negative => if negative then style.negativeInfinity else style.infinity
  | .finite negative v =>
    let text := if v.significand = 0 then "0" ++ style.wholeSuffix
      else style.layout (v.shortest style.tie)
    if negative then "-" ++ text else text

end Style

/-- Messages and listings write every number positionally. -/
def plain : Style where
  tie := .up
  isPositional _ := true
  wholeSuffix := ""
  nan := "NaN"
  infinity := "inf"
  negativeInfinity := "-inf"

/-- Data files write numbers from `10 ^ -5` up to `10 ^ 16` positionally, with at least one decimal
place, and have no text for a value that is not finite. -/
def interchange : Style where
  tie := .toEven
  isPositional point := -5 < point && point ≤ 16
  wholeSuffix := ".0"
  nan := "null"
  infinity := "null"
  negativeInfinity := "null"

end ElasticLayout.Decimal
