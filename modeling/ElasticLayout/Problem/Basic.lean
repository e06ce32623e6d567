import ElasticLayout.Linear.Dense

/-!
# Quadratic problems with linear constraints

Rows that must hold, and rows that should hold at a quadratic cost.

* `Relation` -- at most, at least, equal;
* `HardRow`, `SoftRow`, `Problem` -- the problem;
* `HardRow.isSatisfied`, `Problem.isFeasible` -- whether a point keeps the hard rows within a
  tolerance;
* `weightFor` -- the weight of a soft row with two directional penalties.
-/

namespace ElasticLayout

open Linear

/-- How the left side of a row compares with its right side. -/
inductive Relation where
  /-- At most. -/
  | le
  /-- At least. -/
  | ge
  /-- Equal. -/
  | eq
deriving DecidableEq, Inhabited

namespace Relation

/-- The sign of comparison. -/
def symbol : Relation → String
  | le => "<="
  | ge => ">="
  | eq => "="

/-- The name in data files. -/
def name : Relation → String
  | le => "le"
  | ge => "ge"
  | eq => "eq"

/-- Read a name or a sign of comparison. -/
def ofName? (text : String) : Option Relation :=
  [le, ge, eq].find? fun relation => relation.name == text || relation.symbol == text

/-- The factor that turns a row into a lower bound. -/
def sign {α : Type} [Scalar α] : Relation → α
  | le => -1
  | ge | eq => 1

end Relation

/-- A row that must hold. -/
structure HardRow (α : Type) where
  /-- One coefficient per column; missing ones count as zero. -/
  coefficients : List α
  /-- Comparison of the two sides. -/
  relation : Relation
  /-- Right side. -/
  rhs : α

/-- A row `coefficients · x = rhs` that should hold. -/
structure SoftRow (α : Type) where
  /-- One coefficient per column; missing ones count as zero. -/
  coefficients : List α
  /-- Target value. -/
  rhs : α
  /-- Factor of the deviation, before it is squared. -/
  weight : α

/-- A quadratic problem over a number of columns. -/
structure Problem (α : Type) where
  /-- Number of columns. -/
  variableCount : Nat
  /-- Rows that must hold. -/
  hard : List (HardRow α)
  /-- Rows that should hold. -/
  soft : List (SoftRow α)

variable {α : Type} [Scalar α]

namespace HardRow

/-- The row has to be met exactly. -/
def isEquality (row : HardRow α) : Bool := row.relation == .eq

/-- Left side at a point. -/
def value (row : HardRow α) (x : List α) : α := dot row.coefficients x

/-- Left side at a point, as a lower bound. -/
def signedValue (row : HardRow α) (x : List α) : α := row.relation.sign * row.value x

/-- Right side, as a lower bound. -/
def signedRhs (row : HardRow α) : α := row.relation.sign * row.rhs

/-- The row holds at a point within a tolerance. -/
def isSatisfied (row : HardRow α) (x : List α) (tolerance : α) : Bool :=
  let excess := row.signedValue x - row.signedRhs
  match row.relation with
  | .eq => Scalar.abs excess < tolerance
  | .le | .ge => -tolerance < excess

end HardRow

/-- The weight that two directional penalties amount to: their sum, halved if both are positive. -/
def weightFor (above below : α) : α :=
  let weight : α := 0
  let weight := if 0 < above then weight + above else weight
  let weight := if 0 < below then weight + below else weight
  if 0 < above ∧ 0 < below then weight / 2.0 else weight

namespace Problem

/-- Number of rows. -/
def rowCount (p : Problem α) : Nat := p.hard.length + p.soft.length

/-- Hard rows by position. -/
abbrev Row (p : Problem α) := Fin p.hard.length

/-- The hard row at a position. -/
def row (p : Problem α) (r : p.Row) : HardRow α := p.hard.get r

/-- A point of the problem. -/
abbrev Point (p : Problem α) := Vector α p.variableCount

/-- The point with given coordinates, one per column. -/
def point? (p : Problem α) (coordinates : List α) : Option p.Point :=
  if h : coordinates.length = p.variableCount then some ⟨coordinates.toArray, by simpa using h⟩
  else none

/-- All hard rows hold at a point within a tolerance. -/
def isFeasible (p : Problem α) (x : p.Point) (tolerance : α) : Bool :=
  p.hard.all (·.isSatisfied x.toList tolerance)

end Problem

end ElasticLayout
