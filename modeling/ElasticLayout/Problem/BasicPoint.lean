import ElasticLayout.EquationSystem
import ElasticLayout.Outcome
import ElasticLayout.Problem.Basic

/-!
# Basic points by elimination

The hard rows with one slack column per inequality make up an equation system.  Its basic solution
meets every row with some sign of the slacks; it is a start for the optimization if it happens to
keep the inequalities too.

* `Problem.slackCount`, `Problem.slackColumn` -- numbering of the slack columns;
* `Problem.slackSystem?` -- the equation system, none if a row is longer than the system is wide;
* `Problem.basicPoint` -- the basic solution, if elimination finds one.
-/

namespace ElasticLayout

open Linear

variable {α : Type} [Scalar α]

namespace Problem

/-- The number of inequalities among the first hard rows: the slacks that come before that of row
`r`. -/
def slackCount (p : Problem α) (r : Nat) : Nat :=
  (p.hard.take r).countP fun row => !row.isEquality

/-- The column of the slack of a hard row, behind those of the variables. -/
def slackColumn (p : Problem α) (r : Nat) : Nat := p.variableCount + p.slackCount r

/-- The coefficients of a hard row with its slack: added to what is at most the right side, and
taken from what is at least the right side. -/
def slackedCells (p : Problem α) (r : p.Row) (width : Nat) : Vector α width :=
  let row := p.row r
  Vector.ofFn fun k =>
    if k.val = p.slackColumn r then
      match row.relation with
      | .le => 1
      | .ge => -1
      | .eq => row.coefficients.getD k 0
    else row.coefficients.getD k 0

/-- The hard rows as equations.  As many slack columns are set aside as there are rows. -/
def slackSystem? (p : Problem α) :
    Option (EquationSystem p.hard.length (p.variableCount + p.hard.length) α) :=
  let width := p.variableCount + p.hard.length
  if p.hard.all fun row => row.coefficients.length ≤ width then
    some (.ofCells (Vector.ofFn fun r => p.slackedCells r width)
      (Vector.ofFn fun r => (p.row r).rhs))
  else none

/-- The basic solution of the hard rows; none if some row finds no pivot. -/
def basicPoint (p : Problem α) : Except SolveError (Option p.Point) :=
  match p.slackSystem? with
  | none => .error .malformedRow
  | some system =>
    let reduced := system.removeDependentRows.removeUnusedColumns.gaussJordan
    .ok (if reduced.2 then some (reduced.1.basicSolution p.variableCount) else none)

end Problem

end ElasticLayout
