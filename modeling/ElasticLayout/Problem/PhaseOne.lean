import ElasticLayout.Outcome
import ElasticLayout.Problem.BasicPoint

/-!
# Feasible points by the simplex method

The variables are free, so each is the difference of two non-negative ones.  The columns of the
tableau are, in this order: the positive parts, the negative parts, one slack for each inequality,
and one artificial variable for each row that has no slack to start from.  Rows are flipped to a
non-negative right side.  The objective is to make the artificial variables vanish.

* `Line`, `Tableau` -- rows with their right sides, the basis and the objective row;
* `Problem.tableau?` -- the first tableau, none if a row is longer than it is wide;
* `Tableau.pivotColumn?`, `Tableau.pivotRow?`, `Tableau.pivot` -- one step;
* `Tableau.reduce` -- steps up to a limit, and `Tableau.trajectory` -- the pivots they choose;
* `Tableau.infeasibility`, `Tableau.point` -- what is read off the last tableau;
* `Problem.feasiblePoint` -- a point that keeps all hard rows.
-/

namespace ElasticLayout

open Linear

variable {α : Type}

/-- A row of a tableau. -/
structure Line (width : Nat) (α : Type) where
  /-- One entry per column. -/
  cells : Vector α width
  /-- Right side. -/
  rhs : α

/-- A simplex tableau over `n` variables, `h` rows and `width` columns. -/
structure Tableau (n h width : Nat) (α : Type) where
  /-- One line per hard row. -/
  lines : Vector (Line width α) h
  /-- The basic column of each line. -/
  basis : Vector Nat h
  /-- Reduced costs, and the value of the objective. -/
  objective : Line width α
  /-- The first artificial column. -/
  artificialStart : Nat

variable [Scalar α]

namespace HardRow

/-- The factor that makes the right side of a row non-negative. -/
def flip (row : HardRow α) : α := if row.rhs < 0 then -1 else 1

/-- The coefficient of the slack in the flipped row; an equality has none. -/
def slackCoefficient? (row : HardRow α) : Option α :=
  match row.relation with
  | .le => some row.flip
  | .ge => some (-row.flip)
  | .eq => none

/-- No slack can start in the basis. -/
def needsArtificial (row : HardRow α) : Bool :=
  match row.slackCoefficient? with
  | some coefficient => !decide (0 < coefficient)
  | none => true

end HardRow

namespace Line

variable {width : Nat}

/-- Entrywise sum. -/
def add (a b : Line width α) : Line width α :=
  ⟨a.cells.zipWith (· + ·) b.cells, a.rhs + b.rhs⟩

/-- Entrywise quotient by one number. -/
def divide (a : Line width α) (divisor : α) : Line width α :=
  ⟨a.cells.map (· / divisor), a.rhs / divisor⟩

/-- Take a multiple of the pivot line away, so that the entry in a column vanishes. -/
def clear (column : Fin width) (pivot a : Line width α) : Line width α :=
  let factor := a.cells.get column
  if factor == 0 then a
  else ⟨a.cells.zipWith (fun x p => x - factor * p) pivot.cells, a.rhs - factor * pivot.rhs⟩

end Line

/-! ### The first tableau -/

namespace Problem

/-- The number of artificial variables of the first hard rows. -/
def artificialCount (p : Problem α) (r : Nat) : Nat := (p.hard.take r).countP (·.needsArtificial)

/-- The first artificial column, behind both parts of the variables and the slacks. -/
def artificialStart (p : Problem α) : Nat :=
  2 * p.variableCount + p.slackCount p.hard.length

/-- The number of columns of the tableau. -/
def tableauWidth (p : Problem α) : Nat := p.artificialStart + p.artificialCount p.hard.length

/-- The tableau column of the slack of a hard row. -/
def tableauSlack (p : Problem α) (r : Nat) : Nat := 2 * p.variableCount + p.slackCount r

/-- The column of the artificial variable of a hard row. -/
def tableauArtificial (p : Problem α) (r : Nat) : Nat := p.artificialStart + p.artificialCount r

/-- The entry that the coefficients of a hard row give to a column: a coefficient where the column
is the positive part of its variable, and the opposite where it is the negative part.  A row with
more coefficients than variables runs on, and the later coefficient counts. -/
def partEntry (p : Problem α) (row : HardRow α) (k : Nat) : α :=
  let positive := row.coefficients[k]?
  let negative := if p.variableCount ≤ k then row.coefficients[k - p.variableCount]? else none
  match positive, negative with
  | none, none => 0
  | some c, none => row.flip * c
  | none, some c => -row.flip * c
  | some c, some c' => if p.variableCount = 0 then -row.flip * c' else row.flip * c

/-- The flipped row with its slack and its artificial variable. -/
def tableauLine (p : Problem α) (r : p.Row) : Line p.tableauWidth α :=
  let row := p.row r
  { cells := Vector.ofFn fun k =>
      if row.needsArtificial ∧ k.val = p.tableauArtificial r then 1
      else match row.slackCoefficient? with
        | some coefficient =>
          if k.val = p.tableauSlack r then coefficient else p.partEntry row k
        | none => p.partEntry row k
    rhs := row.flip * row.rhs }

/-- The column that is basic in a hard row at first. -/
def firstBasic (p : Problem α) (r : p.Row) : Nat :=
  if (p.row r).needsArtificial then p.tableauArtificial r else p.tableauSlack r

/-- The costs of the artificial variables before those of the basic ones are priced out. -/
def artificialCosts (p : Problem α) : Line p.tableauWidth α :=
  ⟨Vector.ofFn fun k => if p.artificialStart ≤ k.val then -1 else 0, 0⟩

/-- The first tableau; none if a row runs beyond its end. -/
def tableau? (p : Problem α) :
    Option (Tableau p.variableCount p.hard.length p.tableauWidth α) :=
  let fits (row : HardRow α) : Bool :=
    row.coefficients.isEmpty
      || p.variableCount + row.coefficients.length ≤ p.tableauWidth + 1
  if p.hard.all fits then
    let lines := Vector.ofFn p.tableauLine
    some
      { lines
        basis := Vector.ofFn p.firstBasic
        objective := ((List.finRange p.hard.length).filter fun r => (p.row r).needsArtificial).foldl
          (fun costs r => costs.add (lines.get r)) p.artificialCosts
        artificialStart := p.artificialStart }
  else none

end Problem

/-! ### Steps -/

namespace Tableau

variable {n h width : Nat}

/-- The column with the largest reduced cost above the tolerance, the first of several. -/
def pivotColumn? (t : Tableau n h width α) : Option (Fin width) :=
  ((List.finRange width).foldl
    (fun (best : α × Option (Fin width)) k =>
      if best.1 < t.objective.cells.get k then (t.objective.cells.get k, some k) else best)
    (Scalar.tolerance, none)).2

/-- A ratio is less than the least one so far, or the first that is finite. -/
def improves (ratio : α) (best : Option (α × Fin h)) : Bool :=
  match best with
  | some (least, _) => ratio < least
  | none => Scalar.isFinite ratio

/-- The row with the smallest non-negative ratio of its right side to its entry in a column, among
the entries above the tolerance; the first of several. -/
def pivotRow? (t : Tableau n h width α) (column : Fin width) : Option (Fin h) :=
  ((List.finRange h).foldl
    (fun (best : Option (α × Fin h)) i =>
      let entry : α := (t.lines.get i).cells.get column
      let ratio := (t.lines.get i).rhs / entry
      if Scalar.tolerance < entry ∧ 0 ≤ ratio ∧ improves ratio best then some (ratio, i) else best)
    none).map (·.2)

/-- Make a column basic in a row. -/
def pivot (t : Tableau n h width α) (row : Fin h) (column : Fin width) : Tableau n h width α :=
  let line := (t.lines.get row).divide ((t.lines.get row).cells.get column)
  { t with
    lines := Vector.ofFn fun i => if i = row then line else line.clear column (t.lines.get i)
    basis := t.basis.set row.val column.val row.isLt
    objective := line.clear column t.objective }

/-- Pivot until no column improves the objective, at most a number of times. -/
def reduce (limit : Nat) : Nat → Tableau n h width α → Except SolveError (Tableau n h width α)
  | 0, t => match t.pivotColumn? with
    | none => .ok t
    | some _ => .error (.iterationLimit limit)
  | pivots + 1, t => match t.pivotColumn? with
    | none => .ok t
    | some column => match t.pivotRow? column with
      | none => .error .noFeasiblePoint
      | some row => reduce limit pivots (t.pivot row column)

/-- The rows and columns of at most so many pivots. -/
def trajectory : Nat → Tableau n h width α → List (Fin h × Fin width)
  | 0, _ => []
  | pivots + 1, t => match t.pivotColumn? with
    | none => []
    | some column => match t.pivotRow? column with
      | none => []
      | some row => (row, column) :: trajectory pivots (t.pivot row column)

/-! ### Results -/

/-- Sum of the magnitudes of the basic artificial variables. -/
def infeasibility (t : Tableau n h width α) : α :=
  Scalar.sum (((List.finRange h).filter fun i => t.artificialStart ≤ t.basis.get i).map fun i =>
    Scalar.abs (t.lines.get i).rhs)

/-- The values of the variables: the basic positive parts less the basic negative parts. -/
def point (t : Tableau n h width α) : Vector α n :=
  Vector.ofFn fun j => (List.finRange h).foldl
    (fun value i =>
      if t.basis.get i = j.val then value + (t.lines.get i).rhs
      else if t.basis.get i = n + j.val then value - (t.lines.get i).rhs
      else value)
    0

end Tableau

/-- A point that keeps all hard rows, by at most a number of pivots. -/
def Problem.feasiblePoint (p : Problem α) (maxIterations : Nat) : Except SolveError p.Point :=
  match p.tableau? with
  | none => .error .malformedRow
  | some first => do
    let last ← first.reduce maxIterations maxIterations
    if Scalar.tolerance < last.infeasibility then .error .noFeasiblePoint else .ok last.point

end ElasticLayout
