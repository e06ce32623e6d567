import ElasticLayout.Problem.ActiveSet
import ElasticLayout.Problem.PhaseOne

/-!
# Solving a problem

* `Problem.initialPoint` -- a start: the basic point if it is feasible, or else the outcome of the
  simplex method;
* `Problem.solve` -- the optimum reached from the start.
-/

namespace ElasticLayout

variable {α : Type} [Scalar α]

namespace Problem

/-- The basic point, if there is one that keeps all hard rows. -/
def feasibleBasicPoint (p : Problem α) : Except SolveError (Option p.Point) := do
  let basic ← p.basicPoint
  return basic.filter (p.isFeasible · Scalar.tolerance)

/-- A point at which the optimization can start. -/
def initialPoint (p : Problem α) (maxIterations : Nat) : Except SolveError p.Point := do
  match ← p.feasibleBasicPoint with
  | some x => return x
  | none => p.feasiblePoint maxIterations

/-- Solve a problem: find a start, and improve it.  The limit holds for each of the two parts. -/
def solve (p : Problem α) (maxIterations : Nat) : Except SolveError p.Point :=
  if p.rowCount < p.variableCount then .error (.tooManyVariables p.variableCount p.rowCount)
  else do
    let start ← p.initialPoint maxIterations
    p.optimize start maxIterations

end Problem

end ElasticLayout
