import ElasticLayout.Event
import ElasticLayout.Problem.Solve

/-!
# Journals of a solve

The events of the parts of a solve, derived from the paths they take.

* `Problem.simplexJournal` -- the pivots that lead to a feasible point;
* `Problem.searchJournal` -- the moves from a start to the optimum;
* `Problem.journal` -- the whole solve.
-/

namespace ElasticLayout

variable {α : Type} [Scalar α]

namespace Problem

/-- The events of looking for a feasible point by the simplex method. -/
def simplexJournal (p : Problem α) (maxIterations : Nat) : List (Event α) :=
  match p.tableau? with
  | none => []
  | some first =>
    let path := first.trajectory maxIterations
    let pivots := path.zipIdx.map fun ((row, column), index) => .pivot index row column
    let ending := match first.reduce maxIterations maxIterations with
      | .ok last => [.pivotsFinished path.length last.infeasibility]
      | .error (.iterationLimit _) => [.pivotsExhausted path.length]
      | .error _ => []
    pivots ++ ending

/-- The events of looking for a start. -/
def startJournal (p : Problem α) (maxIterations : Nat) : List (Event α) :=
  match p.basicPoint with
  | .error _ => []
  | .ok none => .noBasicPoint :: p.simplexJournal maxIterations
  | .ok (some x) =>
    if p.isFeasible x Scalar.tolerance then []
    else .basicPointInfeasible :: p.simplexJournal maxIterations

/-- The event of a move of the active-set method. -/
def Move.event {p : Problem α} (iteration : Nat) : Move p → Event α
  | .drop row multiplier => .dropped iteration row multiplier
  | .block row fraction => .blocked iteration fraction row
  | .full => .fullStep iteration

/-- The events of the active-set method from a start. -/
def searchJournal (p : Problem α) (start : p.Point) (maxIterations : Nat) : List (Event α) :=
  match p.objective? with
  | none => []
  | some f =>
    let state := p.startAt start
    let path := p.moves f maxIterations state
    let ending := match p.iterate f maxIterations maxIterations state with
      | .ok _ => [.converged (path.length + 1)]
      | .error _ => []
    .searchStarted p.variableCount p.hard.length p.soft.length state.working.length
      :: path.zipIdx.map (fun (move, iteration) => move.event iteration) ++ ending

/-- The events of a solve. -/
def journal (p : Problem α) (maxIterations : Nat) : List (Event α) :=
  if p.rowCount < p.variableCount then []
  else p.startJournal maxIterations ++
    match p.initialPoint maxIterations with
    | .ok start => p.searchJournal start maxIterations
    | .error _ => []

end Problem

end ElasticLayout
