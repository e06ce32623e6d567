import ElasticLayout.Linear.Elimination
import ElasticLayout.Linear.Householder
import ElasticLayout.Linear.Independence
import ElasticLayout.Outcome
import ElasticLayout.Problem.Objective

/-!
# The active-set method

A feasible point is improved step by step.  The working set holds the rows treated as equalities;
the step minimizes the objective on the space that keeps them.  A step of length zero ends the
search, unless a row with a negative multiplier can be dropped from the working set; any other step
goes as far as no other inequality is violated, and takes the row that stops it into the working
set.

* `Problem.workingArray?` -- the working rows as lower bounds;
* `descent` -- the step on the null space of an array;
* `multipliers` -- the coefficients of the gradient over the rows of an array;
* `Problem.stepLength` -- how far a step goes, and the row that blocks it;
* `Problem.State`, `Problem.Move`, `Problem.advance` -- one iteration;
* `Problem.iterate`, `Problem.moves` -- iterations up to a limit, and what they did;
* `Problem.optimize` -- the optimum reached from a point.
-/

namespace ElasticLayout

open Linear

variable {α : Type} [Scalar α]

/-! ### Steps and multipliers -/

/-- The step `p` with `a p = 0` that minimizes `1/2 p' G p + g' p`, for an array `a` of independent
rows.  The trailing columns `z` of the orthogonal factor of `a'` span the null space of `a`; in
their coordinates the step solves `(z' G z) y = -z' g`. -/
def descent {k n : Nat} (f : Objective n α) (a : Dense k n α) (gradient : Vector α n) :
    Except SolveError (Vector α n) :=
  if k = n then .ok (Vector.replicate n 0)
  else do
    let factors ← factor a.transpose
    let z := factors.q.columnsFrom k
    let rhs := (z.transpose.mulVec gradient).map (-·)
    let coordinates ← solve (z.transpose.mul (f.quadratic.mul z)) rhs
    return z.mulVec coordinates

/-- The multipliers `l` with `a' l = g`, from as many independent columns of `a` as it has rows. -/
def multipliers {k n : Nat} (a : Dense k n α) (gradient : Vector α n) :
    Except SolveError (Vector α k) :=
  let columns := a.transpose
  let kept := independentRows columns
  if h : k = kept.length then
    solve (Vector.ofFn fun i => columns.get (kept.get (i.cast h)))
      (Vector.ofFn fun i => gradient.get (kept.get (i.cast h)))
  else .error (.lagrangeRankMismatch kept.length k)

namespace Problem

/-! ### Working rows -/

/-- The coefficients of a hard row as a lower bound. -/
def signedCoefficients (p : Problem α) (r : p.Row) : List α :=
  (p.row r).coefficients.map ((p.row r).relation.sign * ·)

/-- The working rows as lower bounds; none if a row is too long. -/
def workingArray? (p : Problem α) (working : List p.Row) :
    Option (Dense working.length p.variableCount α) :=
  (layRows? p.variableCount [] (working.map p.signedCoefficients)).map
    (·.cast (List.length_map p.signedCoefficients))

/-- The rows that bind at a point: equalities, and inequalities that are met within the
tolerance. -/
def bindingRows (p : Problem α) (x : p.Point) : List p.Row :=
  (List.finRange p.hard.length).filter fun r =>
    (p.row r).isEquality || Scalar.near ((p.row r).signedValue x.toList) (p.row r).signedRhs

/-! ### Step length -/

/-- How far a step goes without violating a row; none if the step does not lead towards the row's
bound by more than the tolerance. -/
def roomFor? (row : HardRow α) (x step : List α) : Option α :=
  let slope := row.signedValue step
  if 0 < slope ∨ Scalar.near slope 0 then none
  else some ((row.signedRhs - row.signedValue x) / slope)

/-- The largest fraction of a step, between zero and one, that violates no inequality outside the
working set; and the first row that allows no more, if the fraction is less than one. -/
def stepLength (p : Problem α) (x step : p.Point) (working : List p.Row) : α × Option p.Row :=
  let free := (List.finRange p.hard.length).filter fun r =>
    !((p.row r).isEquality || working.contains r)
  let (fraction, blocking) := free.foldl
    (fun (best : α × Option p.Row) r =>
      match roomFor? (p.row r) x.toList step.toList with
      | some room => if room < best.1 then (room, some r) else best
      | none => best)
    (1, none)
  (if 0 < fraction then fraction else 0, blocking)

/-! ### Iterations -/

/-- A point and the working set. -/
structure State (p : Problem α) where
  /-- The current point. -/
  point : p.Point
  /-- The rows treated as equalities, in the order in which they entered. -/
  working : List p.Row

/-- What an iteration does. -/
inductive Move (p : Problem α) where
  /-- Leave the point, and drop a row with a negative multiplier. -/
  | drop (row : p.Row) (multiplier : α)
  /-- Go a fraction of the step, and take in the row that blocks it. -/
  | block (row : p.Row) (fraction : α)
  /-- Go the whole step. -/
  | full

/-- The place in the working set with the least multiplier below zero, among inequalities; the first
of several.  Each multiplier comes with the place of its row. -/
def leastMultiplier (p : Problem α) (working : List p.Row)
    (priced : List (Fin working.length × α)) : α × Option (Fin working.length) :=
  priced.foldl
    (fun (best : α × Option (Fin working.length)) (place, multiplier) =>
      if (p.row (working.get place)).isEquality then best
      else if multiplier < best.1 then (multiplier, some place) else best)
    (0, none)

/-- One iteration; none if the point is optimal. -/
def advance (p : Problem α) (f : Objective p.variableCount α) (s : State p) :
    Except SolveError (Option (Move p × State p)) :=
  match p.workingArray? s.working with
  | none => .error .malformedRow
  | some rows => do
    let kept := independentRows rows
    let a := rows.selectRows kept
    let gradient := f.gradient s.point
    let step ← descent f a gradient
    if step.all (Scalar.near · 0) then do
      let prices ← multipliers a gradient
      match p.leastMultiplier s.working (kept.zip prices.toList) with
      | (least, some place) =>
        if Scalar.near least 0 then return none
        else return some (.drop (s.working.get place) least,
          { s with working := s.working.eraseIdx place })
      | (_, none) => return none
    else
      let (fraction, blocking) := p.stepLength s.point step s.working
      let point := s.point.zipWith (fun x d => x + fraction * d) step
      match blocking with
      | some row => return some (.block row fraction, ⟨point, s.working ++ [row]⟩)
      | none => return some (.full, ⟨point, s.working⟩)

/-- Iterate until the point is optimal, at most a number of times. -/
def iterate (p : Problem α) (f : Objective p.variableCount α) (limit : Nat) :
    Nat → State p → Except SolveError p.Point
  | 0, _ => .error (.iterationLimit limit)
  | iterations + 1, s =>
    match p.advance f s with
    | .error e => .error e
    | .ok none => .ok s.point
    | .ok (some (_, next)) => iterate p f limit iterations next

/-- What at most so many iterations do. -/
def moves (p : Problem α) (f : Objective p.variableCount α) : Nat → State p → List (Move p)
  | 0, _ => []
  | iterations + 1, s =>
    match p.advance f s with
    | .ok (some (move, next)) => move :: moves p f iterations next
    | _ => []

/-- The state in which the search starts. -/
def startAt (p : Problem α) (x : p.Point) : State p := ⟨x, p.bindingRows x⟩

/-- The optimum reached from a feasible point by at most a number of iterations. -/
def optimize (p : Problem α) (start : p.Point) (maxIterations : Nat) :
    Except SolveError p.Point :=
  match p.objective? with
  | none => .error .malformedRow
  | some f => p.iterate f maxIterations maxIterations (p.startAt start)

end Problem

end ElasticLayout
