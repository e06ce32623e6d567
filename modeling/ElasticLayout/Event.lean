import ElasticLayout.Decimal.Fixed
import ElasticLayout.Outcome

/-!
# Events

What a reader of the log learns about a run.  The computations of this library write no log; their
events are derived from what they did.

* `Event` -- one thing that happened;
* `Event.level` -- how much detail a reader has to ask for;
* `Event.text` -- its wording.
-/

namespace ElasticLayout

/-- One thing that happened during a run. -/
inductive Event (α : Type) where
  /-- Soft constraints were set aside for a size query. -/
  | suspended (count : Nat)
  /-- A problem was built. -/
  | solving (columns hard soft : Nat)
  /-- A problem was not solved. -/
  | solveFailed (reason : SolveError)
  /-- Elimination found a point that does not keep the inequalities. -/
  | basicPointInfeasible
  /-- Elimination found no point. -/
  | noBasicPoint
  /-- A pivot of the simplex method. -/
  | pivot (index row column : Nat)
  /-- The simplex method reached its limit. -/
  | pivotsExhausted (pivots : Nat)
  /-- No column improves the objective of the simplex method. -/
  | pivotsFinished (pivots : Nat) (infeasibility : α)
  /-- The active-set method set out. -/
  | searchStarted (columns hard soft binding : Nat)
  /-- A row left the working set. -/
  | dropped (iteration row : Nat) (multiplier : α)
  /-- A step was cut short by a row. -/
  | blocked (iteration : Nat) (fraction : α) (row : Nat)
  /-- A step was taken whole. -/
  | fullStep (iteration : Nat)
  /-- The active-set method found the optimum. -/
  | converged (iterations : Nat)
  /-- A soft inequality was given its slack. -/
  | becameElastic (constraint slack : Nat)
  /-- A soft inequality lost its slack. -/
  | becameRigid (constraint : Nat)
  /-- A size query had no solution. -/
  | unsolved (code : ResultCode)

namespace Event

variable {α : Type}

/-- How much detail a reader of the log asks for. -/
inductive Level where
  /-- Only what may need attention. -/
  | warning
  /-- The stages of a run. -/
  | stage
  /-- Every step. -/
  | step
deriving DecidableEq

/-- The level of an event. -/
def level : Event α → Level
  | unsolved _ => .warning
  | pivot .. | dropped .. | blocked .. | fullStep _ | becameElastic .. | becameRigid _ => .step
  | _ => .stage

/-- The wording of an event. -/
def text : Event Float → String
  | suspended count => s!"suspended {count} soft constraints"
  | solving columns hard soft =>
    s!"solving {columns} variables, {hard} hard and {soft} soft rows"
  | solveFailed reason => "solve failed: " ++ reason.message
  | basicPointInfeasible => "basic solution violates an inequality, running phase one"
  | noBasicPoint => "elimination found no basic solution, running phase one"
  | pivot index row column => s!"phase one pivot {index}: row {row}, column {column}"
  | pivotsExhausted pivots => s!"phase one stopped after {pivots} pivots"
  | pivotsFinished pivots infeasibility =>
    s!"phase one finished after {pivots} pivots, infeasibility " ++ Decimal.fixed 6 infeasibility
  | searchStarted columns hard soft binding =>
    s!"active set start: {columns} variables, {hard} hard rows, {soft} soft rows, "
      ++ s!"{binding} initially active"
  | dropped iteration row multiplier =>
    s!"iteration {iteration}: dropping row {row} (lambda " ++ Decimal.fixed 6 multiplier ++ ")"
  | blocked iteration fraction row =>
    s!"iteration {iteration}: step " ++ Decimal.fixed 6 fraction ++ s!" blocked by row {row}"
  | fullStep iteration => s!"iteration {iteration}: full step"
  | converged iterations => s!"active set converged after {iterations} iterations"
  | becameElastic constraint slack => s!"constraint {constraint} elastic with slack {slack}"
  | becameRigid constraint => s!"constraint {constraint} no longer elastic"
  | unsolved code => "could not solve the layout specification (" ++ code.name ++ ")"

end Event

end ElasticLayout
