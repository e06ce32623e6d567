import ElasticLayout.Problem.Solve
import ElasticLayout.Spec.Edit

/-!
# Solving a specification

* `Spec.columns`, `Spec.problem` -- the problem of the constraints that take part, one column per
  variable mentioned, in the order of the handles;
* `Spec.solve` -- solve it, and write the values back;
* `Spec.sizeQuery`, `Spec.minSize`, `Spec.maxSize` -- solve with all soft constraints suspended and
  two variables pulled towards a target.
-/

namespace ElasticLayout

variable {α : Type}

/-! ### Columns -/

/-- Insert a handle into an ascending list, unless it is there. -/
def insertColumn (id : VariableId) : List VariableId → List VariableId
  | [] => [id]
  | other :: rest =>
    if id = other then other :: rest
    else if id.slot.precedes other.slot then id :: other :: rest
    else other :: insertColumn id rest

namespace Constraint

/-- The coefficient of a variable in the left side. -/
def coefficientOf [Scalar α] (c : Constraint α) (id : VariableId) : α :=
  c.left.foldl (fun sum term => if term.var = id then sum + term.coefficient else sum) 0

end Constraint

namespace Spec

/-- The constraints that take part, in the order of their handles. -/
def participants (s : Spec α) : List (Constraint α) :=
  (s.constraintList.map (·.2)).filter (!·.isSuspended)

/-- The variables that those constraints mention, ascending. -/
def columns (s : Spec α) : List VariableId :=
  s.participants.foldl
    (fun ids c => c.left.foldl (fun ids term => insertColumn term.var ids) ids) []

variable [Scalar α]

/-- The problem of the constraints that take part.  Soft equalities make up the objective, and all
others are hard rows. -/
def problem (s : Spec α) : Problem α :=
  let columns := s.columns
  { variableCount := columns.length
    hard := (s.participants.filter (!·.isObjectiveTerm)).map fun c =>
      ⟨columns.map c.coefficientOf, c.relation, c.right⟩
    soft := (s.participants.filter (·.isObjectiveTerm)).map fun c =>
      ⟨columns.map c.coefficientOf, c.right, weightFor c.penaltyAbove c.penaltyBelow⟩ }

/-! ### Solving -/

omit [Scalar α] in
/-- Write values to variables. -/
def assign (s : Spec α) (values : List (VariableId × α)) : Spec α :=
  values.foldl (fun s (id, value) => s.modifyVariable id fun v => { v with value }) s

/-- The outcome of the problem. -/
def outcome (s : Spec α) : Except SolveError s.problem.Point :=
  s.problem.solve s.options.maxIterations

/-- Solve the specification.  On success the values of the columns are those of the solution; on
failure no value changes. -/
def solve (s : Spec α) : Spec α :=
  match s.outcome with
  | .ok x => { s.assign (s.columns.zip x.toList) with result := .optimal }
  | .error e => { s with result := e.resultCode }

/-! ### Size queries -/

omit [Scalar α] in
/-- Suspend or resume a constraint with the slack penalty and the slack bounds it owns. -/
def setSuspended (suspended : Bool) (s : Spec α) (id : ConstraintId) : Spec α :=
  let mark (s : Spec α) (id : ConstraintId) :=
    s.modifyConstraint id fun c => { c with isSuspended := suspended }
  match s.getConstraint? id with
  | none => s
  | some c => match c.elastic with
    | none => mark s id
    | some e =>
      let bounds := ((s.getVariable? e.slack).map (·.bounds)).getD []
      (id :: e.penalty :: bounds).foldl mark s

/-- The soft constraints of the caller that take part. -/
def suspendable (s : Spec α) : List ConstraintId :=
  (s.constraintList.filter fun (_, c) => c.role == .user && c.isSoft && !c.isSuspended).map (·.1)

/-- Pull a variable towards a target, as strongly as the options say. -/
def pin (s : Spec α) (id : VariableId) (target : α) : ConstraintId × Spec α :=
  s.register (.fresh [⟨1, id⟩] .eq target s.options.sizePenalty s.options.sizePenalty .user)

/-- The specification that a size query solves: soft constraints suspended, and pins on the height
and the width. -/
def pinned (s : Spec α) (width height : VariableId) (target : α) :
    (ConstraintId × ConstraintId) × Spec α :=
  let s := s.suspendable.foldl (setSuspended true) s
  let (heightPin, s) := s.pin height target
  let (widthPin, s) := s.pin width target
  ((heightPin, widthPin), s)

/-- Solve with two variables pulled towards a target, and restore the constraints.  The values stay
as the solve left them. -/
def sizeQuery (s : Spec α) (width height : VariableId) (target : α) (unbounded : Size α) :
    Except (SpecError α) (Size α × Spec α) :=
  if (s.getVariable? width).isNone then .error (.invalidVariable width)
  else if (s.getVariable? height).isNone then .error (.invalidVariable height)
  else
    let suspended := s.suspendable
    let ((heightPin, widthPin), s) := s.pinned width height target
    let s := (s.solve.drop heightPin).drop widthPin
    let s := suspended.foldl (setSuspended false) s
    let value (id : VariableId) := (s.value? id).getD Scalar.nan
    let size := if s.result = .unbounded then unbounded else ⟨value width, value height⟩
    .ok (size, s)

/-- The smallest width and height that the hard constraints allow. -/
def minSize (s : Spec α) (width height : VariableId) : Except (SpecError α) (Size α × Spec α) :=
  s.sizeQuery width height 0 Size.zero

/-- The largest width and height that the hard constraints allow. -/
def maxSize (s : Spec α) (width height : VariableId) : Except (SpecError α) (Size α × Spec α) :=
  s.sizeQuery width height s.options.largestSize Size.unbounded

end Spec

end ElasticLayout
