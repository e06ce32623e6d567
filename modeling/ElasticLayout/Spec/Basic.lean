import ElasticLayout.Outcome
import ElasticLayout.Problem.Basic
import ElasticLayout.SlotStore

/-!
# Layout specifications

Variables and linear constraints over them.  A constraint with a positive penalty is soft.  A soft
inequality is elastic: it owns a slack variable and a soft equality that penalizes the slack.  A
variable whose range is narrower than the default range owns a bound constraint for that end.

* `VariableId`, `ConstraintId` -- handles;
* `Summand`, `mergeSummands` -- left sides; a variable occurs once in a merged left side;
* `Variable`, `Constraint` -- the entries, with `Role` and `Elastic` for who owns whom;
* `Options`, `Spec` -- the whole specification;
* `Spec.usedVariables`, `Spec.variableName` -- views.
-/

namespace ElasticLayout

variable {α : Type}

/-! ### Handles and left sides -/

/-- Handle of a variable. -/
structure VariableId where
  /-- The slot of the variable. -/
  slot : Slot
deriving DecidableEq, Inhabited

/-- Position of a variable, unique among live variables. -/
def VariableId.index (id : VariableId) : Nat := id.slot.index.toNat

/-- Handle of a constraint. -/
structure ConstraintId where
  /-- The slot of the constraint. -/
  slot : Slot
deriving DecidableEq, Inhabited

/-- Position of a constraint, unique among live constraints. -/
def ConstraintId.index (id : ConstraintId) : Nat := id.slot.index.toNat

/-- A multiple of a variable. -/
structure Summand (α : Type) where
  /-- The factor. -/
  coefficient : α
  /-- The variable. -/
  var : VariableId

/-- Add a summand to a merged left side: to the summand of its variable, or else at the end. -/
def addSummand [Add α] (term : Summand α) : List (Summand α) → List (Summand α)
  | [] => [term]
  | other :: rest =>
    if other.var = term.var then
      { other with coefficient := other.coefficient + term.coefficient } :: rest
    else other :: addSummand term rest

/-- Merge summands of one variable.  The first one keeps its place. -/
def mergeSummands [Add α] (terms : List (Summand α)) : List (Summand α) :=
  terms.foldl (fun merged term => addSummand term merged) []

/-! ### Variables -/

/-- A variable and what the specification knows about it. -/
structure Variable (α : Type) where
  /-- Lower end of the range. -/
  lower : α
  /-- Upper end of the range. -/
  upper : α
  /-- Value from the last successful solve. -/
  value : α
  /-- A name, if one was given. -/
  label : Option String
  /-- Number of live constraints whose left side mentions the variable. -/
  references : Nat
  /-- The constraint that enforces the lower end, present once it is narrowed. -/
  lowerBound : Option ConstraintId
  /-- The constraint that enforces the upper end, present once it is narrowed. -/
  upperBound : Option ConstraintId
  /-- The variable belongs to an elastic constraint. -/
  isSlack : Bool

namespace Variable

/-- Lower end of the range of a new variable. -/
def defaultLower [Scalar α] : α := -20000.0

/-- Upper end of the range of a new variable. -/
def defaultUpper [Scalar α] : α := 20000.0

/-- Upper end of the range of a slack. -/
def slackUpper [Scalar α] : α := 20000.0

/-- A new variable. -/
def fresh [Scalar α] (label : Option String) (isSlack : Bool) : Variable α where
  lower := defaultLower
  upper := defaultUpper
  value := Scalar.nan
  label := label
  references := 0
  lowerBound := none
  upperBound := none
  isSlack := isSlack

/-- Some constraint mentions the variable. -/
def isUsed (v : Variable α) : Bool := 0 < v.references

/-- The bound constraints of a variable. -/
def bounds (v : Variable α) : List ConstraintId := v.lowerBound.toList ++ v.upperBound.toList

end Variable

/-! ### Constraints -/

/-- Why a constraint exists. -/
inductive Role where
  /-- The caller added it. -/
  | user
  /-- It enforces an end of the range of a variable. -/
  | bound (id : VariableId)
  /-- It penalizes the slack of an elastic constraint. -/
  | slackPenalty (id : ConstraintId)
deriving DecidableEq

/-- What an elastic constraint owns. -/
structure Elastic (α : Type) where
  /-- The slack variable. -/
  slack : VariableId
  /-- The factor of the slack in the left side. -/
  coefficient : α
  /-- The constraint that penalizes the slack. -/
  penalty : ConstraintId

/-- A linear constraint. -/
structure Constraint (α : Type) where
  /-- Left side, the slack of an elastic constraint included. -/
  left : List (Summand α)
  /-- Comparison of the two sides. -/
  relation : Relation
  /-- Right side. -/
  right : α
  /-- Penalty for a left side above the right side. -/
  penaltyAbove : α
  /-- Penalty for a left side below the right side. -/
  penaltyBelow : α
  /-- A name, if one was given. -/
  label : Option String
  /-- Why the constraint exists. -/
  role : Role
  /-- What an elastic constraint owns. -/
  elastic : Option (Elastic α)
  /-- The constraint keeps its place but takes no part. -/
  isSuspended : Bool

namespace Constraint

variable [Scalar α]

/-- A new constraint, its left side merged. -/
def fresh (left : List (Summand α)) (relation : Relation) (right penaltyAbove penaltyBelow : α)
    (role : Role) : Constraint α where
  left := mergeSummands left
  relation := relation
  right := right
  penaltyAbove := penaltyAbove
  penaltyBelow := penaltyBelow
  label := none
  role := role
  elastic := none
  isSuspended := false

/-- The constraint may be violated at a cost. -/
def isSoft (c : Constraint α) : Bool := 0 < c.penaltyAbove || 0 < c.penaltyBelow

/-- The constraint is to be elastic. -/
def isSoftInequality (c : Constraint α) : Bool := c.isSoft && c.relation != .eq

/-- The constraint is a term of the objective. -/
def isObjectiveTerm (c : Constraint α) : Bool := c.isSoft && c.relation == .eq

omit [Scalar α] in
/-- The left side mentions a variable. -/
def mentions (c : Constraint α) (id : VariableId) : Bool := c.left.any (·.var == id)

end Constraint

/-! ### Specifications -/

/-- What a caller can tune. -/
structure Options (α : Type) where
  /-- Bound on the iterations of the optimizer, and on the pivots of the simplex method. -/
  maxIterations : Nat
  /-- Penalty of the pins of a size query. -/
  sizePenalty : α
  /-- What a query for the largest size pulls towards. -/
  largestSize : α

/-- The options of a caller who chooses none. -/
def Options.default [Scalar α] : Options α := ⟨10000, 5.0, 32000.0⟩

/-- A layout specification. -/
structure Spec (α : Type) where
  /-- The variables, slacks included. -/
  variableStore : SlotStore (Variable α) := {}
  /-- The constraints, internal ones included. -/
  constraintStore : SlotStore (Constraint α) := {}
  /-- The options. -/
  options : Options α
  /-- Outcome of the last solve. -/
  result : ResultCode := .error

namespace Spec

/-- The variable behind a handle. -/
def getVariable? (s : Spec α) (id : VariableId) : Option (Variable α) :=
  s.variableStore.get? id.slot

/-- The constraint behind a handle. -/
def getConstraint? (s : Spec α) (id : ConstraintId) : Option (Constraint α) :=
  s.constraintStore.get? id.slot

/-- The live variables in the order of their handles. -/
def variableList (s : Spec α) : List (VariableId × Variable α) :=
  s.variableStore.toList.map fun (slot, v) => (⟨slot⟩, v)

/-- The live constraints in the order of their handles. -/
def constraintList (s : Spec α) : List (ConstraintId × Constraint α) :=
  s.constraintStore.toList.map fun (slot, c) => (⟨slot⟩, c)

/-- The value of a variable; none if the handle is stale. -/
def value? (s : Spec α) (id : VariableId) : Option α := (s.getVariable? id).map (·.value)

/-- The variables that some constraint mentions. -/
def usedVariables (s : Spec α) : List VariableId :=
  (s.variableList.filter (·.2.isUsed)).map (·.1)

/-- The name of a variable in listings: its label, or a letter and its index. -/
def variableName (s : Spec α) (id : VariableId) : String :=
  match s.getVariable? id with
  | some v => v.label.getD ((if v.isSlack then "s" else "x") ++ toString id.index)
  | none => "x" ++ toString id.index

end Spec

end ElasticLayout
