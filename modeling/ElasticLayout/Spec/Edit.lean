import ElasticLayout.Spec.Fault
import ElasticLayout.Spec.Ownership

/-!
# Editing a specification

The calls by which a caller builds and changes a specification.  A rejected call gives a reason and
no specification: the caller goes on with the one he had.

* `Spec.addVariable`, `Spec.removeVariable`, `Spec.setVariableLabel`;
* `Spec.setRange`, `Spec.setLower`, `Spec.setUpper`;
* `Spec.addConstraint`, `Spec.relate`, `Spec.removeConstraint`;
* `Spec.setLeft`, `Spec.setRelation`, `Spec.setRight`, `Spec.setPenalties`,
  `Spec.setConstraintLabel`;
* `Spec.save` -- not available.
-/

namespace ElasticLayout

variable {α : Type} [Scalar α]

namespace Spec

/-! ### Checks -/

/-- A range has numbers for ends, the right way round. -/
def isRange (lower upper : α) : Bool :=
  !Scalar.isNaN lower && !Scalar.isNaN upper && !decide (upper < lower)

/-- A penalty is finite and not negative. -/
def isPenalty (p : α) : Bool := Scalar.isFinite p && decide (0 ≤ p)

/-- The variable is live and not a slack. -/
def isUserVariable (s : Spec α) (id : VariableId) : Bool := (s.getVariable? id).any (!·.isSlack)

/-- The constraint is live and was added by the caller. -/
def isUserConstraint (s : Spec α) (id : ConstraintId) : Bool :=
  (s.getConstraint? id).any (·.role == .user)

/-- The left side made of coefficients and variables.  Slacks cannot be mentioned. -/
def summands (s : Spec α) (coefficients : List α) (ids : List VariableId) :
    Except (SpecError α) (List (Summand α)) :=
  if coefficients.length = ids.length then
    match ids.find? (!s.isUserVariable ·) with
    | some id => .error (.invalidVariable id)
    | none => .ok (List.zipWith Summand.mk coefficients ids)
  else .error (.lengthMismatch coefficients.length ids.length)

/-- Only constraints of the caller may be changed. -/
def checkConstraint (s : Spec α) (id : ConstraintId) : Except (SpecError α) Unit :=
  if s.isUserConstraint id then .ok () else .error (.invalidConstraint id)

/-- Only finite right sides are accepted. -/
def checkRight (right : α) : Except (SpecError α) Unit :=
  if Scalar.isFinite right then .ok () else .error (.invalidRightSide right)

/-- Only proper penalties are accepted. -/
def checkPenalties (above below : α) : Except (SpecError α) Unit :=
  if isPenalty above && isPenalty below then .ok () else .error (.invalidPenalty above below)

/-! ### Variables -/

/-- Add a variable with the default range. -/
def addVariable (s : Spec α) (label : Option String) : VariableId × Spec α :=
  let (slot, variableStore) := s.variableStore.insert (Variable.fresh label false : Variable α)
  (⟨slot⟩, { s with variableStore })

/-- The constraints of the caller that mention a variable. -/
def mentioning (s : Spec α) (id : VariableId) : List ConstraintId :=
  (s.constraintList.filter fun (_, c) => c.role == .user && c.mentions id).map (·.1)

/-- Remove a variable with every constraint that mentions it.  False, and no change, for a stale
handle and for a slack. -/
def removeVariable (s : Spec α) (id : VariableId) : Bool × Spec α :=
  if s.isUserVariable id then (true, ((s.mentioning id).foldl drop s).dropVariable id)
  else (false, s)

/-- Name a variable. -/
def setVariableLabel (s : Spec α) (id : VariableId) (label : String) :
    Except (SpecError α) (Spec α) :=
  if (s.getVariable? id).isSome then
    .ok (s.modifyVariable id fun v => { v with label := some label })
  else .error (.invalidVariable id)

/-- Restrict a variable to a range.  A range narrower than the default one is enforced by bound
constraints. -/
def setRange (s : Spec α) (id : VariableId) (lower upper : α) : Except (SpecError α) (Spec α) :=
  if s.isUserVariable id then
    if isRange lower upper then .ok (s.applyRange id lower upper)
    else .error (.invalidRange lower upper)
  else .error (.invalidVariable id)

/-- Set the lower end of the range of a variable. -/
def setLower (s : Spec α) (id : VariableId) (lower : α) : Except (SpecError α) (Spec α) :=
  match s.getVariable? id with
  | some v => s.setRange id lower v.upper
  | none => .error (.invalidVariable id)

/-- Set the upper end of the range of a variable. -/
def setUpper (s : Spec α) (id : VariableId) (upper : α) : Except (SpecError α) (Spec α) :=
  match s.getVariable? id with
  | some v => s.setRange id v.lower upper
  | none => .error (.invalidVariable id)

/-! ### Constraints -/

/-- Add a constraint.  With both penalties zero it is hard; otherwise it may be violated at a
quadratic cost, weighed by one penalty for each direction. -/
def addConstraint (s : Spec α) (coefficients : List α) (ids : List VariableId)
    (relation : Relation) (right above below : α) :
    Except (SpecError α) (ConstraintId × Spec α) := do
  let left ← s.summands coefficients ids
  checkRight right
  checkPenalties above below
  return s.register (.fresh left relation right above below .user)

/-- Add a constraint between two variables. -/
def relate (s : Spec α) (relation : Relation) (a b : VariableId) (above below : α) :
    Except (SpecError α) (ConstraintId × Spec α) :=
  s.addConstraint [1, -1] [a, b] relation 0 above below

/-- Remove a constraint with its slack.  False, and no change, for a stale handle and for an
internal constraint. -/
def removeConstraint (s : Spec α) (id : ConstraintId) : Bool × Spec α :=
  if s.isUserConstraint id then (true, s.drop id) else (false, s)

/-- Replace the left side of a constraint. -/
def setLeft (s : Spec α) (id : ConstraintId) (coefficients : List α)
    (ids : List VariableId) : Except (SpecError α) (Spec α) := do
  s.checkConstraint id
  let left ← s.summands coefficients ids
  return s.mutate id fun c => { c with left := mergeSummands left }

/-- Replace the comparison of a constraint. -/
def setRelation (s : Spec α) (id : ConstraintId) (relation : Relation) :
    Except (SpecError α) (Spec α) := do
  s.checkConstraint id
  return s.mutate id fun c => { c with relation }

/-- Replace the right side of a constraint. -/
def setRight (s : Spec α) (id : ConstraintId) (right : α) : Except (SpecError α) (Spec α) := do
  s.checkConstraint id
  checkRight right
  return s.mutate id fun c => { c with right }

/-- Replace the penalties of a constraint. -/
def setPenalties (s : Spec α) (id : ConstraintId) (above below : α) :
    Except (SpecError α) (Spec α) := do
  s.checkConstraint id
  checkPenalties above below
  return s.mutate id fun c => { c with penaltyAbove := above, penaltyBelow := below }

/-- Name a constraint, which may be an internal one. -/
def setConstraintLabel (s : Spec α) (id : ConstraintId) (label : String) :
    Except (SpecError α) (Spec α) :=
  if (s.getConstraint? id).isSome then
    .ok (s.modifyConstraint id fun c => { c with label := some label })
  else .error (.invalidConstraint id)

omit [Scalar α] in
/-- Specifications cannot be saved. -/
def save (_ : Spec α) (_path : String) : Except (SpecError α) Unit := .error .unsupported

end Spec

end ElasticLayout
