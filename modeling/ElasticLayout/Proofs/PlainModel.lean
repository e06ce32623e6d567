import ElasticLayout.Proofs.Standing
import ElasticLayout.Proofs.UserView

/-!
# The plain model behind a specification

A caller may think of a specification as two tables: variables with a range and a name, and
constraints as he wrote them.  There are no slacks, no bound constraints and no penalties of slacks
in it, and the calls are defined on the tables alone.

* `PlainVariable`, `PlainConstraint`, `PlainModel` -- the tables;
* `PlainModel.perform` -- the calls, given the handles for new entries;
* `Spec.plain` -- the tables behind a specification.
-/

namespace ElasticLayout

variable {α : Type}

/-! ### Tables -/

/-- A variable, as the caller thinks of it. -/
structure PlainVariable (α : Type) where
  /-- Lower end of the range. -/
  lower : α
  /-- Upper end of the range. -/
  upper : α
  /-- A name, if one was given. -/
  label : Option String

/-- A constraint, as the caller wrote it. -/
structure PlainConstraint (α : Type) where
  /-- Left side; every variable once. -/
  left : List (Summand α)
  /-- Comparison of the two sides. -/
  relation : Relation
  /-- Right side. -/
  right : α
  /-- Penalty for a left side above the right side. -/
  penaltyAbove : α
  /-- Penalty for a left side below the right side. -/
  penaltyBelow : α
  /-- A name, if one was given. -/
  label : Option String

namespace PlainConstraint

/-- The left side mentions a variable. -/
def mentions (c : PlainConstraint α) (id : VariableId) : Bool := c.left.any (·.var == id)

/-- The constraint may be violated at a cost, and is no equality. -/
def isSoftInequality [Scalar α] (c : PlainConstraint α) : Bool :=
  (0 < c.penaltyAbove || 0 < c.penaltyBelow) && c.relation != .eq

end PlainConstraint

/-- Variables and constraints by handle. -/
@[ext] structure PlainModel (α : Type) where
  /-- A live variable. -/
  variableAt? : VariableId → Option (PlainVariable α)
  /-- A live constraint. -/
  constraintAt? : ConstraintId → Option (PlainConstraint α)

namespace PlainModel

/-- Put a variable in the place of one. -/
def putVariable (m : PlainModel α) (id : VariableId) (x : PlainVariable α) : PlainModel α :=
  { m with variableAt? := Function.update m.variableAt? id (some x) }

/-- Put a constraint in the place of one; `none` removes it. -/
def putConstraint (m : PlainModel α) (id : ConstraintId) (c : Option (PlainConstraint α)) :
    PlainModel α :=
  { m with constraintAt? := Function.update m.constraintAt? id c }

/-- Remove constraints. -/
def eraseConstraints (m : PlainModel α) (ks : List ConstraintId) : PlainModel α :=
  { m with constraintAt? := fun k => if k ∈ ks then none else m.constraintAt? k }

theorem eraseConstraints_nil (m : PlainModel α) : m.eraseConstraints [] = m := by
  simp [eraseConstraints]

theorem eraseConstraints_concat (m : PlainModel α) (ks : List ConstraintId) (k : ConstraintId) :
    m.eraseConstraints (ks ++ [k]) = (m.eraseConstraints ks).putConstraint k none := by
  refine PlainModel.ext rfl (funext fun j => ?_)
  simp only [eraseConstraints, putConstraint, Function.update_apply, List.mem_append,
    List.mem_singleton]
  grind

/-- Remove a variable with every constraint that mentions it. -/
def removeVariable (m : PlainModel α) (id : VariableId) : PlainModel α where
  variableAt? := Function.update m.variableAt? id none
  constraintAt? k := (m.constraintAt? k).filter (!·.mentions id)

/-! ### Calls -/

/-- The variable behind a handle. -/
def findVariable (m : PlainModel α) (id : VariableId) :
    Except (SpecError α) (PlainVariable α) :=
  match m.variableAt? id with
  | some x => .ok x
  | none => .error (.invalidVariable id)

/-- The constraint behind a handle. -/
def findConstraint (m : PlainModel α) (id : ConstraintId) :
    Except (SpecError α) (PlainConstraint α) :=
  match m.constraintAt? id with
  | some c => .ok c
  | none => .error (.invalidConstraint id)

/-- The left side made of coefficients and variables. -/
def summands (m : PlainModel α) (coefficients : List α) (ids : List VariableId) :
    Except (SpecError α) (List (Summand α)) :=
  if coefficients.length = ids.length then
    match ids.find? fun id => (m.variableAt? id).isNone with
    | some id => .error (.invalidVariable id)
    | none => .ok (List.zipWith Summand.mk coefficients ids)
  else .error (.lengthMismatch coefficients.length ids.length)

/-- Name a variable. -/
def setVariableLabel (m : PlainModel α) (id : VariableId) (label : String) :
    Except (SpecError α) (PlainModel α) := do
  let x ← m.findVariable id
  return m.putVariable id { x with label := some label }

/-- Name a constraint. -/
def setConstraintLabel (m : PlainModel α) (id : ConstraintId) (label : String) :
    Except (SpecError α) (PlainModel α) := do
  let c ← m.findConstraint id
  return m.putConstraint id (some { c with label := some label })

/-- The answer to a change that may be rejected. -/
def afterChange (m : PlainModel α) :
    Except (SpecError α) (PlainModel α) → PlainModel α × Reply α
  | .ok n => (n, .changed)
  | .error reason => (m, .rejected reason)

/-- The answer to the addition of a constraint that may be rejected. -/
def afterAddition (m : PlainModel α) (id : ConstraintId) :
    Except (SpecError α) (PlainModel α) → PlainModel α × Reply α
  | .ok n => (n, .constraint id)
  | .error reason => (m, .rejected reason)

/-- The answer to a size query, but for the size. -/
def query (m : PlainModel α) (width height : VariableId) : PlainModel α × Reply α :=
  if (m.variableAt? width).isNone then (m, .rejected (.invalidVariable width))
  else if (m.variableAt? height).isNone then (m, .rejected (.invalidVariable height))
  else (m, .changed)

variable [Scalar α]

/-- Restrict a variable to a range. -/
def setRange (m : PlainModel α) (id : VariableId) (lower upper : α) :
    Except (SpecError α) (PlainModel α) := do
  let x ← m.findVariable id
  if Spec.isRange lower upper then return m.putVariable id { x with lower, upper }
  else .error (.invalidRange lower upper)

/-- Set the lower end of the range of a variable. -/
def setLower (m : PlainModel α) (id : VariableId) (lower : α) :
    Except (SpecError α) (PlainModel α) := do
  let x ← m.findVariable id
  m.setRange id lower x.upper

/-- Set the upper end of the range of a variable. -/
def setUpper (m : PlainModel α) (id : VariableId) (upper : α) :
    Except (SpecError α) (PlainModel α) := do
  let x ← m.findVariable id
  m.setRange id x.lower upper

/-- Add a constraint under a handle. -/
def addConstraint (m : PlainModel α) (k : ConstraintId) (coefficients : List α)
    (ids : List VariableId) (relation : Relation) (right above below : α) :
    Except (SpecError α) (PlainModel α) := do
  let left ← m.summands coefficients ids
  Spec.checkRight right
  Spec.checkPenalties above below
  return m.putConstraint k (some ⟨mergeSummands left, relation, right, above, below, none⟩)

/-- Replace the left side of a constraint. -/
def setLeft (m : PlainModel α) (id : ConstraintId) (coefficients : List α)
    (ids : List VariableId) : Except (SpecError α) (PlainModel α) := do
  let c ← m.findConstraint id
  let left ← m.summands coefficients ids
  return m.putConstraint id (some { c with left := mergeSummands left })

/-- Replace the comparison of a constraint. -/
def setRelation (m : PlainModel α) (id : ConstraintId) (relation : Relation) :
    Except (SpecError α) (PlainModel α) := do
  let c ← m.findConstraint id
  return m.putConstraint id (some { c with relation })

/-- Replace the right side of a constraint. -/
def setRight (m : PlainModel α) (id : ConstraintId) (right : α) :
    Except (SpecError α) (PlainModel α) := do
  let c ← m.findConstraint id
  Spec.checkRight right
  return m.putConstraint id (some { c with right })

/-- Replace the penalties of a constraint. -/
def setPenalties (m : PlainModel α) (id : ConstraintId) (above below : α) :
    Except (SpecError α) (PlainModel α) := do
  let c ← m.findConstraint id
  Spec.checkPenalties above below
  return m.putConstraint id (some { c with penaltyAbove := above, penaltyBelow := below })

/-- The tables after a call, and the answer, if `v` and `k` are the handles for new entries.  Values
are not in the tables: solving and asking for sizes changes nothing, and of the answers the tables
tell only whether the call is rejected. -/
def perform (m : PlainModel α) (v : VariableId) (k : ConstraintId) :
    Operation α → PlainModel α × Reply α
  | .addVariable label =>
    (m.putVariable v ⟨Variable.defaultLower, Variable.defaultUpper, label⟩, .variable v)
  | .removeVariable id =>
    if (m.variableAt? id).isSome then (m.removeVariable id, .removed true) else (m, .removed false)
  | .setVariableLabel id label => m.afterChange (m.setVariableLabel id label)
  | .setRange id lower upper => m.afterChange (m.setRange id lower upper)
  | .setLower id lower => m.afterChange (m.setLower id lower)
  | .setUpper id upper => m.afterChange (m.setUpper id upper)
  | .addConstraint coefficients ids relation right above below =>
    m.afterAddition k (m.addConstraint k coefficients ids relation right above below)
  | .relate relation a b above below =>
    m.afterAddition k (m.addConstraint k [1, -1] [a, b] relation 0 above below)
  | .removeConstraint id =>
    if (m.constraintAt? id).isSome then (m.putConstraint id none, .removed true)
    else (m, .removed false)
  | .setLeft id coefficients ids => m.afterChange (m.setLeft id coefficients ids)
  | .setRelation id relation => m.afterChange (m.setRelation id relation)
  | .setRight id right => m.afterChange (m.setRight id right)
  | .setPenalties id above below => m.afterChange (m.setPenalties id above below)
  | .setConstraintLabel id label => m.afterChange (m.setConstraintLabel id label)
  | .solve => (m, .changed)
  | .minSize width height => m.query width height
  | .maxSize width height => m.query width height

end PlainModel

/-- The call changes a specification, and does more than write values. -/
def Operation.isEdit : Operation α → Bool
  | .solve | .minSize _ _ | .maxSize _ _ => false
  | _ => true

/-- Why a call was rejected, if it was. -/
def Reply.rejection? : Reply α → Option (SpecError α)
  | .rejected reason => some reason
  | _ => none

/-! ### The tables behind a specification -/

/-- A variable of the caller in the table. -/
def Variable.plain? (v : Variable α) : Option (PlainVariable α) :=
  if v.isSlack then none else some ⟨v.lower, v.upper, v.label⟩

/-- A constraint in the table, without its slack. -/
def Constraint.plain (c : Constraint α) : PlainConstraint α :=
  ⟨c.ownTerms, c.relation, c.right, c.penaltyAbove, c.penaltyBelow, c.label⟩

/-- A constraint of the caller in the table. -/
def Constraint.plain? (c : Constraint α) : Option (PlainConstraint α) :=
  if c.role = .user then some c.plain else none

namespace Spec

/-- A variable of the caller. -/
def plainVariable? (s : Spec α) (id : VariableId) : Option (PlainVariable α) :=
  (s.getVariable? id).bind Variable.plain?

/-- The tables behind a specification. -/
def plain (s : Spec α) : PlainModel α where
  variableAt? := s.plainVariable?
  constraintAt? id := (s.getConstraint? id).bind Constraint.plain?

end Spec

end ElasticLayout
