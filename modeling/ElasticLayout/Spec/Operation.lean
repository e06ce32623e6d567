import ElasticLayout.Spec.Solve

/-!
# Operations on a specification

Every call of the interface as a value, so that histories of calls can be spoken of.

* `Operation` -- a call with its arguments, and `Reply` -- its answer;
* `Spec.perform` -- the specification after a call, and the answer; a rejected call changes nothing;
* `Spec.run` -- the specification after a history of calls;
* `Spec.Addressable` -- the stores have not outgrown their handles;
* `Spec.Reachable` -- the specifications that some history leads to.
-/

namespace ElasticLayout

/-- A call with its arguments. -/
inductive Operation (α : Type) where
  /-- Add a variable. -/
  | addVariable (label : Option String)
  /-- Remove a variable with the constraints that mention it. -/
  | removeVariable (id : VariableId)
  /-- Name a variable. -/
  | setVariableLabel (id : VariableId) (label : String)
  /-- Set both ends of a range. -/
  | setRange (id : VariableId) (lower upper : α)
  /-- Set the lower end of a range. -/
  | setLower (id : VariableId) (lower : α)
  /-- Set the upper end of a range. -/
  | setUpper (id : VariableId) (upper : α)
  /-- Add a constraint. -/
  | addConstraint (coefficients : List α) (ids : List VariableId) (relation : Relation)
      (right above below : α)
  /-- Add a constraint between two variables. -/
  | relate (relation : Relation) (a b : VariableId) (above below : α)
  /-- Remove a constraint. -/
  | removeConstraint (id : ConstraintId)
  /-- Replace the left side of a constraint. -/
  | setLeft (id : ConstraintId) (coefficients : List α) (ids : List VariableId)
  /-- Replace the comparison of a constraint. -/
  | setRelation (id : ConstraintId) (relation : Relation)
  /-- Replace the right side of a constraint. -/
  | setRight (id : ConstraintId) (right : α)
  /-- Replace the penalties of a constraint. -/
  | setPenalties (id : ConstraintId) (above below : α)
  /-- Name a constraint. -/
  | setConstraintLabel (id : ConstraintId) (label : String)
  /-- Solve. -/
  | solve
  /-- Ask for the smallest size. -/
  | minSize (width height : VariableId)
  /-- Ask for the largest size. -/
  | maxSize (width height : VariableId)

/-- The answer to a call. -/
inductive Reply (α : Type) where
  /-- The handle of a new variable. -/
  | variable (id : VariableId)
  /-- The handle of a new constraint. -/
  | constraint (id : ConstraintId)
  /-- Whether something was removed. -/
  | removed (done : Bool)
  /-- A change was made. -/
  | changed
  /-- How a solve ended. -/
  | solved (code : ResultCode)
  /-- The size asked for. -/
  | size (size : Size α)
  /-- The call was rejected. -/
  | rejected (reason : SpecError α)

namespace Spec

variable {α : Type}

/-- The answer to a change that may be rejected. -/
def afterChange (s : Spec α) : Except (SpecError α) (Spec α) → Spec α × Reply α
  | .ok t => (t, .changed)
  | .error reason => (s, .rejected reason)

/-- The answer to an addition that may be rejected. -/
def afterAddition (s : Spec α) :
    Except (SpecError α) (ConstraintId × Spec α) → Spec α × Reply α
  | .ok (id, t) => (t, .constraint id)
  | .error reason => (s, .rejected reason)

/-- The answer to a size query that may be rejected. -/
def afterQuery (s : Spec α) : Except (SpecError α) (Size α × Spec α) → Spec α × Reply α
  | .ok (size, t) => (t, .size size)
  | .error reason => (s, .rejected reason)

variable [Scalar α]

/-- The specification after a call, and the answer to the call. -/
def perform (s : Spec α) : Operation α → Spec α × Reply α
  | .addVariable label =>
    let (id, t) := s.addVariable label
    (t, .variable id)
  | .removeVariable id =>
    let (done, t) := s.removeVariable id
    (t, .removed done)
  | .setVariableLabel id label => s.afterChange (s.setVariableLabel id label)
  | .setRange id lower upper => s.afterChange (s.setRange id lower upper)
  | .setLower id lower => s.afterChange (s.setLower id lower)
  | .setUpper id upper => s.afterChange (s.setUpper id upper)
  | .addConstraint coefficients ids relation right above below =>
    s.afterAddition (s.addConstraint coefficients ids relation right above below)
  | .relate relation a b above below => s.afterAddition (s.relate relation a b above below)
  | .removeConstraint id =>
    let (done, t) := s.removeConstraint id
    (t, .removed done)
  | .setLeft id coefficients ids => s.afterChange (s.setLeft id coefficients ids)
  | .setRelation id relation => s.afterChange (s.setRelation id relation)
  | .setRight id right => s.afterChange (s.setRight id right)
  | .setPenalties id above below => s.afterChange (s.setPenalties id above below)
  | .setConstraintLabel id label => s.afterChange (s.setConstraintLabel id label)
  | .solve =>
    let t := s.solve
    (t, .solved t.result)
  | .minSize width height => s.afterQuery (s.minSize width height)
  | .maxSize width height => s.afterQuery (s.maxSize width height)

/-- The specification after a history of calls. -/
def run (s : Spec α) (history : List (Operation α)) : Spec α :=
  history.foldl (fun s op => (s.perform op).1) s

omit [Scalar α] in
/-- The handles are enough: no store has more cells than there are indices. -/
def Addressable (s : Spec α) : Prop :=
  s.variableStore.Addressable ∧ s.constraintStore.Addressable

/-- Some history leads from an empty specification to this one.  Indices are words, so a history
that needs more than `UInt32.size` cells at a time has run out of handles, and is not counted. -/
def Reachable (s : Spec α) : Prop :=
  s.Addressable ∧
    ∃ (options : Options α) (history : List (Operation α)), ({ options } : Spec α).run history = s

end Spec

end ElasticLayout
