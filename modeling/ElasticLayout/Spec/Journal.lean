import ElasticLayout.Problem.Journal
import ElasticLayout.Spec.Operation

/-!
# Journals of a specification

* `Spec.attachments`, `Spec.detachments` -- slacks given and taken back;
* `Spec.solveJournal` -- the events of a solve;
* `Spec.journal` -- the events of a call, in their order.
-/

namespace ElasticLayout

variable {α : Type}

namespace Spec

/-- The events of taking back the slacks of some constraints. -/
def detachments (s : Spec α) (ids : List ConstraintId) : List (Event α) :=
  ids.filterMap fun id =>
    ((s.getConstraint? id).bind (·.elastic)).map fun _ => .becameRigid id.index

/-- The events of giving slacks to some constraints. -/
def attachments (s : Spec α) (ids : List ConstraintId) : List (Event α) :=
  ids.filterMap fun id =>
    ((s.getConstraint? id).bind (·.elastic)).map fun e => .becameElastic id.index e.slack.index

/-- The events of a change to a constraint: its slack is taken back and given anew. -/
def changeJournal (s : Spec α) (id : ConstraintId) :
    Except (SpecError α) (Spec α) → List (Event α)
  | .ok t => s.detachments [id] ++ t.attachments [id]
  | .error _ => []

/-- The events of adding a constraint. -/
def additionJournal : Except (SpecError α) (ConstraintId × Spec α) → List (Event α)
  | .ok (id, t) => t.attachments [id]
  | .error _ => []

variable [Scalar α]

/-- The events of a solve. -/
def solveJournal (s : Spec α) : List (Event α) :=
  let p := s.problem
  let ending := match s.outcome with
    | .ok _ => []
    | .error e => [.solveFailed e]
  .solving p.variableCount p.hard.length p.soft.length :: p.journal s.options.maxIterations
    ++ ending

/-- The events of a size query. -/
def queryJournal (s : Spec α) (width height : VariableId) (target : α) : List (Event α) :=
  if (s.getVariable? width).isNone || (s.getVariable? height).isNone then []
  else
    let pinned := (s.pinned width height target).2
    let code := pinned.solve.result
    let warning := if code = .optimal ∨ code = .unbounded then [] else [.unsolved code]
    .suspended s.suspendable.length :: pinned.solveJournal ++ warning

/-- The events of a call. -/
def journal (s : Spec α) : Operation α → List (Event α)
  | .removeVariable id => if s.isUserVariable id then s.detachments (s.mentioning id) else []
  | .addConstraint coefficients ids relation right above below =>
    additionJournal (s.addConstraint coefficients ids relation right above below)
  | .relate relation a b above below => additionJournal (s.relate relation a b above below)
  | .removeConstraint id => if s.isUserConstraint id then s.detachments [id] else []
  | .setLeft id coefficients ids =>
    s.changeJournal id (s.setLeft id coefficients ids)
  | .setRelation id relation => s.changeJournal id (s.setRelation id relation)
  | .setRight id right => s.changeJournal id (s.setRight id right)
  | .setPenalties id above below => s.changeJournal id (s.setPenalties id above below)
  | .solve => s.solveJournal
  | .minSize width height => s.queryJournal width height 0
  | .maxSize width height => s.queryJournal width height s.options.largestSize
  | _ => []

end Spec

end ElasticLayout
