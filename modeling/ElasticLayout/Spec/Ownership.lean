import ElasticLayout.Spec.Basic

/-!
# Internal constraints

What the specification does on its own behalf: it counts references, keeps bound constraints in step
with ranges, and gives soft inequalities their slacks.  A soft `lhs <= rhs` becomes the hard row
`lhs - s <= rhs` with a slack `s` between zero and `Variable.slackUpper`, and the soft equality
`s = 0` with the same penalties; a soft `>=` gets `+ s`.

* `Spec.retain`, `Spec.release` -- reference counts;
* `Spec.place`, `Spec.withdraw` -- store and remove a constraint that owns nothing;
* `Spec.applyRange` -- set a range and its bound constraints;
* `Spec.attach`, `Spec.detach` -- give a slack, and take it back;
* `Spec.register`, `Spec.drop`, `Spec.mutate` -- store, remove and change any constraint;
* `Spec.dropVariable` -- remove a variable with its bound constraints.
-/

namespace ElasticLayout

variable {α : Type}

/-- The factor of the slack in an elastic constraint; an equality has none. -/
def Relation.slackCoefficient? [Scalar α] : Relation → Option α
  | .le => some (-1)
  | .ge => some 1
  | .eq => none

namespace Spec

/-! ### Single entries -/

/-- Change the variable behind a handle. -/
def modifyVariable (s : Spec α) (id : VariableId) (f : Variable α → Variable α) : Spec α :=
  { s with variableStore := s.variableStore.modify id.slot f }

/-- Change the constraint behind a handle. -/
def modifyConstraint (s : Spec α) (id : ConstraintId) (f : Constraint α → Constraint α) : Spec α :=
  { s with constraintStore := s.constraintStore.modify id.slot f }

/-- Count one reference more for each variable of a left side. -/
def retain (s : Spec α) (left : List (Summand α)) : Spec α :=
  left.foldl (fun s term =>
    s.modifyVariable term.var fun v => { v with references := v.references + 1 }) s

/-- Count one reference less for each variable of a left side. -/
def release (s : Spec α) (left : List (Summand α)) : Spec α :=
  left.foldl (fun s term =>
    s.modifyVariable term.var fun v => { v with references := v.references - 1 }) s

/-- Store a constraint and count its references.  Bound constraints and the penalties of slacks are
stored in this way: `register` would not give them a slack, by `Spec.register_of_isInternal`. -/
def place (s : Spec α) (c : Constraint α) : ConstraintId × Spec α :=
  let s := s.retain c.left
  let (slot, constraintStore) := s.constraintStore.insert c
  (⟨slot⟩, { s with constraintStore })

/-- Remove a constraint that owns nothing, and its references.  Bound constraints and the penalties
of slacks are removed in this way: `drop` does no more to them, by `Spec.drop_of_isInternal`. -/
def withdraw (s : Spec α) (id : ConstraintId) : Spec α :=
  match s.getConstraint? id with
  | none => s
  | some c => { s with constraintStore := s.constraintStore.erase id.slot }.release c.left

/-- Remove a variable with its bound constraints. -/
def dropVariable (s : Spec α) (id : VariableId) : Spec α :=
  match s.getVariable? id with
  | none => s
  | some v =>
    let s := v.bounds.foldl withdraw s
    { s with variableStore := s.variableStore.erase id.slot }

variable [Scalar α]

/-! ### Ranges -/

/-- Add, move or remove the bound constraint of one end of a range. -/
def syncBound (s : Spec α) (id : VariableId) (existing : Option ConstraintId) (relation : Relation)
    (limit : α) (needed : Bool) : Option ConstraintId × Spec α :=
  match existing, needed with
  | some bound, true => (some bound, s.modifyConstraint bound fun c => { c with right := limit })
  | some bound, false => (none, s.withdraw bound)
  | none, true =>
    let (bound, s) := s.place (.fresh [⟨1, id⟩] relation limit 0 0 (.bound id))
    (some bound, s)
  | none, false => (none, s)

/-- Set the range of a variable, and bring its bound constraints in step. -/
def applyRange (s : Spec α) (id : VariableId) (lower upper : α) : Spec α :=
  match s.getVariable? id with
  | none => s
  | some v =>
    let s := s.modifyVariable id fun v => { v with lower, upper }
    let (lowerBound, s) :=
      s.syncBound id v.lowerBound .ge lower (Variable.defaultLower < lower)
    let (upperBound, s) :=
      s.syncBound id v.upperBound .le upper (upper < Variable.defaultUpper)
    s.modifyVariable id fun v => { v with lowerBound, upperBound }

/-! ### Slacks -/

/-- Give a constraint a slack with some factor. -/
def attachSlack (s : Spec α) (id : ConstraintId) (c : Constraint α) (coefficient : α) : Spec α :=
  let (slot, variableStore) := s.variableStore.insert (Variable.fresh none true : Variable α)
  let slack : VariableId := ⟨slot⟩
  let s := { s with variableStore }.applyRange slack 0 Variable.slackUpper
  let term : Summand α := ⟨coefficient, slack⟩
  let s := (s.modifyConstraint id fun c => { c with left := c.left ++ [term] }).retain [term]
  let (penalty, s) := s.place
    (.fresh [⟨1, slack⟩] .eq 0 c.penaltyAbove c.penaltyBelow (.slackPenalty id))
  s.modifyConstraint id fun c => { c with elastic := some ⟨slack, coefficient, penalty⟩ }

/-- Give a soft inequality its slack, unless it has one.  Other constraints are left alone. -/
def attach (s : Spec α) (id : ConstraintId) : Spec α :=
  match s.getConstraint? id with
  | none => s
  | some c =>
    if c.elastic.isSome || !c.isSoftInequality then s
    else match (c.relation.slackCoefficient? : Option α) with
      | none => s
      | some coefficient => s.attachSlack id c coefficient

omit [Scalar α] in
/-- Take the slack of an elastic constraint back. -/
def detach (s : Spec α) (id : ConstraintId) : Spec α :=
  match (s.getConstraint? id).bind fun c => c.elastic.map fun e => (c, e) with
  | none => s
  | some (c, e) =>
    let (removed, kept) := c.left.partition (·.var == e.slack)
    let s := s.modifyConstraint id fun c => { c with elastic := none, left := kept }
    ((s.release removed).withdraw e.penalty).dropVariable e.slack

/-! ### Constraints of any kind -/

/-- Store a constraint, and give it a slack if it is a soft inequality. -/
def register (s : Spec α) (c : Constraint α) : ConstraintId × Spec α :=
  let (id, s) := s.place c
  (id, s.attach id)

omit [Scalar α] in
/-- Remove a constraint with all it owns. -/
def drop (s : Spec α) (id : ConstraintId) : Spec α := (s.detach id).withdraw id

/-- Change a constraint; its slack is taken back before, and given after the change. -/
def mutate (s : Spec α) (id : ConstraintId) (change : Constraint α → Constraint α) : Spec α :=
  let s := s.detach id
  match s.getConstraint? id with
  | none => s
  | some c =>
    let s := s.modifyConstraint id change
    ((s.release c.left).retain (change c).left).attach id

end Spec

end ElasticLayout
