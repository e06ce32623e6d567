import ElasticLayout.ModelFile.Basic
import ElasticLayout.Spec.Journal

/-!
# Specifications from model files

* `LoadedModel` -- a specification with its variables by name;
* `LoadedModel.lookup?` -- the variable of a name;
* `LoadedModel.declare`, `LoadedModel.impose` -- take in one entry of a file;
* `ModelFile.build` -- take in all entries, up to the first that does not fit;
* `ModelFile.journal` -- the events of building.
-/

namespace ElasticLayout

variable {α : Type}

/-- A specification with its variables by name. -/
structure LoadedModel (α : Type) where
  /-- The specification. -/
  spec : Spec α
  /-- The names of the variables, in the order of their declaration. -/
  names : List (String × VariableId)

namespace LoadedModel

/-- The variable of a name. -/
def lookup? (m : LoadedModel α) (name : String) : Option VariableId :=
  (m.names.find? (·.1 == name)).map (·.2)

/-- The left side that terms describe, as coefficients and variables, for the constraint at some
place of the file. -/
def resolve (m : LoadedModel α) (index : Nat) (terms : List (Term α)) :
    Except (ModelError α) (List α × List VariableId) := do
  let ids ← terms.mapM fun term => match m.lookup? term.name with
    | some id => .ok id
    | none => .error (.unknownVariable index term.name)
  return (terms.map (·.coefficient), ids)

/-- Set an end of a range, if the file gives one. -/
def narrow (s : Spec α) (limit : Option α) (set : Spec α → α → Except (SpecError α) (Spec α)) :
    Except (ModelError α) (Spec α) :=
  match limit with
  | none => .ok s
  | some limit => (set s limit).mapError .rejected

variable [Scalar α]

/-- Declare a variable. -/
def declare (m : LoadedModel α) (entry : VariableEntry α) :
    Except (ModelError α) (LoadedModel α) :=
  if (m.lookup? entry.name).isSome then .error (.duplicateVariable entry.name)
  else do
    let (id, s) := m.spec.addVariable (some entry.name)
    let s ← narrow s entry.lower (·.setLower id ·)
    let s ← narrow s entry.upper (·.setUpper id ·)
    return ⟨s, m.names ++ [(entry.name, id)]⟩

/-- Impose the constraint at some place of the file. -/
def impose (m : LoadedModel α) (entry : ConstraintEntry α) (index : Nat) :
    Except (ModelError α) (ConstraintId × LoadedModel α) := do
  let (coefficients, ids) ← m.resolve index entry.terms
  let (id, s) ← (m.spec.addConstraint coefficients ids entry.relation entry.right
    entry.penaltyAbove entry.penaltyBelow).mapError .rejected
  match entry.label with
  | none => return (id, { m with spec := s })
  | some label => do
    let s ← (s.setConstraintLabel id label).mapError .rejected
    return (id, { m with spec := s })

/-- Impose the constraints from some place of the file on. -/
def imposeAll (m : LoadedModel α) : List (ConstraintEntry α) → Nat →
    Except (ModelError α) (LoadedModel α)
  | [], _ => .ok m
  | entry :: entries, index => do
    let (_, m) ← m.impose entry index
    m.imposeAll entries (index + 1)

/-- The events of imposing the constraints from some place of the file on. -/
def impositions (m : LoadedModel α) : List (ConstraintEntry α) → Nat → List (Event α)
  | [], _ => []
  | entry :: entries, index =>
    match m.impose entry index with
    | .error _ => []
    | .ok (id, m) => m.spec.attachments [id] ++ m.impositions entries (index + 1)

end LoadedModel

namespace ModelFile

variable [Scalar α]

/-- Declare all variables. -/
def declareAll (file : ModelFile α) (options : Options α) :
    Except (ModelError α) (LoadedModel α) :=
  file.variableEntries.foldlM LoadedModel.declare ⟨{ options }, []⟩

/-- The specification that a file describes. -/
def build (file : ModelFile α) (options : Options α) : Except (ModelError α) (LoadedModel α) := do
  let m ← file.declareAll options
  m.imposeAll file.constraintEntries 0

/-- The events of building, up to the entry that does not fit, if there is one. -/
def journal (file : ModelFile α) (options : Options α) : List (Event α) :=
  match file.declareAll options with
  | .error _ => []
  | .ok m => m.impositions file.constraintEntries 0

end ModelFile

end ElasticLayout
