import ElasticLayout.Spec.Fault

/-!
# Model files

A specification as a file describes it: variables by name, and constraints over the names.

* `VariableEntry`, `Term`, `ConstraintEntry`, `ModelFile` -- the description;
* `ModelError` -- why a description makes no specification, and its wording.
-/

namespace ElasticLayout

/-- The description of a variable. -/
structure VariableEntry (α : Type) where
  /-- The name. -/
  name : String
  /-- Lower end of the range, if it is not the default one. -/
  lower : Option α
  /-- Upper end of the range, if it is not the default one. -/
  upper : Option α

/-- A multiple of a named variable. -/
structure Term (α : Type) where
  /-- The factor. -/
  coefficient : α
  /-- The name of the variable. -/
  name : String

/-- The description of a constraint. -/
structure ConstraintEntry (α : Type) where
  /-- A name for the constraint. -/
  label : Option String
  /-- Left side. -/
  terms : List (Term α)
  /-- Comparison of the two sides. -/
  relation : Relation
  /-- Right side. -/
  right : α
  /-- Penalty for a left side above the right side. -/
  penaltyAbove : α
  /-- Penalty for a left side below the right side. -/
  penaltyBelow : α

/-- The description of a specification. -/
structure ModelFile (α : Type) where
  /-- The variables, in the order of their declaration. -/
  variableEntries : List (VariableEntry α)
  /-- The constraints. -/
  constraintEntries : List (ConstraintEntry α)

/-- Why a description makes no specification. -/
inductive ModelError (α : Type) where
  /-- Two variables have one name. -/
  | duplicateVariable (name : String)
  /-- A constraint mentions a name that no variable has. -/
  | unknownVariable (index : Nat) (name : String)
  /-- The specification rejected an entry. -/
  | rejected (reason : SpecError α)

/-- The wording of the error. -/
def ModelError.message : ModelError Float → String
  | duplicateVariable name => "variable '" ++ name ++ "' is declared twice"
  | unknownVariable index name =>
    "constraint " ++ toString index ++ " references unknown variable '" ++ name ++ "'"
  | rejected reason => reason.message

end ElasticLayout
