import ElasticLayout.Json.Reader
import ElasticLayout.Json.Record
import ElasticLayout.ModelFile.Basic

/-!
# Reading model files

* `ModelFile.ofJson?` -- the description that a data tree holds;
* `ModelFile.parse?` -- the description that a text holds; none if the text is no data tree, or
  lacks a field, or has a value of the wrong kind.
-/

namespace ElasticLayout

open Json

/-- The variable that a data tree describes. -/
def VariableEntry.ofJson? (tree : Json) : Option (VariableEntry Float) := do
  let fields ← fields? ["name", "min", "max"] 3 tree
  return {
    name := ← fields.required? 0 text?
    lower := ← fields.optional? 1 float?
    upper := ← fields.optional? 2 float? }

/-- The term that a data tree describes. -/
def Term.ofJson? (tree : Json) : Option (Term Float) := do
  let fields ← fields? ["coeff", "var"] 2 tree
  return { coefficient := ← fields.required? 0 float?, name := ← fields.required? 1 text? }

/-- The constraint that a data tree describes.  Penalties that are not given are zero. -/
def ConstraintEntry.ofJson? (tree : Json) : Option (ConstraintEntry Float) := do
  let fields ← fields? ["label", "terms", "op", "rhs", "penalty_neg", "penalty_pos"] 4 tree
  return {
    label := ← fields.optional? 0 text?
    terms := ← fields.required? 1 (listOf? Term.ofJson?)
    relation := ← fields.required? 2 (choice? Relation.ofName?)
    right := ← fields.required? 3 float?
    penaltyAbove := ← fields.orElse? 4 0.0 float?
    penaltyBelow := ← fields.orElse? 5 0.0 float? }

namespace ModelFile

/-- The description that a data tree holds. -/
def ofJson? (tree : Json) : Option (ModelFile Float) := do
  let fields ← fields? ["variables", "constraints"] 1 tree
  return {
    variableEntries := ← fields.required? 0 (listOf? VariableEntry.ofJson?)
    constraintEntries := ← fields.orElse? 1 [] (listOf? ConstraintEntry.ofJson?) }

/-- The description that a text holds. -/
def parse? (source : String) : Option (ModelFile Float) := do ofJson? (← Reader.parse? source)

end ModelFile

end ElasticLayout
