import ElasticLayout.Decimal.Notation
import ElasticLayout.Spec.Basic

/-!
# Rejected calls

* `SpecError` -- why a call was rejected; the specification is left as it was;
* `SpecError.message` -- its wording.
-/

namespace ElasticLayout

/-- Why a call was rejected. -/
inductive SpecError (α : Type) where
  /-- A left side needs one coefficient per variable. -/
  | lengthMismatch (coefficients ids : Nat)
  /-- The handle is stale, or its variable belongs to an elastic constraint. -/
  | invalidVariable (id : VariableId)
  /-- The handle is stale, or its constraint was not added by the caller. -/
  | invalidConstraint (id : ConstraintId)
  /-- The ends of a range are no numbers, or the wrong way round. -/
  | invalidRange (lower upper : α)
  /-- A penalty is negative or not finite. -/
  | invalidPenalty (above below : α)
  /-- A right side is not finite. -/
  | invalidRightSide (right : α)
  /-- There is no file format for specifications. -/
  | unsupported

/-- A slot, spelled out. -/
def Slot.describe (slot : Slot) : String :=
  "Slot \x7b index: " ++ toString slot.index.toNat ++ ", generation: "
    ++ toString slot.generation.toNat ++ " \x7d"

/-- The wording of a rejection. -/
def SpecError.message : SpecError Float → String
  | lengthMismatch coefficients ids =>
    s!"{coefficients} coefficients given for {ids} variables"
  | invalidVariable id =>
    "variable VariableId(" ++ id.slot.describe ++ ") does not exist or is managed internally"
  | invalidConstraint id =>
    "constraint ConstraintId(" ++ id.slot.describe ++ ") does not exist or is managed internally"
  | invalidRange lower upper =>
    "invalid range [" ++ Decimal.plain.render lower ++ ", " ++ Decimal.plain.render upper ++ "]"
  | invalidPenalty above below =>
    "penalties must be finite and non-negative, got (" ++ Decimal.plain.render above ++ ", "
      ++ Decimal.plain.render below ++ ")"
  | invalidRightSide right => "right side must be finite, got " ++ Decimal.plain.render right
  | unsupported => "saving a specification is not supported"

end ElasticLayout
