import ElasticLayout.Json.Writer
import ElasticLayout.Spec.Basic

/-!
# Listings of a specification

* `Spec.listing` -- all variables and constraints, for a human reader;
* `Size.toJson`, `Spec.snapshot` -- data for a program: a size, and the variables of the caller with
  the outcome of the last solve.
-/

namespace ElasticLayout

open Decimal

/-- A size as data. -/
def Size.toJson (size : Size Float) : Json :=
  Json.ofMembers [("width", Json.ofFloat size.width), ("height", Json.ofFloat size.height)]

namespace Spec

/-- The line of a variable. -/
def listVariable (s : Spec Float) (id : VariableId) (v : Variable Float) : String :=
  "  " ++ s.variableName id ++ " = " ++ plain.render v.value ++ " in [" ++ plain.render v.lower
    ++ ", " ++ plain.render v.upper ++ "]\n"

/-- A left side. -/
def listLeft (s : Spec Float) (left : List (Summand Float)) : String :=
  " + ".intercalate (left.map fun term =>
    plain.render term.coefficient ++ "*" ++ s.variableName term.var)

/-- The line of a constraint. -/
def listConstraint (s : Spec Float) (id : ConstraintId) (c : Constraint Float) : String :=
  let label := (c.label.map (· ++ ": ")).getD ""
  let penalties :=
    if c.isSoft then
      " (penalties " ++ plain.render c.penaltyAbove ++ ", " ++ plain.render c.penaltyBelow ++ ")"
    else ""
  "  " ++ label ++ s.listLeft c.left ++ " " ++ c.relation.symbol ++ " " ++ plain.render c.right
    ++ penalties ++ (if c.isSuspended then " [suspended]" else "") ++ "  #" ++ toString id.index
    ++ "\n"

/-- The whole specification. -/
def listing (s : Spec Float) : String :=
  "Variables:\n" ++ String.join (s.variableList.map fun (id, v) => s.listVariable id v)
    ++ "Constraints:\n" ++ String.join (s.constraintList.map fun (id, c) => s.listConstraint id c)
    ++ "Result: " ++ s.result.name

/-- A variable as data. -/
def variableData (v : Variable Float) : Json :=
  Json.ofMembers
    [("label", Json.ofText? v.label), ("value", Json.ofFloat v.value),
      ("min", Json.ofFloat v.lower), ("max", Json.ofFloat v.upper)]

/-- The variables of the caller and the outcome of the last solve, with the milliseconds it took. -/
def snapshot (s : Spec Float) (milliseconds : Float) : Json :=
  Json.ofMembers
    [("result", Json.ofText s.result.name), ("solving_time_ms", Json.ofFloat milliseconds),
      ("variables",
        .array ((s.variableList.filter (!·.2.isSlack)).map fun (_, v) => variableData v))]

end Spec

end ElasticLayout
