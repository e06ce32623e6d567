import ElasticLayout.Decimal.Fixed
import ElasticLayout.EquationSystem

/-!
# Listing an equation system

* `EquationSystem.listing` -- the active part, one row on a line, with one decimal place.
-/

namespace ElasticLayout.EquationSystem

variable {R C : Nat}

/-- One active row with its right side. -/
def listRow (s : EquationSystem R C Float) (r : Fin R) : String :=
  let entries := s.activeColumns.map fun c => Decimal.fixed 1 (s.cell r c) ++ " "
  String.join entries ++ "= " ++ Decimal.fixed 1 (s.rhs.get r) ++ "\n"

/-- The active rows. -/
def listing (s : EquationSystem R C Float) : String := String.join (s.activeRows.map s.listRow)

end ElasticLayout.EquationSystem
