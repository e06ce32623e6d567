import ElasticLayout.Scalar

/-!
# Outcomes of a solve

* `ResultCode` -- how a solve ended, as reported to the caller;
* `SolveError` -- why a single solve failed; `SolveError.resultCode` maps each reason to a code;
* `Size` -- the answer to a size query.
-/

namespace ElasticLayout

/-- How a solve ended. -/
inductive ResultCode where
  /-- All hard constraints hold and the penalty is minimal. -/
  | optimal
  /-- A feasible but not provably optimal point was returned. -/
  | subOptimal
  /-- No assignment satisfies the hard constraints. -/
  | infeasible
  /-- The relaxed problem has no finite optimum. -/
  | unbounded
  /-- The active-set iteration did not settle. -/
  | degenerate
  /-- The numbers broke down: a singular system or a rank mismatch. -/
  | numFailure
  /-- Nothing has been solved yet, or the model is unusable. -/
  | error
  /-- Storage ran out. -/
  | noMemory
deriving DecidableEq, Inhabited

namespace ResultCode

/-- The codes under which the values of the variables may be used. -/
def isSuccess : ResultCode → Bool
  | optimal | subOptimal => true
  | _ => false

/-- The name of a code. -/
def name : ResultCode → String
  | optimal => "Optimal"
  | subOptimal => "SubOptimal"
  | infeasible => "Infeasible"
  | unbounded => "Unbounded"
  | degenerate => "Degenerate"
  | numFailure => "NumFailure"
  | error => "Error"
  | noMemory => "NoMemory"

/-- Every code once. -/
def all : List ResultCode :=
  [optimal, subOptimal, infeasible, unbounded, degenerate, numFailure, error, noMemory]

/-- The code of a name. -/
def ofName? (name : String) : Option ResultCode := all.find? (·.name == name)

end ResultCode

/-- Why a single solve failed. -/
inductive SolveError where
  /-- A problem needs at least as many rows as columns. -/
  | tooManyVariables (columns rows : Nat)
  /-- The hard rows contradict each other. -/
  | noFeasiblePoint
  /-- A pivot of a square system vanished. -/
  | singularSystem
  /-- A matrix to be factored has dependent columns. -/
  | qrDecomposition
  /-- The multiplier system has the wrong rank. -/
  | lagrangeRankMismatch (rank expected : Nat)
  /-- The bound on pivots or iterations was reached. -/
  | iterationLimit (limit : Nat)
  /-- A row is too long for the columns of its problem. -/
  | malformedRow
deriving DecidableEq, Inhabited

namespace SolveError

/-- The code that a failed solve reports. -/
def resultCode : SolveError → ResultCode
  | tooManyVariables .. | noFeasiblePoint => .infeasible
  | singularSystem | qrDecomposition | lagrangeRankMismatch .. => .numFailure
  | iterationLimit _ => .degenerate
  | malformedRow => .error

/-- The text of a failure. -/
def message : SolveError → String
  | tooManyVariables columns rows =>
    s!"more variables ({columns}) than constraints ({rows})"
  | noFeasiblePoint => "no point satisfies all hard constraints"
  | singularSystem => "linear system is singular"
  | qrDecomposition =>
    "QR decomposition failed: matrix is rank deficient or has fewer rows than columns"
  | lagrangeRankMismatch rank expected => s!"Lagrange system has rank {rank}, expected {expected}"
  | iterationLimit limit => s!"active set did not converge within {limit} iterations"
  | malformedRow => "a row has more coefficients than its problem has columns"

end SolveError

/-- A width and a height. -/
structure Size (α : Type) where
  /-- Extent in the first direction. -/
  width : α
  /-- Extent in the second direction. -/
  height : α

namespace Size

variable {α : Type} [Scalar α]

/-- The size of nothing. -/
def zero : Size α := ⟨0, 0⟩

/-- The size of something without a limit. -/
def unbounded : Size α := ⟨Scalar.huge, Scalar.huge⟩

/-- Both extents compare equal. -/
def same (a b : Size α) : Bool := a.width == b.width && a.height == b.height

end Size

end ElasticLayout
