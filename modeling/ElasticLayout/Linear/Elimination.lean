import ElasticLayout.Outcome
import ElasticLayout.Linear.Dense
import ElasticLayout.Linear.Pivot

/-!
# Square linear systems

Gaussian elimination with partial pivoting.

* `Equation` -- coefficients and right side;
* `Equation.reduce` -- one equation less a multiple of the pivot equation, without its first
  unknown;
* `solveEquations` -- eliminate the first unknown, solve for the others, substitute back;
* `solve` -- the solution of a square system.
-/

namespace ElasticLayout.Linear

variable {α : Type} [Scalar α]

/-- A linear equation over the unknowns that are still to be eliminated. -/
structure Equation (α : Type) where
  /-- One coefficient per unknown. -/
  coefficients : List α
  /-- Right side. -/
  rhs : α

namespace Equation

/-- Coefficient of the first unknown. -/
def lead (e : Equation α) : α := e.coefficients.headD 0

/-- Coefficients of the other unknowns. -/
def tail (e : Equation α) : List α := e.coefficients.tail

/-- Eliminate the first unknown with the pivot equation. -/
def reduce (pivot e : Equation α) : Equation α :=
  let q := -e.lead / pivot.lead
  if q == 0 then ⟨e.tail, e.rhs⟩
  else ⟨List.zipWith (fun a p => a + p * q) e.tail pivot.tail, e.rhs + pivot.rhs * q⟩

/-- Value of the first unknown, given those of the others. -/
def leadValue (e : Equation α) (others : List α) : α :=
  (List.zipWith (· * ·) e.tail others).foldl (· - ·) e.rhs / e.lead

end Equation

/-- Solve a list of equations in `n` unknowns; fails where no pivot is left. -/
def solveEquations : (n : Nat) → List (Equation α) → Except SolveError (Vector α n)
  | 0, _ => .ok #v[]
  | n + 1, equations =>
    match pivot? Equation.lead equations with
    | none => .error .singularSystem
    | some (pivot, others) =>
      if Scalar.near (Scalar.abs pivot.lead) 0 then .error .singularSystem
      else do
        let values ← solveEquations n (others.map pivot.reduce)
        return (#v[pivot.leadValue values.toList] ++ values).cast (Nat.add_comm 1 n)

/-- Solve the square system `a x = b`. -/
def solve {n : Nat} (a : Dense n n α) (b : Vector α n) : Except SolveError (Vector α n) :=
  solveEquations n ((List.finRange n).map fun i => ⟨(a.get i).toList, b.get i⟩)

end ElasticLayout.Linear
