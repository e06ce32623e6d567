import ElasticLayout.Problem.Basic

/-!
# The quadratic objective

With the weighted soft rows as `W` and their weighted targets as `r`, half the squared length of
`W x - r` is `1/2 x' G x + d' x` up to a constant, where `G = W' W` and `d = -W' r`.

* `layRows?` -- rows laid end to end into an array;
* `Objective` -- the terms `G` and `d`;
* `Problem.objective?` -- the terms of a problem, none if a row does not fit;
* `Objective.value`, `Objective.gradient` -- at a point.
-/

namespace ElasticLayout

open Linear

variable {α : Type} [Scalar α]

/-- Lay rows into an array of `n` columns, row after row.  A short row is filled up with zeros; what
a long row has in excess runs on into the next row, whose own entries go over it.  None if the last
row is too long for what runs on. -/
def layRows? (n : Nat) (excess : List α) : (rows : List (List α)) → Option (Dense rows.length n α)
  | [] => if excess.isEmpty then some #v[] else none
  | row :: rows => do
    let cells := row ++ excess.drop row.length
    let laid ← layRows? n (cells.drop n) rows
    let first : Vector α n := Vector.ofFn fun j => cells.getD j 0
    return (#v[first] ++ laid).cast (by simp [Nat.add_comm])

/-- The terms of `1/2 x' G x + d' x` over `n` columns. -/
structure Objective (n : Nat) (α : Type) where
  /-- Second-order term `G`. -/
  quadratic : Dense n n α
  /-- First-order term `d`. -/
  linear : Vector α n

namespace Objective

variable {n : Nat}

/-- The objective at a point. -/
def value (f : Objective n α) (x : Vector α n) : α :=
  let quadratic := dot (f.quadratic.mulVec x).toList x.toList
  let linear := dot f.linear.toList x.toList
  0.5 * quadratic + linear

/-- The gradient `G x + d` at a point. -/
def gradient (f : Objective n α) (x : Vector α n) : Vector α n :=
  let slope := f.quadratic.mulVec x
  Vector.ofFn fun j => slope.get j + f.linear.get j

end Objective

namespace Problem

/-- The coefficients of the soft rows, each times its weight. -/
def weightedRows (p : Problem α) : List (List α) :=
  p.soft.map fun row => row.coefficients.map (· * row.weight)

/-- The targets of the soft rows, each times its weight. -/
def weightedTargets (p : Problem α) : List α := p.soft.map fun row => row.rhs * row.weight

/-- The objective of a problem; none if a soft row is too long. -/
def objective? (p : Problem α) : Option (Objective p.variableCount α) := do
  let w ← layRows? p.variableCount [] p.weightedRows
  let columns := w.transpose
  return {
    quadratic := columns.mul w
    linear := Vector.ofFn fun j => -dot (columns.get j).toList p.weightedTargets }

end Problem

end ElasticLayout
