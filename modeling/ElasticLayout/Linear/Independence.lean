import ElasticLayout.Linear.Dense
import ElasticLayout.Linear.Pivot

/-!
# Linearly independent rows

Forward elimination that records which rows serve as pivots.  A column whose remaining entries all
vanish is skipped, so that the number of pivots is the numerical rank.

* `Reduction` -- an array under elimination, the rows chosen so far and the others;
* `Reduction.ofDense`, `Reduction.step`, `reduceRows` -- start, one column, all columns;
* `independentRows` -- the chosen rows in their order in the array;
* `independenceMask` -- which rows are chosen.
-/

namespace ElasticLayout.Linear

variable {α : Type} [Scalar α] {m n : Nat}

/-- An array under forward elimination. -/
structure Reduction (m n : Nat) (α : Type) where
  /-- The entries; the rows stay in their places. -/
  cells : Dense m n α
  /-- The rows chosen as pivots, in the order of choice. -/
  chosen : List (Fin m)
  /-- The other rows, as the exchanges of pivoting have ordered them. -/
  rest : List (Fin m)

namespace Reduction

/-- No row is chosen yet. -/
def ofDense (a : Dense m n α) : Reduction m n α := ⟨a, [], List.finRange m⟩

/-- A row less a multiple of the pivot row, from a column on. -/
def eliminate (column : Fin n) (pivot row : Vector α n) : Vector α n :=
  let q := -row.get column / pivot.get column
  Vector.ofFn fun k =>
    if k = column then 0 else if column < k then row.get k + pivot.get k * q else row.get k

/-- Treat one column: choose a pivot row and eliminate the column from the rows that are left. -/
def step (s : Reduction m n α) (column : Fin n) : Reduction m n α :=
  match pivot? (fun r => s.cells.entry r column) s.rest with
  | none => s
  | some (p, others) =>
    if Scalar.near (Scalar.abs (s.cells.entry p column)) 0 then s
    else
      { cells := Vector.ofFn fun r =>
          if others.contains r then eliminate column (s.cells.get p) (s.cells.get r)
          else s.cells.get r
        chosen := s.chosen ++ [p]
        rest := others }

end Reduction

/-- Eliminate all columns from the left to the right. -/
def reduceRows (a : Dense m n α) : Reduction m n α :=
  (List.finRange n).foldl Reduction.step (.ofDense a)

/-- The numerical rank. -/
def rank (a : Dense m n α) : Nat := (reduceRows a).chosen.length

/-- Which rows are independent of the others. -/
def independenceMask (a : Dense m n α) : Vector Bool m :=
  let chosen := (reduceRows a).chosen
  Vector.ofFn fun r => chosen.contains r

/-- The independent rows, in their order in the array. -/
def independentRows (a : Dense m n α) : List (Fin m) :=
  let mask := independenceMask a
  (List.finRange m).filter mask.get

theorem independentRows_length_le (a : Dense m n α) : (independentRows a).length ≤ m := by
  simpa [independentRows] using
    List.length_filter_le (independenceMask a).get (List.finRange m)

end ElasticLayout.Linear
