import ElasticLayout.Linear.Independence

/-!
# Equation systems under permutation

A linear system whose rows and columns are addressed through two permutations, so that an exchange
moves no entry.  Right sides are kept by position and move with their rows.  Only the leading rows
and columns are active.

* `EquationSystem` -- entries, right sides, permutations and active counts;
* `cell`, `setCell`, `swapRows`, `swapColumns`, `setRows` -- access by position;
* `gaussianElimination`, `gaussJordan` -- elimination with a unit diagonal; the flag says whether
  every active row found a pivot;
* `removeDependentRows`, `removeUnusedColumns` -- shrink the active part;
* `basicSolution` -- the right sides, written to the unknowns of the pivot columns.
-/

namespace ElasticLayout

open Linear

/-- A system of `R` equations in `C` unknowns. -/
structure EquationSystem (R C : Nat) (α : Type) where
  /-- Coefficients by equation and unknown. -/
  cells : Dense R C α
  /-- Right sides by position. -/
  rhs : Vector α R
  /-- The equation at each position. -/
  rowOrder : Vector (Fin R) R
  /-- The unknown at each position. -/
  columnOrder : Vector (Fin C) C
  /-- Number of active rows. -/
  rows : Nat
  /-- Number of active columns. -/
  columns : Nat
  rows_le : rows ≤ R
  columns_le : columns ≤ C

namespace EquationSystem

variable {α : Type} {R C : Nat}

/-! ### Access by position -/

/-- The system of given coefficients and right sides, in order and fully active. -/
def ofCells (cells : Dense R C α) (rhs : Vector α R) : EquationSystem R C α where
  cells := cells
  rhs := rhs
  rowOrder := Vector.finRange R
  columnOrder := Vector.finRange C
  rows := R
  columns := C
  rows_le := Nat.le_refl R
  columns_le := Nat.le_refl C

/-- Coefficient at a position. -/
def cell (s : EquationSystem R C α) (r : Fin R) (c : Fin C) : α :=
  s.cells.entry (s.rowOrder.get r) (s.columnOrder.get c)

/-- Write the coefficient at a position. -/
def setCell (s : EquationSystem R C α) (r : Fin R) (c : Fin C) (value : α) :
    EquationSystem R C α :=
  { s with cells := s.cells.setEntry (s.rowOrder.get r) (s.columnOrder.get c) value }

/-- Write the right side at a position. -/
def setRhs (s : EquationSystem R C α) (r : Fin R) (value : α) : EquationSystem R C α :=
  { s with rhs := s.rhs.set r.val value r.isLt }

/-- Exchange two rows with their right sides. -/
def swapRows (s : EquationSystem R C α) (i j : Fin R) : EquationSystem R C α :=
  { s with
    rowOrder := s.rowOrder.swap i.val j.val i.isLt j.isLt
    rhs := s.rhs.swap i.val j.val i.isLt j.isLt }

/-- Exchange two columns. -/
def swapColumns (s : EquationSystem R C α) (i j : Fin C) : EquationSystem R C α :=
  { s with columnOrder := s.columnOrder.swap i.val j.val i.isLt j.isLt }

/-- Make the leading rows active, at most all of them. -/
def setRows (s : EquationSystem R C α) (rows : Nat) : EquationSystem R C α :=
  { s with rows := min rows R, rows_le := Nat.min_le_right rows R }

/-- The active row positions. -/
def activeRows (s : EquationSystem R C α) : List (Fin R) :=
  (List.finRange R).filter (·.val < s.rows)

/-- The active column positions. -/
def activeColumns (s : EquationSystem R C α) : List (Fin C) :=
  (List.finRange C).filter (·.val < s.columns)

/-- The active part as an array. -/
def activeCells (s : EquationSystem R C α) : Dense s.rows s.columns α :=
  Dense.ofFn fun r c => s.cell (r.castLE s.rows_le) (c.castLE s.columns_le)

variable [Scalar α]

/-- The system whose coefficients and right sides are all zero. -/
def zeros : EquationSystem R C α := ofCells Dense.zeros (Vector.replicate R 0)

/-! ### Elimination -/

/-- The active unknowns from a position on. -/
def liveFrom (s : EquationSystem R C α) (c : Fin C) : List (Fin C) :=
  (s.activeColumns.filter (c ≤ ·)).map s.columnOrder.get

/-- Scale a row, from a column on, so that its entry in that column becomes one. -/
def normalize (s : EquationSystem R C α) (i : Fin R) (c : Fin C) : EquationSystem R C α :=
  let value := s.cell i c
  if value == 1 then s
  else
    let live := s.liveFrom c
    let row := s.cells.get (s.rowOrder.get i)
    { s with
      cells := s.cells.setRow (s.rowOrder.get i)
        (Vector.ofFn fun k => if live.contains k then row.get k / value else row.get k)
      rhs := s.rhs.set i.val (s.rhs.get i / value) i.isLt }

/-- Subtract a multiple of the pivot row `i` from row `r`, from a column on, so that the entry of
`r` in that column vanishes.  An entry near zero is left alone. -/
def eliminateRow (i : Fin R) (c : Fin C) (s : EquationSystem R C α) (r : Fin R) :
    EquationSystem R C α :=
  let q := -s.cell r c
  if r = i ∨ Scalar.near q 0 then s
  else
    let live := s.liveFrom c
    let pivot := s.cells.get (s.rowOrder.get i)
    let row := s.cells.get (s.rowOrder.get r)
    { s with
      cells := s.cells.setRow (s.rowOrder.get r)
        (Vector.ofFn fun k => if live.contains k then row.get k + pivot.get k * q else row.get k)
      rhs := s.rhs.set r.val (s.rhs.get r + s.rhs.get i * q) r.isLt }

/-- Normalize the pivot row and eliminate its column from other rows. -/
def eliminateColumn (s : EquationSystem R C α) (i : Fin R) (c : Fin C) (others : List (Fin R)) :
    EquationSystem R C α :=
  others.foldl (eliminateRow i c) (s.normalize i c)

/-- Bring a usable pivot to position `(i, c)`: the first row from `i` on with an entry in column
`c`, or else the first later column in which row `i` has an entry. -/
def bringPivot? (s : EquationSystem R C α) (i : Fin R) (c : Fin C) :
    Option (EquationSystem R C α) :=
  match s.activeRows.find? fun r => i ≤ r && !Scalar.near (s.cell r c) 0 with
  | some r => some (if r = i then s else s.swapRows i r)
  | none =>
    (s.activeColumns.find? fun k => c < k && !Scalar.near (s.cell i k) 0).map (s.swapColumns c)

/-- Treat the given pivot rows from the first to the last.  The flag is false, and the system is
left as it stands, once a row finds no pivot. -/
def eliminateDown (s : EquationSystem R C α) : List (Fin R) → EquationSystem R C α × Bool
  | [] => (s, true)
  | i :: rest =>
    if h : i.val < s.columns then
      let c : Fin C := Fin.castLE s.columns_le ⟨i.val, h⟩
      match s.bringPivot? i c with
      | none => (s, false)
      | some t => eliminateDown (t.eliminateColumn i c (t.activeRows.filter (i < ·))) rest
    else (s, false)

/-- Upper triangular form with a unit diagonal. -/
def gaussianElimination (s : EquationSystem R C α) : EquationSystem R C α × Bool :=
  s.eliminateDown s.activeRows

/-- Eliminate upward from the given pivot rows. -/
def eliminateUp (s : EquationSystem R C α) (i : Fin R) : EquationSystem R C α :=
  if h : i.val < C then s.eliminateColumn i ⟨i.val, h⟩ ((List.finRange R).filter (· < i)) else s

/-- Reduced row echelon form. -/
def gaussJordan (s : EquationSystem R C α) : EquationSystem R C α × Bool :=
  match s.gaussianElimination with
  | (t, false) => (t, false)
  | (t, true) => (t.activeRows.reverse.foldl eliminateUp t, true)

/-! ### Shrinking -/

/-- Move the rows that depend on others behind the independent ones, and make them inactive. -/
def removeDependentRows (s : EquationSystem R C α) : EquationSystem R C α :=
  let kept := independentRows s.activeCells
  let dropped := (List.finRange s.rows).filter fun r => !kept.contains r
  let order := (kept ++ dropped).toArray
  let source (r : Fin R) : Fin R := (order[r.val]?.map (Fin.castLE s.rows_le)).getD r
  { s with
    rowOrder := Vector.ofFn fun r => s.rowOrder.get (source r)
    rhs := Vector.ofFn fun r => s.rhs.get (source r)
    rows := kept.length
    rows_le := Nat.le_trans (independentRows_length_le s.activeCells) s.rows_le }

/-- A column has an entry in some active row. -/
def isUsed (s : EquationSystem R C α) (c : Fin C) : Bool :=
  s.activeRows.any fun r => !Scalar.near (s.cell r c) 0

/-- Exchange a column with the last active one, and make it inactive. -/
def dropColumn (s : EquationSystem R C α) (c : Fin C) (h : c.val < s.columns) :
    EquationSystem R C α :=
  { s.swapColumns c ⟨s.columns - 1, by have := s.columns_le; omega⟩ with
    columns := s.columns - 1
    columns_le := Nat.le_trans (Nat.sub_le s.columns 1) s.columns_le }

/-- Drop the unused ones among `count` columns from position `c` on. -/
def dropUnused (s : EquationSystem R C α) (c : Nat) : Nat → EquationSystem R C α
  | 0 => s
  | count + 1 =>
    if h : c < s.columns then
      let column : Fin C := Fin.castLE s.columns_le ⟨c, h⟩
      if s.isUsed column then s.dropUnused (c + 1) count
      else (s.dropColumn column h).dropUnused c count
    else s

/-- Move the columns without an entry in any active row to the end, and make them inactive. -/
def removeUnusedColumns (s : EquationSystem R C α) : EquationSystem R C α :=
  s.dropUnused 0 s.columns

/-! ### Solution -/

/-- The first `length` entries of the basic solution: the column at position `i` takes the right
side of row `i`, and every other column is zero. -/
def basicSolution (s : EquationSystem R C α) (length : Nat) : Vector α length :=
  ((List.finRange R).filter (·.val < min s.rows s.columns)).foldl
    (fun solution i =>
      if h : i.val < C then
        solution.setIfInBounds (s.columnOrder.get ⟨i.val, h⟩).val (s.rhs.get i)
      else solution)
    (Vector.replicate length 0)

end EquationSystem

end ElasticLayout
