import ElasticLayout.Linear.Dense

/-!
# Arrays of any shape

An array together with its shape, for callers who know the shape only when they run.  An entry is
addressed by its offset in the row-major sequence of entries, so a column index may run over the
end of its row.

* `Grid` -- shape and entries;
* `Grid.ofRows?` -- none unless all rows are of one length;
* `Grid.mul?`, `Grid.mulVec?`, `Grid.columnsFrom?` -- none on a mismatch of shapes;
* `Grid.get?`, `Grid.set?` -- one entry, none beyond the last one.
-/

namespace ElasticLayout.Linear

variable {α : Type}

/-- An array with its shape. -/
structure Grid (α : Type) where
  /-- Number of rows. -/
  rows : Nat
  /-- Number of columns. -/
  columns : Nat
  /-- Entries. -/
  cells : Dense rows columns α

namespace Grid

/-- The array of rows of one length; no rows make an array without columns. -/
def ofRows? (rows : List (List α)) : Option (Grid α) :=
  let columns := (rows.head?.map List.length).getD 0
  if h : ∀ row ∈ rows, row.length = columns then
    some
      { rows := rows.length, columns
        cells := Dense.ofFn fun i j =>
          rows[i].get ⟨j.val, by rw [h rows[i] (List.getElem_mem i.isLt)]; exact j.isLt⟩ }
  else none

/-- Rows and columns exchanged. -/
def transpose (g : Grid α) : Grid α := ⟨g.columns, g.rows, g.cells.transpose⟩

/-- The columns from an index on, which may be the number of columns but not more. -/
def columnsFrom? (g : Grid α) (start : Nat) : Option (Grid α) :=
  if start ≤ g.columns then some ⟨g.rows, g.columns - start, g.cells.columnsFrom start⟩ else none

/-- At most so many leading rows. -/
def takeRows (g : Grid α) (rows : Nat) : Grid α := ⟨min rows g.rows, g.columns, g.cells.take rows⟩

/-- The rows at given positions. -/
def selectRows (g : Grid α) (positions : List (Fin g.rows)) : Grid α :=
  ⟨positions.length, g.columns, g.cells.selectRows positions⟩

/-- The entry at a row and a column. -/
def get? (g : Grid α) (row column : Nat) : Option α :=
  (g.cells.toLists.flatten)[row * g.columns + column]?

/-- Replace the entry at a row and a column. -/
def set? (g : Grid α) (row column : Nat) (value : α) : Option (Grid α) :=
  let offset := row * g.columns + column
  if offset < g.rows * g.columns then
    some { g with cells := Dense.ofFn fun i j =>
      if i.val * g.columns + j.val = offset then value else g.cells.entry i j }
  else none

variable [Scalar α]

/-- An array of zeros. -/
def zeros (rows columns : Nat) : Grid α := ⟨rows, columns, Dense.zeros⟩

/-- One on the diagonal of a square array, zero elsewhere. -/
def identity (n : Nat) : Grid α := ⟨n, n, Dense.identity⟩

/-- Product of two arrays. -/
def mul? (a b : Grid α) : Option (Grid α) :=
  if h : b.rows = a.columns then some ⟨a.rows, b.columns, a.cells.mul (b.cells.cast h)⟩ else none

/-- Product of an array and a vector. -/
def mulVec? (a : Grid α) (v : List α) : Option (List α) :=
  if h : v.length = a.columns then
    some (a.cells.mulVec (⟨v.toArray, by simpa using h⟩ : Vector α a.columns)).toList
  else none

/-- Both arrays have one shape, and their entries compare equal. -/
def same (a b : Grid α) : Bool :=
  a.rows == b.rows && a.columns == b.columns && a.cells.toLists == b.cells.toLists

end Grid

end ElasticLayout.Linear
