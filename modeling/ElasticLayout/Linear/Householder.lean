import ElasticLayout.Outcome
import ElasticLayout.Linear.Dense

/-!
# Orthogonal factors by reflection

A factorization `a = q r` with `q` orthogonal and `r` upper triangular.  Each column in turn is
reflected onto a multiple of a unit vector; the reflections are accumulated from the right, so that
the trailing columns of `q` span the orthogonal complement of the columns of `a`.

* `Reflector` -- the reflection that belongs to a column and a pivot position;
* `Reflector.ofColumn?` -- none if the column vanishes from the pivot on;
* `Factors` -- the orthogonal factor and the diagonal of the triangular one;
* `factor` -- the factorization of an array with at least as many rows as columns.
-/

namespace ElasticLayout.Linear

variable {α : Type} [Scalar α] {m n : Nat}

/-- The positions from a pivot on. -/
def trailing (pivot : Fin m) : List (Fin m) := (List.finRange m).filter (pivot ≤ ·)

/-- A reflection that maps a column, from its pivot position on, to a multiple of a unit vector. -/
structure Reflector (m : Nat) (α : Type) where
  /-- Position of the unit vector. -/
  pivot : Fin m
  /-- Normal of the plane of reflection; entries before the pivot are not used. -/
  normal : Vector α m
  /-- The multiple: the diagonal entry of the triangular factor. -/
  diagonal : α
  /-- Factor of the normal in the reflection of columns under reduction. -/
  columnFactor : α
  /-- Factor of the normal in the reflection of rows of the orthogonal factor. -/
  rowFactor : α

namespace Reflector

/-- The reflection of a column.  The diagonal entry takes the sign opposite to the pivot entry,
which avoids cancellation. -/
def ofColumn? (pivot : Fin m) (column : Vector α m) : Option (Reflector m α) :=
  let x := column.get pivot
  let below := Scalar.sum
    (((List.finRange m).filter (pivot < ·)).map fun i => column.get i * column.get i)
  let normSq := below + x * x
  let norm := Scalar.sqrt normSq
  if Scalar.near norm 0 then none
  else
    let diagonal := if x < 0 then norm else -norm
    let u := x - diagonal
    some
      { pivot, diagonal
        normal := column.set pivot.val u pivot.isLt
        columnFactor := 1 / (diagonal * x - normSq)
        rowFactor := -2.0 / (below + u * u) }

/-- Reflect a column that is still to be reduced. -/
def applyColumn (r : Reflector m α) (column : Vector α m) : Vector α m :=
  let s :=
    (trailing r.pivot).foldl (fun s i => s + r.normal.get i * column.get i) 0 * r.columnFactor
  Vector.ofFn fun i => if r.pivot ≤ i then column.get i + r.normal.get i * s else column.get i

/-- Reflect a row of the orthogonal factor. -/
def applyRow (r : Reflector m α) (row : Vector α m) : Vector α m :=
  let s := (trailing r.pivot).foldl (fun s i => s + row.get i * r.normal.get i) 0 * r.rowFactor
  Vector.ofFn fun i => if r.pivot ≤ i then row.get i + s * r.normal.get i else row.get i

end Reflector

/-- The orthogonal factor, and the diagonal of the triangular one. -/
structure Factors (m : Nat) (α : Type) where
  /-- Orthogonal factor. -/
  q : Dense m m α
  /-- Diagonal of the triangular factor. -/
  diagonal : List α

/-- Reduce columns one after the other, each with its pivot position; the reflections are
accumulated into `q`. -/
def factorColumns (q : Dense m m α) :
    List (Fin m) → List (Vector α m) → Except SolveError (Factors m α)
  | pivot :: pivots, column :: columns =>
    match Reflector.ofColumn? pivot column with
    | none => .error .qrDecomposition
    | some r => do
      let f ← factorColumns (q.map r.applyRow) pivots (columns.map r.applyColumn)
      return { f with diagonal := r.diagonal :: f.diagonal }
  | [], _ :: _ => .error .qrDecomposition
  | _, [] => .ok ⟨q, []⟩

/-- Factor an array; fails on fewer rows than columns, and on dependent columns. -/
def factor (a : Dense m n α) : Except SolveError (Factors m α) :=
  if m < n then .error .qrDecomposition
  else factorColumns Dense.identity (List.finRange m) a.transpose.toList

end ElasticLayout.Linear
