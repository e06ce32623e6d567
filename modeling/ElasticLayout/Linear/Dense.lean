import ElasticLayout.Scalar

/-!
# Dense arrays of scalars

Arrays with their shape in the type.  All sums run over ascending indices.

* `Dense m n α` -- `m` rows of `n` entries;
* `Dense.entry`, `Dense.setEntry`, `Dense.setRow` -- access;
* `dot` -- the inner product of two lists, as long as the shorter one;
* `Dense.mul`, `Dense.mulVec`, `Dense.transpose` -- products and transposition;
* `Dense.columnsFrom`, `Dense.selectRows` -- parts of an array;
* `entry_ofFn`, `entry_transpose`, `entry_setEntry` -- the entries of what an operation makes.
-/

namespace ElasticLayout.Linear

variable {α : Type}

/-- An array of `m` rows with `n` entries each. -/
abbrev Dense (m n : Nat) (α : Type) := Vector (Vector α n) m

/-- Inner product, as long as the shorter list. -/
def dot [Scalar α] (xs ys : List α) : α := Scalar.sum (List.zipWith (· * ·) xs ys)

namespace Dense

variable {m n k : Nat}

/-- The array with given entries. -/
def ofFn (f : Fin m → Fin n → α) : Dense m n α := Vector.ofFn fun i => Vector.ofFn fun j => f i j

/-- The entry at a row and a column. -/
def entry (a : Dense m n α) (i : Fin m) (j : Fin n) : α := (a.get i).get j

/-- Put another row in the place of one. -/
def setRow (a : Dense m n α) (i : Fin m) (row : Vector α n) : Dense m n α := a.set i.val row i.isLt

/-- Put another entry in the place of one. -/
def setEntry (a : Dense m n α) (i : Fin m) (j : Fin n) (value : α) : Dense m n α :=
  a.setRow i ((a.get i).set j.val value j.isLt)

/-- Rows and columns exchanged. -/
def transpose (a : Dense m n α) : Dense n m α := ofFn fun j i => a.entry i j

/-- The columns from an index on. -/
def columnsFrom (a : Dense m n α) (start : Nat) : Dense m (n - start) α :=
  ofFn fun i j => a.entry i ⟨start + j.val, by omega⟩

/-- The rows at given positions. -/
def selectRows (a : Dense m n α) (positions : List (Fin m)) : Dense positions.length n α :=
  Vector.ofFn fun i => a.get (positions.get i)

/-- The entries row by row. -/
def toLists (a : Dense m n α) : List (List α) := a.toList.map Vector.toList

/-! ### Entries after an operation -/

/-- Access under a bounded index is access under the index. -/
theorem get_eq_getElem {β : Type} (v : Vector β n) (i : Fin n) : v.get i = v[i.val] := rfl

@[simp] theorem entry_ofFn (f : Fin m → Fin n → α) (i : Fin m) (j : Fin n) :
    (ofFn f).entry i j = f i j := by
  simp [entry, ofFn, get_eq_getElem]

@[simp] theorem entry_transpose (a : Dense m n α) (i : Fin m) (j : Fin n) :
    a.transpose.entry j i = a.entry i j := by
  rw [transpose, entry_ofFn]

@[simp] theorem entry_columnsFrom (a : Dense m n α) (start : Nat) (i : Fin m)
    (j : Fin (n - start)) :
    (a.columnsFrom start).entry i j = a.entry i ⟨start + j.val, by omega⟩ := by
  rw [columnsFrom, entry_ofFn]

@[simp] theorem get_selectRows (a : Dense m n α) (positions : List (Fin m))
    (i : Fin positions.length) :
    (a.selectRows positions).get i = a.get (positions.get i) := by
  simp [selectRows, get_eq_getElem]

theorem get_setRow (a : Dense m n α) (i k : Fin m) (row : Vector α n) :
    (a.setRow i row).get k = if k = i then row else a.get k := by
  simp only [setRow, get_eq_getElem, Vector.getElem_set, Fin.ext_iff, eq_comm]

theorem entry_setEntry (a : Dense m n α) (i k : Fin m) (j l : Fin n) (value : α) :
    (a.setEntry i j value).entry k l = if k = i ∧ l = j then value else a.entry k l := by
  rw [entry, setEntry, get_setRow]
  by_cases hk : k = i
  · subst hk
    by_cases hl : l = j
    · simp [hl, get_eq_getElem]
    · have hne : j.val ≠ l.val := fun h => hl (Fin.ext h.symm)
      simp [hl, hne, entry, get_eq_getElem]
  · simp [hk, entry]

/-! ### Arithmetic -/

variable [Scalar α]

/-- All entries zero. -/
def zeros : Dense m n α := ofFn fun _ _ => 0

/-- One on the diagonal and zero elsewhere. -/
def identity : Dense n n α := ofFn fun i j => if i = j then 1 else 0

/-- Product of two arrays.  A term whose left factor is zero is left out, so that it cannot bring
an exceptional value of the right factor into the sum. -/
def mul (a : Dense m k α) (b : Dense k n α) : Dense m n α :=
  ofFn fun i j =>
    (List.finRange k).foldl
      (fun s l => if a.entry i l == (0 : α) then s else s + a.entry i l * b.entry l j) 0

/-- Product of an array and a vector. -/
def mulVec (a : Dense m n α) (v : Vector α n) : Vector α m :=
  Vector.ofFn fun i => dot (a.get i).toList v.toList

end Dense

end ElasticLayout.Linear
