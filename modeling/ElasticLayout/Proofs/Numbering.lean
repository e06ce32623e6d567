import Mathlib.Data.List.TakeDrop
import Mathlib.Data.Nat.Notation
import Mathlib.Order.Fin.Basic
import ElasticLayout.Problem.PhaseOne

/-!
# The columns of slacks and artificial variables

Columns are numbered by counting the rows before that have such a column too.  The numbers stay
within the width set aside, and tell the rows apart.

* `countP_take_lt`, `eq_of_countP_take_eq` -- counting;
* `Problem.slackColumn_lt`, `Problem.slackColumn_injective` -- the slack columns of the equation
  system;
* `Problem.tableauSlack_lt`, `Problem.tableauArtificial_lt` -- the columns of the tableau;
* `Problem.tableauSlack_injective`, `Problem.tableauArtificial_injective` -- are distinct.
-/

namespace ElasticLayout

theorem countP_take_lt {β : Type*} {q : β → Bool} {xs : List β} {i j : ℕ} (hi : i < xs.length)
    (hq : q xs[i] = true) (hij : i < j) : (xs.take i).countP q < (xs.take j).countP q := by
  have hstep : (xs.take (i + 1)).countP q = (xs.take i).countP q + 1 := by
    rw [List.take_add_one, List.getElem?_eq_getElem hi, List.countP_append]
    simp [hq]
  have hle : (xs.take (i + 1)).countP q ≤ (xs.take j).countP q :=
    (List.take_sublist_take_left hij).countP_le
  omega

/-- Positions with a property are told apart by how many such positions come before. -/
theorem eq_of_countP_take_eq {β : Type*} {q : β → Bool} {xs : List β} {i j : Fin xs.length}
    (hi : q xs[i] = true) (hj : q xs[j] = true)
    (hcount : (xs.take i).countP q = (xs.take j).countP q) : i = j := by
  obtain hlt | heq | hgt := lt_trichotomy i j
  · exact absurd hcount (countP_take_lt i.isLt hi hlt).ne
  · exact heq
  · exact absurd hcount (countP_take_lt j.isLt hj hgt).ne'

namespace Problem

variable {α : Type} {p : Problem α} {r i : p.Row}

/-- As many slack columns are set aside as there are rows. -/
theorem slackColumn_lt (r : p.Row) : p.slackColumn r < p.variableCount + p.hard.length := by
  have hcount : p.slackCount r ≤ r.val := by
    calc p.slackCount r ≤ (p.hard.take r).length := List.countP_le_length
      _ ≤ r.val := List.length_take_le ..
  have hr := r.isLt
  unfold slackColumn
  omega

theorem tableauSlack_lt (hr : (p.row r).isEquality = false) :
    p.tableauSlack r < p.artificialStart := by
  have hslack : (!(p.row r).isEquality) = true := by rw [hr]; rfl
  have hcount : p.slackCount r < p.slackCount p.hard.length :=
    countP_take_lt r.isLt hslack r.isLt
  unfold tableauSlack artificialStart
  omega

/-- Inequalities are told apart by how many come before. -/
theorem slackCount_injective (hr : (p.row r).isEquality = false)
    (hi : (p.row i).isEquality = false) (h : p.slackCount i = p.slackCount r) : i = r := by
  have hslack : (!(p.row r).isEquality) = true := by rw [hr]; rfl
  have hslack' : (!(p.row i).isEquality) = true := by rw [hi]; rfl
  exact eq_of_countP_take_eq hslack' hslack h

theorem slackColumn_injective (hr : (p.row r).isEquality = false)
    (hi : (p.row i).isEquality = false) (h : p.slackColumn i = p.slackColumn r) : i = r :=
  slackCount_injective hr hi (Nat.add_left_cancel h)

theorem tableauSlack_injective (hr : (p.row r).isEquality = false)
    (hi : (p.row i).isEquality = false) (h : p.tableauSlack i = p.tableauSlack r) : i = r :=
  slackCount_injective hr hi (Nat.add_left_cancel h)

variable [Scalar α]

theorem artificialStart_le (r : ℕ) : p.artificialStart ≤ p.tableauArtificial r :=
  Nat.le_add_right ..

theorem tableauArtificial_lt (hr : (p.row r).needsArtificial = true) :
    p.tableauArtificial r < p.tableauWidth := by
  have hcount : p.artificialCount r < p.artificialCount p.hard.length :=
    countP_take_lt r.isLt hr r.isLt
  unfold tableauArtificial tableauWidth
  omega

theorem tableauArtificial_injective (hr : (p.row r).needsArtificial = true)
    (hi : (p.row i).needsArtificial = true)
    (h : p.tableauArtificial i = p.tableauArtificial r) : i = r := by
  have hcount : p.artificialCount i = p.artificialCount r := Nat.add_left_cancel h
  exact eq_of_countP_take_eq hi hr hcount

end Problem

end ElasticLayout
