import Mathlib.Data.Nat.Notation
import ElasticLayout.Problem.ActiveSet
import ElasticLayout.Problem.BasicPoint

/-!
# Rows that fit

Where no row has more coefficients than there are columns, rows are laid without running over into
each other, and a coefficient that a row lacks is zero.  This holds in every arithmetic.

* `Problem.RowsFit` -- no row is too long;
* `layRows?_of_length_le`, `entry_layRows?` -- the entries of laid rows;
* `Problem.exists_workingArray?`, `Problem.exists_objective?` -- the arrays of the search exist;
* `Problem.entry_workingArray?` -- the entries of the working rows;
* `Problem.exists_basicPoint` -- elimination is not stopped by a row.
-/

namespace ElasticLayout

open Linear

variable {α : Type} [Scalar α]

/-- No row of the problem has more coefficients than there are columns. -/
structure Problem.RowsFit (p : Problem α) : Prop where
  /-- The hard rows. -/
  hard : ∀ row ∈ p.hard, row.coefficients.length ≤ p.variableCount
  /-- The soft rows. -/
  soft : ∀ row ∈ p.soft, row.coefficients.length ≤ p.variableCount

/-- Rows that are not too long are laid one under the other, and filled up with zeros. -/
theorem layRows?_of_length_le {n : ℕ} {rows : List (List α)}
    (h : ∀ row ∈ rows, row.length ≤ n) :
    ∃ w : Dense rows.length n α, layRows? n [] rows = some w ∧
      ∀ (i : Fin rows.length) (j : Fin n), w.entry i j = (rows.get i).getD j 0 := by
  induction rows with
  | nil => exact ⟨#v[], rfl, fun i => i.elim0⟩
  | cons row rows ih =>
    obtain ⟨laid, hlaid, hentry⟩ := ih fun row hrow => h row (List.mem_cons_of_mem _ hrow)
    obtain ⟨first, hfirst⟩ : ∃ v : Vector α n, v = Vector.ofFn fun j => row.getD j 0 := ⟨_, rfl⟩
    obtain ⟨w, hw⟩ : ∃ w : Dense (row :: rows).length n α,
        w = ((#v[first] : Vector _ 1) ++ laid).cast (by simp [Nat.add_comm]) := ⟨_, rfl⟩
    refine ⟨w, ?_, fun i j => ?_⟩
    · unfold layRows?
      rw [List.drop_nil, List.append_nil]
      dsimp only
      rw [List.drop_eq_nil_of_le (h row List.mem_cons_self), hlaid, hw, hfirst]
      rfl
    · unfold Dense.entry
      rw [hw, Dense.get_eq_getElem _ i, Vector.getElem_cast, Vector.getElem_append]
      cases i using Fin.cases with
      | zero => simp [hfirst, Dense.get_eq_getElem]
      | succ i => simpa [Dense.entry, Dense.get_eq_getElem] using hentry i j

/-- The coefficients of a row stand in its own columns, whatever runs over from the rows before. -/
theorem entry_layRows? {n : ℕ} {excess : List α} {rows : List (List α)}
    {w : Dense rows.length n α} (h : layRows? n excess rows = some w) {i : Fin rows.length}
    {j : Fin n} {c : α} (hc : (rows.get i)[j.val]? = some c) : w.entry i j = c := by
  induction rows generalizing excess with
  | nil => exact i.elim0
  | cons row rows ih =>
    unfold layRows? at h
    obtain ⟨laid, hlaid, h⟩ := Option.bind_eq_some_iff.1 h
    obtain rfl := Option.some.inj h
    unfold Dense.entry
    rw [Dense.get_eq_getElem _ i, Vector.getElem_cast, Vector.getElem_append]
    cases i using Fin.cases with
    | zero =>
      have hrow : row[j.val]? = some c := hc
      have hcell : (row ++ excess.drop row.length)[j.val]? = some c := by
        rw [List.getElem?_append_left (List.getElem?_eq_some_iff.1 hrow).1, hrow]
      simp [Dense.get_eq_getElem, List.getD_eq_getElem?_getD, hcell]
    | succ i => simpa [Dense.entry, Dense.get_eq_getElem] using ih hlaid hc

namespace Problem

variable {p : Problem α}

omit [Scalar α] in
theorem RowsFit.length_row (h : p.RowsFit) (r : p.Row) :
    (p.row r).coefficients.length ≤ p.variableCount :=
  h.hard _ (List.get_mem ..)

theorem RowsFit.length_weightedRows (h : p.RowsFit) :
    ∀ row ∈ p.weightedRows, row.length ≤ p.variableCount := by
  intro row hrow
  obtain ⟨soft, hsoft, rfl⟩ := List.mem_map.1 hrow
  rw [List.length_map]
  exact h.soft soft hsoft

/-- The working rows, filled up with zeros. -/
theorem exists_workingArray? (h : p.RowsFit) (working : List p.Row) :
    ∃ rows, p.workingArray? working = some rows ∧ ∀ (i : Fin working.length)
      (j : Fin p.variableCount),
      rows.entry i j = (p.signedCoefficients (working.get i)).getD j 0 := by
  have hlength : ∀ row ∈ working.map p.signedCoefficients, row.length ≤ p.variableCount := by
    intro row hrow
    obtain ⟨r, -, rfl⟩ := List.mem_map.1 hrow
    unfold signedCoefficients
    rw [List.length_map]
    exact h.length_row r
  obtain ⟨w, hw, hentry⟩ := layRows?_of_length_le hlength
  refine ⟨w.cast (List.length_map p.signedCoefficients), ?_, fun i j => ?_⟩
  · unfold workingArray?
    rw [hw]
    rfl
  · have hi := hentry (i.cast (List.length_map p.signedCoefficients).symm) j
    simpa [Dense.entry, Dense.get_eq_getElem] using hi

/-- The coefficients of a working row stand in its row of the array. -/
theorem entry_workingArray? {working : List p.Row}
    {rows : Dense working.length p.variableCount α} (h : p.workingArray? working = some rows)
    {place : Fin working.length} {j : Fin p.variableCount} {c : α}
    (hc : (p.signedCoefficients (working.get place))[j.val]? = some c) :
    rows.entry place j = c := by
  obtain ⟨w, hw, rfl⟩ := Option.map_eq_some_iff.1 h
  have hentry := entry_layRows? hw (c := c) (j := j)
    (i := place.cast (List.length_map p.signedCoefficients).symm) (by simpa using hc)
  simpa [Dense.entry, Dense.get_eq_getElem] using hentry

/-- The objective, from the weighted rows. -/
theorem exists_objective? (h : p.RowsFit) :
    ∃ w : Dense p.weightedRows.length p.variableCount α,
      (∀ l j, w.entry l j = (p.weightedRows.get l).getD j 0) ∧
      p.objective? = some
        { quadratic := w.transpose.mul w
          linear := Vector.ofFn fun j =>
            -dot (w.transpose.get j).toList p.weightedTargets } := by
  obtain ⟨w, hw, hentry⟩ := layRows?_of_length_le h.length_weightedRows
  refine ⟨w, hentry, ?_⟩
  unfold objective?
  rw [hw]
  rfl

theorem exists_basicPoint (h : p.RowsFit) : ∃ basic, p.basicPoint = .ok basic := by
  have hlength : p.hard.all (fun row =>
      row.coefficients.length ≤ p.variableCount + p.hard.length) = true :=
    List.all_eq_true.2 fun row hrow =>
      decide_eq_true (Nat.le_trans (h.hard row hrow) (Nat.le_add_right _ _))
  unfold basicPoint slackSystem?
  dsimp only
  rw [if_pos hlength]
  exact ⟨_, rfl⟩

end Problem

end ElasticLayout
