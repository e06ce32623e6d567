import ElasticLayout.Problem.Solve
import ElasticLayout.Proofs.CheckedSystems
import ElasticLayout.Proofs.Numbering
import ElasticLayout.Proofs.RowLayout

/-!
# The checked start

The basic point and the simplex method with checks: of the columns of slacks and artificial
variables, of the order in which dependent rows are moved to the end, and of the columns that are
read by the number of their row.  Where the rows fit, all accesses exist.

* `EquationSystem.SameShape` -- elimination changes no active counts;
* `EquationSystem.lt_of_eliminateDown` -- each row that found a pivot has a column of its number;
* `Checked.basicPoint`, `Checked.basicPoint_eq` -- the basic point;
* `Checked.feasiblePoint`, `Checked.matches_feasiblePoint` -- the simplex method;
* `Checked.initialPoint`, `Checked.matches_initialPoint` -- the start.
-/

namespace ElasticLayout

open Linear

variable {α : Type} {R C : ℕ}

namespace EquationSystem

/-- Two systems have the same active counts. -/
structure SameShape (s t : EquationSystem R C α) : Prop where
  /-- The active rows. -/
  rows : t.rows = s.rows
  /-- The active columns. -/
  columns : t.columns = s.columns

theorem SameShape.refl (s : EquationSystem R C α) : s.SameShape s := ⟨rfl, rfl⟩

theorem SameShape.trans {s t u : EquationSystem R C α} (h : s.SameShape t) (h' : t.SameShape u) :
    s.SameShape u :=
  ⟨h'.rows.trans h.rows, h'.columns.trans h.columns⟩

variable [Scalar α]

theorem sameShape_normalize (s : EquationSystem R C α) (i : Fin R) (c : Fin C) :
    s.SameShape (s.normalize i c) := by
  unfold normalize
  dsimp only
  split
  · exact .refl s
  · exact ⟨rfl, rfl⟩

theorem sameShape_eliminateRow (s : EquationSystem R C α) (i : Fin R) (c : Fin C) (r : Fin R) :
    s.SameShape (eliminateRow i c s r) := by
  unfold eliminateRow
  dsimp only
  split
  · exact .refl s
  · exact ⟨rfl, rfl⟩

theorem sameShape_eliminateColumn (s : EquationSystem R C α) (i : Fin R) (c : Fin C)
    (others : List (Fin R)) : s.SameShape (s.eliminateColumn i c others) :=
  List.foldlRecOn (motive := fun t => s.SameShape t) others _ (s.sameShape_normalize i c)
    fun t ht r _ => ht.trans (t.sameShape_eliminateRow i c r)

theorem sameShape_bringPivot? {s t : EquationSystem R C α} {i : Fin R} {c : Fin C}
    (h : s.bringPivot? i c = some t) : s.SameShape t := by
  unfold bringPivot? at h
  split at h
  · rw [← Option.some.inj h]
    split
    · exact .refl s
    · exact ⟨rfl, rfl⟩
  · obtain ⟨k, -, rfl⟩ := Option.map_eq_some_iff.1 h
    exact ⟨rfl, rfl⟩

/-- **Where every row finds a pivot, each has a column of its own number.** -/
theorem lt_of_eliminateDown {s t : EquationSystem R C α} {is : List (Fin R)}
    (h : s.eliminateDown is = (t, true)) : s.SameShape t ∧ ∀ i ∈ is, i.val < s.columns := by
  induction is generalizing s with
  | nil =>
    obtain ⟨rfl, -⟩ := Prod.mk.inj h
    exact ⟨.refl s, fun i hi => absurd hi List.not_mem_nil⟩
  | cons i is ih =>
    unfold eliminateDown at h
    split at h
    · rename_i hi
      dsimp only at h
      split at h
      · exact absurd (Prod.mk.inj h).2 (by simp)
      · rename_i u hpivot
        obtain ⟨hshape, hlt⟩ := ih h
        have hstep := (sameShape_bringPivot? hpivot).trans (u.sameShape_eliminateColumn i
          (Fin.castLE s.columns_le ⟨i.val, hi⟩) (u.activeRows.filter (i < ·)))
        refine ⟨hstep.trans hshape, fun k hk => ?_⟩
        obtain rfl | hk := List.mem_cons.1 hk
        · exact hi
        · rw [← hstep.columns]
          exact hlt k hk
    · exact absurd (Prod.mk.inj h).2 (by simp)

end EquationSystem

variable [Scalar α]

namespace Checked

open EquationSystem

/-! ### The basic point -/

/-- Move dependent rows behind the others; the order has to name every active row. -/
def removeDependentRows (s : EquationSystem R C α) : Option (EquationSystem R C α) := do
  let kept ← independentRows s.activeCells
  let dropped := (List.finRange s.rows).filter fun r => !kept.contains r
  if (kept ++ dropped).length = s.rows then some s.removeDependentRows else none

/-- Eliminate upward from a row, in the column of its number. -/
def eliminateUp (s : EquationSystem R C α) (i : Fin R) : Option (EquationSystem R C α) :=
  if i.val < C then some (s.eliminateUp i) else none

/-- Reduced row echelon form. -/
def gaussJordan (s : EquationSystem R C α) : Option (EquationSystem R C α × Bool) :=
  match s.gaussianElimination with
  | (t, false) => some (t, false)
  | (t, true) => (t.activeRows.reverse.foldlM eliminateUp t).map (·, true)

/-- The basic solution; each row that it reads has to have a column of its number. -/
def basicSolution (s : EquationSystem R C α) (length : ℕ) : Option (Vector α length) :=
  if ∀ i : Fin R, i.val < min s.rows s.columns → i.val < C then some (s.basicSolution length)
  else none

/-- The hard rows as equations; each slack has to have a column. -/
def slackSystem (p : Problem α) :
    Option (EquationSystem p.hard.length (p.variableCount + p.hard.length) α) :=
  if ∀ r : p.Row, (p.row r).isEquality = false →
      p.slackColumn r < p.variableCount + p.hard.length then p.slackSystem?
  else none

/-- The basic solution of the hard rows; the inner none says that some row finds no pivot. -/
def basicPoint (p : Problem α) : Option (Option p.Point) := do
  let system ← slackSystem p
  let independent ← removeDependentRows system
  let (reduced, solved) ← gaussJordan independent.removeUnusedColumns
  if solved then (basicSolution reduced p.variableCount).map some else some none

theorem removeDependentRows_eq (s : EquationSystem R C α) :
    removeDependentRows s = some s.removeDependentRows := by
  have horder := (perm_kept_dropped s.activeCells).length_eq
  rw [List.length_finRange] at horder
  unfold removeDependentRows
  rw [independentRows_eq]
  exact if_pos horder

theorem foldlM_eliminateUp {is : List (Fin R)} (h : ∀ i ∈ is, i.val < C)
    (s : EquationSystem R C α) :
    is.foldlM eliminateUp s = some (is.foldl EquationSystem.eliminateUp s) := by
  induction is generalizing s with
  | nil => rfl
  | cons i is ih =>
    have hstep : eliminateUp s i = some (s.eliminateUp i) := if_pos (h i List.mem_cons_self)
    rw [List.foldlM_cons, hstep]
    exact ih (fun i hi => h i (List.mem_cons_of_mem _ hi)) _

theorem gaussJordan_eq (s : EquationSystem R C α) : gaussJordan s = some s.gaussJordan := by
  unfold gaussJordan EquationSystem.gaussJordan
  generalize ht : s.gaussianElimination = result
  obtain ⟨t, solved⟩ := result
  cases solved with
  | false => rfl
  | true =>
    obtain ⟨hshape, hlt⟩ := lt_of_eliminateDown ht
    have hcolumns : ∀ i ∈ t.activeRows.reverse, i.val < C := by
      intro i hi
      have hactive : i ∈ s.activeRows := by
        have hmem := (List.mem_filter.1 (List.mem_reverse.1 hi)).2
        rw [hshape.rows] at hmem
        exact List.mem_filter.2 ⟨List.mem_finRange i, hmem⟩
      exact (hlt i hactive).trans_le s.columns_le
    dsimp only
    rw [foldlM_eliminateUp hcolumns]
    rfl

theorem basicSolution_eq (s : EquationSystem R C α) (length : ℕ) :
    basicSolution s length = some (s.basicSolution length) :=
  if_pos fun _ hi => (hi.trans_le (Nat.min_le_right _ _)).trans_le s.columns_le

variable {p : Problem α}

theorem slackSystem_eq (hfits : p.RowsFit) :
    ∃ system, slackSystem p = some system ∧ p.slackSystem? = some system := by
  have hlength : p.hard.all
      (fun row => row.coefficients.length ≤ p.variableCount + p.hard.length) = true :=
    List.all_eq_true.2 fun row hrow =>
      decide_eq_true ((hfits.hard row hrow).trans (Nat.le_add_right _ _))
  have hsystem : p.slackSystem? = some _ := if_pos hlength
  refine ⟨_, ?_, hsystem⟩
  unfold slackSystem
  rw [if_pos fun r _ => p.slackColumn_lt r, hsystem]

/-- **Where the rows fit, all accesses of elimination exist.** -/
theorem basicPoint_eq (hfits : p.RowsFit) :
    ∃ basic, basicPoint p = some basic ∧ p.basicPoint = .ok basic := by
  obtain ⟨system, hchecked, hsystem⟩ := slackSystem_eq hfits
  refine ⟨_, ?_, by unfold Problem.basicPoint; rw [hsystem]⟩
  unfold basicPoint
  simp only [hchecked, removeDependentRows_eq, gaussJordan_eq, basicSolution_eq,
    Option.bind_eq_bind, Option.bind_some]
  split <;> rfl

/-! ### The simplex method -/

/-- The first tableau; each slack and each artificial variable has to have a column. -/
def tableau (p : Problem α) :
    Option (Tableau p.variableCount p.hard.length p.tableauWidth α) :=
  if (∀ r : p.Row, (p.row r).isEquality = false → p.tableauSlack r < p.tableauWidth) ∧
      ∀ r : p.Row, (p.row r).needsArtificial = true → p.tableauArtificial r < p.tableauWidth then
    p.tableau?
  else none

/-- A point that keeps all hard rows, by at most a number of pivots. -/
def feasiblePoint (p : Problem α) (maxIterations : ℕ) : Checked p.Point := do
  let first ← found (tableau p)
  let last ← ofExcept (first.reduce maxIterations maxIterations)
  if Scalar.tolerance < last.infeasibility then throw .noFeasiblePoint else return last.point

theorem tableau_eq (hfits : p.RowsFit) :
    ∃ first, tableau p = some first ∧ p.tableau? = some first := by
  have hwidth : p.artificialStart ≤ p.tableauWidth := Nat.le_add_right ..
  have hslacks : ∀ r : p.Row, (p.row r).isEquality = false →
      p.tableauSlack r < p.tableauWidth := fun r hr =>
    (Problem.tableauSlack_lt hr).trans_le hwidth
  have htwice : 2 * p.variableCount ≤ p.tableauWidth := (Nat.le_add_right ..).trans hwidth
  have hlength : p.hard.all (fun row => row.coefficients.isEmpty ||
      p.variableCount + row.coefficients.length ≤ p.tableauWidth + 1) = true := by
    refine List.all_eq_true.2 fun row hrow => ?_
    rw [Bool.or_eq_true, decide_eq_true_iff]
    have hrow := hfits.hard row hrow
    omega
  have hfirst : p.tableau? = some _ := if_pos hlength
  refine ⟨_, ?_, hfirst⟩
  unfold tableau
  rw [if_pos ⟨hslacks, fun r hr => Problem.tableauArtificial_lt hr⟩, hfirst]

theorem reduce_ne {n h width : ℕ} (limit pivots : ℕ) (t : Tableau n h width α) :
    t.reduce limit pivots ≠ .error .malformedRow := by
  induction pivots generalizing t with
  | zero =>
    unfold Tableau.reduce
    split <;> simp
  | succ pivots ih =>
    unfold Tableau.reduce
    split
    · simp
    · split
      · simp
      · exact ih _

/-- **Where the rows fit, all accesses of the simplex method exist.** -/
theorem matches_feasiblePoint (hfits : p.RowsFit) (maxIterations : ℕ) :
    (feasiblePoint p maxIterations).Matches (p.feasiblePoint maxIterations) := by
  obtain ⟨first, hchecked, hfirst⟩ := tableau_eq hfits
  unfold feasiblePoint Problem.feasiblePoint
  rw [found_bind hchecked, hfirst]
  refine (Matches.ofExcept (reduce_ne _ _ first)).bind fun last _ => ?_
  split
  · exact .throw (by simp)
  · exact .pure _

/-! ### The start -/

/-- A point at which the optimization can start. -/
def initialPoint (p : Problem α) (maxIterations : ℕ) : Checked p.Point := do
  let basic ← found (basicPoint p)
  match basic.filter (p.isFeasible · Scalar.tolerance) with
  | some x => return x
  | none => feasiblePoint p maxIterations

/-- **Where the rows fit, all accesses of the search for a start exist.** -/
theorem matches_initialPoint (hfits : p.RowsFit) (maxIterations : ℕ) :
    (initialPoint p maxIterations).Matches (p.initialPoint maxIterations) := by
  obtain ⟨basic, hchecked, hbasic⟩ := basicPoint_eq hfits
  have hfeasible : p.feasibleBasicPoint = .ok (basic.filter (p.isFeasible · Scalar.tolerance)) := by
    unfold Problem.feasibleBasicPoint
    rw [hbasic]
    rfl
  unfold initialPoint Problem.initialPoint
  rw [found_bind hchecked, hfeasible]
  show Matches _ (match basic.filter (p.isFeasible · Scalar.tolerance) with
    | some x => pure x
    | none => p.feasiblePoint maxIterations)
  split
  · exact .pure _
  · exact matches_feasiblePoint hfits maxIterations

end Checked

end ElasticLayout
