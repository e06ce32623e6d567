import ElasticLayout.Proofs.Feasibility
import ElasticLayout.Proofs.SimplexDecision

/-!
# What a run of pivots keeps

Every tableau of a run has the solutions of the first one, and shows one of them: its basic columns
are unit columns without a cost, and the value of its objective is what the artificial variables
amount to there.  This asks nothing of the size of the coefficients.  A line that the ratio test
passes over may end with a negative right side, so that an inequality is lost on the way; but the
equalities are still met up to their artificial variables, which the last test keeps small.

* `Tableau.StandsFor` -- a tableau shows a solution of another one;
* `Tableau.Costed.visits`, `Tableau.Costed.standsFor` -- every tableau of a run does;
* `Tableau.visits_of_reduce` -- a run ends at one of its tableaus;
* `Problem.abs_excess_le_infeasibility` -- equalities are met up to the infeasibility;
* `Problem.pivots_keep_equalities` -- the main result.
-/

namespace ElasticLayout

namespace Tableau

variable {n h width : ℕ} {t u first last : Tableau n h width ℝ} {pivots : ℕ}

/-- A tableau stands for the first one of its run: it has the same solutions, each of its basic
columns is the unit column of its line and has no cost, and the value of the objective is what the
basic artificial variables amount to. -/
structure StandsFor (t first : Tableau n h width ℝ) : Prop where
  solves : ∀ z, t.Solves z ↔ first.Solves z
  distinct : ∀ i j, t.basis.get i = t.basis.get j → i = j
  unit : ∀ i, ∃ k : Fin width, t.basis.get i = k.val ∧
    (∀ j, (t.lines.get j).cells.get k = if j = i then 1 else 0) ∧ t.objective.cells.get k = 0
  value : t.objective.rhs
    = ∑ i, if first.artificialStart ≤ t.basis.get i then (t.lines.get i).rhs else 0

/-- **A run keeps a tableau costed**, and its solutions. -/
theorem Costed.visits (ht : t.Costed) (hu : t.Visits pivots u) :
    u.Costed ∧ u.artificialStart = t.artificialStart ∧ ∀ z, u.Solves z ↔ t.Solves z := by
  induction hu with
  | now => exact ⟨ht, rfl, fun _ => .rfl⟩
  | later _ hrow _ ih =>
    have hentry := entry_ne_zero_of_pivotRow? hrow
    obtain ⟨hcosted, hstart, hsolves⟩ := ih (ht.pivot hentry)
    exact ⟨hcosted, hstart, fun z => (hsolves z).trans (solves_pivot_iff hentry)⟩

/-- Every tableau of a run stands for the first one. -/
theorem Costed.standsFor (ht : first.Costed) (hu : first.Visits pivots t) : t.StandsFor first := by
  obtain ⟨hcosted, hstart, hsolves⟩ := ht.visits hu
  refine ⟨hsolves, fun i j => hcosted.basic.basis_injective, fun i => ?_, ?_⟩
  · obtain ⟨k, hk, hunit⟩ := hcosted.basic i
    exact ⟨k, hk, hunit, hcosted.costs i k hk⟩
  · rw [← hstart]
    exact hcosted.rhs_objective

/-- A run that comes to an end ends at one of its tableaus. -/
theorem visits_of_reduce {limit : ℕ} (hlast : t.reduce limit pivots = .ok last) :
    t.Visits pivots last := by
  induction pivots generalizing t with
  | zero =>
    unfold reduce at hlast
    split at hlast
    · exact Except.ok.inj hlast ▸ .now
    · exact absurd hlast (by simp)
  | succ pivots ih =>
    unfold reduce at hlast
    split at hlast
    · exact Except.ok.inj hlast ▸ .now
    · rename_i column hcolumn
      split at hlast
      · exact absurd hlast (by simp)
      · rename_i row hrow
        exact .later hcolumn hrow (ih hlast)

end Tableau

/-- The excess of an equality is by how much its left side is above its right side. -/
theorem HardRow.excess_of_isEquality {row : HardRow ℝ} (h : row.isEquality = true) (x : List ℝ) :
    row.excess x = row.value x - row.rhs := by
  unfold excess signedValue signedRhs
  rw [(slackCoefficient?_of_isEquality h).2.2, one_mul, one_mul]

namespace Problem

variable {p : Problem ℝ} {first last : Tableau p.variableCount p.hard.length p.tableauWidth ℝ}
  {pivots maxIterations : ℕ}

/-- **Equalities are met up to the infeasibility** at the point of every tableau of a run.  What an
equality lacks is its artificial variable, and its sign does not matter. -/
theorem abs_excess_le_infeasibility (hfits : p.RowsFit) (hfirst : p.tableau? = some first)
    (hlast : first.Visits pivots last) {r : p.Row} (hr : (p.row r).isEquality = true) :
    |(p.row r).excess last.point.toList| ≤ last.infeasibility := by
  obtain ⟨hcosted, hstart, hsolves⟩ := (costed_tableau? hfits hfirst).visits hlast
  have hline : (p.tableauLine r).Holds fun k => last.basicValue k :=
    holds_tableauLine_of_solves hfirst ((hsolves _).1 hcosted.basic.solves) r
  rw [abs_excess_of_isEquality hfits last.get_point hline hr]
  refine hcosted.basic.abs_basicValue_le ?_
  rw [hstart, (tableau?_eq_some hfirst).2.2.1]
  exact artificialStart_le r

/-- **What every pivot keeps, and what it is good for.**  After every number of pivots the tableau
stands for the first one, whatever the coefficients are and whatever the ratio test passes over.  So
a point that is returned is that of a tableau of the run, and it meets every equality within the
tolerance. -/
theorem pivots_keep_equalities
    (hfits : ∀ row ∈ p.hard, row.coefficients.length ≤ p.variableCount) :
    ∃ first, p.tableau? = some first ∧
      (∀ pivots t, first.Visits pivots t → t.StandsFor first) ∧
      ∀ maxIterations x, p.feasiblePoint maxIterations = .ok x →
        (∃ last, first.Visits maxIterations last ∧ last.point = x) ∧
        ∀ row ∈ p.hard, row.isEquality = true →
          |row.value x.toList - row.rhs| ≤ Scalar.tolerance := by
  -- The soft rows play no part, and may be as long as they like.
  have hfits' := rowsFit_withoutSoft hfits
  obtain ⟨first, hfirst⟩ := exists_tableau? hfits'
  refine ⟨first, hfirst, fun pivots t => (costed_tableau? hfits' hfirst).standsFor,
    fun maxIterations x hx => ?_⟩
  obtain ⟨first', last, hfirst', hreduce, hsmall, rfl⟩ := feasiblePoint_ok hx
  obtain rfl := Option.some.inj (hfirst.symm.trans hfirst')
  have hlast := Tableau.visits_of_reduce hreduce
  refine ⟨⟨last, hlast, rfl⟩, fun row hrow hequality => ?_⟩
  obtain ⟨r, rfl⟩ := List.get_of_mem hrow
  rw [← HardRow.excess_of_isEquality hequality]
  exact (abs_excess_le_infeasibility hfits' hfirst hlast hequality).trans hsmall

/-- On the slight problem the run drops a right side below zero, and the row with the small
coefficient is lost; the equality is met all the same. -/
theorem pivots_keep_equalities_slight :
    (∀ row ∈ slight.hard, row.coefficients.length ≤ slight.variableCount) ∧
    ∃ x, slight.feasiblePoint 10000 = .ok x ∧
      |(slight.row fixing).value x.toList - 1000000000| ≤ Scalar.tolerance ∧
      (slight.row limiting).excess x.toList = -99 := by
  obtain ⟨x, hx, hvalue⟩ := feasiblePoint_slight 9999
  obtain ⟨first, -, -, hkept⟩ := pivots_keep_equalities isFull_slight.rowsFit.hard
  refine ⟨isFull_slight.rowsFit.hard, x, hx, ?_, ?_⟩
  · exact (hkept 10000 x hx).2 _ (List.get_mem slight.hard fixing) rfl
  · rw [(excess_slight x).2, hvalue]
    norm_num

end Problem

end ElasticLayout
