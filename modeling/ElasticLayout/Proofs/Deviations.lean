import ElasticLayout.Proofs.ExactObjective

/-!
# The objective measures the weighted deviations

The objective of a problem is half the sum of the squared weighted deviations of the soft rows, up
to the same sum at the zero point.  Its gradient and its second-order term are those of that sum:
along every step the objective is the parabola that the two describe, and no step has a negative
curvature.

* `SoftRow.deviation`, `Problem.squaredDeviations` -- how far the soft rows are from their targets;
* `Objective.curvature`, `Objective.curvature_eq` -- the second-order term along a step is a sum of
  squares;
* `Problem.withoutHard` -- the hard rows play no part;
* `Problem.objective_measures_deviations` -- the main result;
* `tilted`, `Problem.objective_measures_deviations_tilted` -- rows that can all be met.
-/

namespace ElasticLayout

open Linear

attribute [local instance] atLeastTwo_two

variable {n : ℕ}

/-! ### Deviations -/

/-- How far the left side of a soft row is above its target; coefficients that the row lacks count
as zero. -/
noncomputable def SoftRow.deviation (row : SoftRow ℝ) (x : Vector ℝ n) : ℝ :=
  ∑ j : Fin n, row.coefficients.getD j 0 * x.get j - row.rhs

theorem SoftRow.deviation_eq (row : SoftRow ℝ) (x : Vector ℝ n) :
    row.deviation x = dot row.coefficients x.toList - row.rhs := by
  rw [dot_getD]
  rfl

namespace Problem

variable {p : Problem ℝ}

/-- The squared deviations of the soft rows, each as often as the square of its weight says. -/
noncomputable def squaredDeviations (p : Problem ℝ) (x : p.Point) : ℝ :=
  (p.soft.map fun row => row.weight ^ 2 * row.deviation x ^ 2).sum

theorem penalty_eq (x : p.Point) : p.penalty x = 1 / 2 * p.squaredDeviations x := by
  unfold penalty squaredDeviations
  refine congrArg (fun terms : List ℝ => 1 / 2 * terms.sum) (List.map_congr_left fun row _ => ?_)
  rw [SoftRow.deviation_eq, mul_pow]

theorem squaredDeviations_nonneg (x : p.Point) : 0 ≤ p.squaredDeviations x := by
  refine List.sum_nonneg fun term hterm => ?_
  obtain ⟨row, -, rfl⟩ := List.mem_map.1 hterm
  exact mul_nonneg (sq_nonneg _) (sq_nonneg _)

/-- The squared targets, each as often as the square of its weight says. -/
theorem sum_sq_weightedTargets (p : Problem ℝ) : (p.weightedTargets.map (· ^ 2)).sum
    = (p.soft.map fun row => row.weight ^ 2 * row.rhs ^ 2).sum := by
  unfold weightedTargets
  rw [List.map_map]
  refine congrArg List.sum (List.map_congr_left fun row _ => ?_)
  show (row.rhs * row.weight) ^ 2 = _
  rw [mul_pow, mul_comm]

end Problem

/-! ### Curvature -/

namespace Objective

variable {m : ℕ} {f : Objective n ℝ} {w : Dense m n ℝ}

/-- The second-order term along a step. -/
noncomputable def curvature (f : Objective n ℝ) (step : Vector ℝ n) : ℝ :=
  ∑ i, ∑ j, step.get i * f.quadratic.entry i j * step.get j

/-- A second-order term that comes from an array sums the squares of what the array makes of a
step. -/
theorem curvature_eq (h : ∀ i j, f.quadratic.entry i j = ∑ l, w.entry l i * w.entry l j)
    (step : Vector ℝ n) : f.curvature step = ∑ l, (w.mulVec step).get l ^ 2 := by
  have hrow : ∀ i, ∑ j, step.get i * f.quadratic.entry i j * step.get j
      = (f.quadratic.mulVec step).get i * step.get i := by
    intro i
    rw [Dense.get_mulVec, Finset.sum_mul]
    refine Finset.sum_congr rfl fun j _ => ?_
    ring
  unfold curvature
  simp only [hrow, sq]
  exact sum_mulVec_quadratic h step step

/-- Along a whole step the objective goes with its slope and half its curvature. -/
theorem value_add (h : ∀ i j, f.quadratic.entry i j = ∑ l, w.entry l i * w.entry l j)
    (x step : Vector ℝ n) : f.value (x.zipWith (· + ·) step)
      = f.value x + ∑ j, (f.gradient x).get j * step.get j + 1 / 2 * f.curvature step := by
  have hmove : x.zipWith (· + ·) step = x.zipWith (fun x d => x + 1 * d) step := by
    simp only [one_mul]
  rw [hmove, value_move h, curvature_eq h, one_mul, one_pow]

end Objective

/-! ### Main result -/

namespace Problem

/-- The soft rows alone. -/
def withoutHard (p : Problem ℝ) : Problem ℝ := { p with hard := [] }

/-- The hard rows play no part in the objective, so only the soft rows have to fit. -/
theorem objective?_value_soft {p : Problem ℝ}
    (hfits : ∀ row ∈ p.soft, row.coefficients.length ≤ p.variableCount) :
    ∃ f, p.objective? = some f ∧ ∀ x : p.Point, f.value x
      = p.penalty x - 1 / 2 * (p.weightedTargets.map (· ^ 2)).sum := by
  have hrows : p.withoutHard.RowsFit := ⟨by simp [withoutHard], hfits⟩
  obtain ⟨f, hf, hvalue⟩ := objective?_value hrows
  exact ⟨f, hf, hvalue⟩

/-- **The objective measures the weighted deviations** of the soft rows, up to a constant.  Its
gradient and second-order term are those of the squared deviations, the second-order term is
symmetric and nowhere negative, and a point is better than another one exactly if its squared
deviations are less. -/
theorem objective_measures_deviations {p : Problem ℝ}
    (hfits : ∀ row ∈ p.soft, row.coefficients.length ≤ p.variableCount) :
    ∃ f, p.objective? = some f ∧
      (∀ x : p.Point, f.value x
        = 1 / 2 * (p.soft.map fun row => row.weight ^ 2 * row.deviation x ^ 2).sum
          - 1 / 2 * (p.soft.map fun row => row.weight ^ 2 * row.rhs ^ 2).sum) ∧
      (∀ x step : p.Point, f.value (x.zipWith (· + ·) step)
        = f.value x + ∑ j, (f.gradient x).get j * step.get j + 1 / 2 * f.curvature step) ∧
      (∀ i j, f.quadratic.entry i j = f.quadratic.entry j i) ∧
      (∀ step, 0 ≤ f.curvature step) ∧
      ∀ x y : p.Point, f.value x ≤ f.value y ↔ p.squaredDeviations x ≤ p.squaredDeviations y := by
  obtain ⟨f, hf, hpenalty⟩ := objective?_value_soft hfits
  obtain ⟨w, hw⟩ := exists_gram hf
  have hvalue : ∀ x : p.Point, f.value x = 1 / 2 * p.squaredDeviations x
      - 1 / 2 * (p.soft.map fun row => row.weight ^ 2 * row.rhs ^ 2).sum := by
    intro x
    rw [← sum_sq_weightedTargets, ← penalty_eq]
    exact hpenalty x
  refine ⟨f, hf, hvalue, Objective.value_add hw, fun i j => ?_, fun step => ?_, fun x y => ?_⟩
  · rw [hw, hw]
    exact Finset.sum_congr rfl fun l _ => mul_comm _ _
  · rw [Objective.curvature_eq hw]
    exact Finset.sum_nonneg fun l _ => sq_nonneg _
  · rw [hvalue, hvalue, sub_le_sub_iff_right, mul_le_mul_iff_of_pos_left one_half_pos]

end Problem

/-- A row that lacks a coefficient, and one with a negative weight; the hard row is too long. -/
def tilted : Problem ℝ where
  variableCount := 2
  hard := [⟨[1, 1, 1], .le, 0⟩]
  soft := [⟨[1], 2, 2⟩, ⟨[1, -1], 2, -2⟩]

namespace Problem

/-- The point that meets both targets. -/
def upright : tilted.Point := #v[2, 0]

theorem squaredDeviations_upright : tilted.squaredDeviations upright = 0 := by
  have hfirst : SoftRow.deviation (⟨[1], 2, 2⟩ : SoftRow ℝ) upright = 0 := by
    show ∑ j : Fin 2, [(1 : ℝ)].getD j 0 * (#v[(2 : ℝ), 0]).get j - 2 = 0
    rw [Fin.sum_univ_two]
    norm_num [Dense.get_eq_getElem]
  have hsecond : SoftRow.deviation (⟨[1, -1], 2, -2⟩ : SoftRow ℝ) upright = 0 := by
    show ∑ j : Fin 2, [(1 : ℝ), -1].getD j 0 * (#v[(2 : ℝ), 0]).get j - 2 = 0
    rw [Fin.sum_univ_two]
    norm_num [Dense.get_eq_getElem]
  show List.sum [_ * SoftRow.deviation (⟨[1], 2, 2⟩ : SoftRow ℝ) upright ^ 2,
    _ * SoftRow.deviation (⟨[1, -1], 2, -2⟩ : SoftRow ℝ) upright ^ 2] = 0
  rw [hfirst, hsecond]
  norm_num

/-- Where both targets are met the objective is least, and the squared weighted targets tell by how
much it is below zero. -/
theorem objective_measures_deviations_tilted :
    (∀ row ∈ tilted.soft, row.coefficients.length ≤ tilted.variableCount) ∧
    ∃ f, tilted.objective? = some f ∧ f.value upright = -16 ∧
      ∀ y, f.value upright ≤ f.value y := by
  have hfits : ∀ row ∈ tilted.soft, row.coefficients.length ≤ tilted.variableCount := by
    simp [tilted]
  obtain ⟨f, hf, hvalue, -, -, -, hless⟩ := objective_measures_deviations hfits
  refine ⟨hfits, f, hf, ?_, fun y => (hless _ _).2 ?_⟩
  · have hzero : (tilted.soft.map fun row => row.weight ^ 2 * row.deviation upright ^ 2).sum = 0 :=
      squaredDeviations_upright
    rw [hvalue, hzero]
    show 1 / 2 * 0 - 1 / 2 * List.sum [(2 : ℝ) ^ 2 * 2 ^ 2, (-2) ^ 2 * 2 ^ 2] = -16
    norm_num
  · rw [squaredDeviations_upright]
    exact squaredDeviations_nonneg y

end Problem

end ElasticLayout
