import Mathlib
import ElasticLayout.Linear.Dense
import ElasticLayout.Problem.Basic
import ElasticLayout.Proofs.Ownership

/-!
# Exact arithmetic

The real numbers as scalars.  What the solver computes over them is what its text says without
rounding; the tests against the tolerance stay as they are.

* the instances of `Scalar` and `RangeScalar` for the real numbers;
* `near_iff`, `near_abs_iff`, `sum_eq`, `dot_eq` -- the derived operations;
* `Spec.isPenalty_iff` -- the check of penalties;
* `weightFor_pos_iff`, `weightFor_zero`, `weightFor_of_pos` -- the weight of two penalties.
-/

namespace ElasticLayout

noncomputable instance : Scalar ℝ where
  decLt := fun _ _ => Classical.propDecidable _
  decLe := fun _ _ => Classical.propDecidable _
  beq := fun a b => @decide (a = b) (Classical.propDecidable _)
  abs := fun a => |a|
  sqrt := Real.sqrt
  isNaN := fun _ => false
  isFinite := fun _ => true
  nan := 0
  huge := 1.7976931348623157e308

/-- The side condition of the numeral two, as a constant. -/
theorem atLeastTwo_two : Nat.AtLeastTwo 2 := ⟨le_rfl⟩

namespace Scalar

@[simp] theorem beq_iff {a b : ℝ} : (a == b) = true ↔ a = b := by
  show @decide (a = b) (Classical.propDecidable _) = true ↔ a = b
  exact @decide_eq_true_iff (a = b) (Classical.propDecidable _)

@[simp] theorem tolerance_eq : (Scalar.tolerance : ℝ) = 1 / 1000000 := by
  show (1e-6 : ℝ) = _
  norm_num

theorem near_iff {a b : ℝ} : Scalar.near a b = true ↔ |a - b| < 1 / 1000000 := by
  show decide (|a - b| < (Scalar.tolerance : ℝ)) = true ↔ _
  rw [decide_eq_true_iff, tolerance_eq]

@[simp] theorem near_zero : Scalar.near (0 : ℝ) 0 = true := by
  rw [near_iff]
  norm_num

theorem near_abs_iff {a : ℝ} : Scalar.near (Scalar.abs a) 0 = true ↔ |a| < 1 / 1000000 := by
  rw [near_iff, sub_zero, show Scalar.abs a = |a| from rfl, abs_abs]

/-- A pivot that does not count as zero is not zero. -/
theorem ne_zero_of_not_near_abs {a : ℝ} (h : ¬Scalar.near (Scalar.abs a) 0 = true) : a ≠ 0 := by
  rintro rfl
  refine h (near_abs_iff.2 ?_)
  norm_num

theorem sum_eq (xs : List ℝ) : Scalar.sum xs = xs.sum := by
  show xs.foldl (· + ·) (-0) = xs.sum
  rw [List.sum_eq_foldl, neg_zero]

end Scalar

open Linear

theorem dot_eq (xs ys : List ℝ) : dot xs ys = (List.zipWith (· * ·) xs ys).sum :=
  Scalar.sum_eq _

instance : RangeScalar ℝ where
  zero_not_lt := lt_irrefl 0
  defaultLower_not_lt := lt_irrefl _
  defaultUpper_not_lt := lt_irrefl _
  defaultLower_lt_zero := by
    show (-20000.0 : ℝ) < 0
    norm_num

/-! ### Penalties and weights -/

theorem Spec.isPenalty_iff {p : ℝ} : Spec.isPenalty p = true ↔ 0 ≤ p := by
  show (true && decide (0 ≤ p)) = true ↔ 0 ≤ p
  rw [Bool.true_and, decide_eq_true_iff]

theorem weightFor_nonneg {above below : ℝ} : 0 ≤ weightFor above below := by
  unfold weightFor
  dsimp only
  split_ifs <;> norm_num <;> linarith

theorem weightFor_pos_iff {above below : ℝ} :
    0 < weightFor above below ↔ 0 < above ∨ 0 < below := by
  unfold weightFor
  dsimp only
  split_ifs <;> norm_num <;> grind

theorem weightFor_comm (above below : ℝ) : weightFor above below = weightFor below above := by
  unfold weightFor
  dsimp only
  by_cases ha : 0 < above <;> by_cases hb : 0 < below <;> simp [ha, hb, add_comm]

/-- A penalty on one side only is the weight. -/
theorem weightFor_zero {penalty : ℝ} (h : 0 ≤ penalty) : weightFor penalty 0 = penalty := by
  unfold weightFor
  dsimp only
  rw [if_neg (lt_irrefl 0), if_neg fun hboth => lt_irrefl 0 hboth.2, zero_add]
  split_ifs with hpos
  · rfl
  · exact le_antisymm h (not_lt.1 hpos)

/-- Penalties on both sides weigh as much as their mean. -/
theorem weightFor_of_pos {above below : ℝ} (habove : 0 < above) (hbelow : 0 < below) :
    weightFor above below = (above + below) / 2 := by
  unfold weightFor
  dsimp only
  rw [if_pos hbelow, if_pos habove, if_pos ⟨habove, hbelow⟩, zero_add]
  norm_num

end ElasticLayout
