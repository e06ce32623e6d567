import ElasticLayout.Proofs.ExactScalar
import ElasticLayout.Proofs.RowLayout

/-!
# Problems in exact arithmetic

What the rows of a problem say without tolerance, and what the objective of a problem measures: up
to a constant, it is half the sum of the squared weighted deviations of the soft rows.

* `Objective.value_eq`, `Objective.value_move` -- objectives of squares, and along a step;
* `Objective.tangent_le_value` -- they are convex;
* `Objective.around` -- the objective of the steps from a point;
* `Relation.Holds`, `Problem.Holds` -- hard rows, met exactly;
* `Problem.penalty` -- the penalty of the soft rows;
* `Problem.IsFull` -- every row has one coefficient per column;
* `Problem.objective?_value` -- the objective is the penalty up to a constant;
* `Problem.IsMinimizer` -- a point that keeps the hard rows and is no worse than the others.
-/

namespace ElasticLayout

/-! ### Vectors -/

namespace Linear

variable {n : ℕ}

theorem vector_ext {β : Type*} {v w : Vector β n} (h : ∀ i, v.get i = w.get i) : v = w :=
  Vector.ext fun i hi => h ⟨i, hi⟩

theorem get_ofFn {β : Type*} (f : Fin n → β) (i : Fin n) : (Vector.ofFn f).get i = f i := by
  simp

theorem get_zipWith {β : Type*} (f : β → β → β) (v w : Vector β n) (i : Fin n) :
    (v.zipWith f w).get i = f (v.get i) (w.get i) :=
  Vector.getElem_zipWith ..

theorem get_map {β γ : Type*} (f : β → γ) (v : Vector β n) (i : Fin n) :
    (v.map f).get i = f (v.get i) :=
  Vector.getElem_map ..

end Linear

open Linear

/-! ### Sums over positions -/

theorem dot_eq_sum {n : ℕ} {xs ys : List ℝ} (hx : xs.length = n) (hy : ys.length = n) :
    dot xs ys = ∑ i : Fin n, xs[i] * ys[i] := by
  rw [dot_eq, Fin.sum_univ_def]
  congr 1
  apply List.ext_getElem
  · simp [hx, hy]
  · intro i h₁ h₂
    simp

theorem dot_toList {n : ℕ} (v w : Vector ℝ n) :
    dot v.toList w.toList = ∑ i : Fin n, v.get i * w.get i := by
  rw [dot_eq_sum (Vector.length_toList ..) (Vector.length_toList ..)]
  simp [Dense.get_eq_getElem]

/-- The inner product of a list and a vector; entries that the list lacks count as zero. -/
theorem dot_getD {n : ℕ} (row : List ℝ) (v : Vector ℝ n) :
    dot row v.toList = ∑ j : Fin n, row.getD j 0 * v.get j := by
  have hlist : ∀ row values : List ℝ,
      dot row values = ∑ j : Fin values.length, row.getD j 0 * values[j] := by
    intro row values
    rw [dot_eq]
    induction values generalizing row with
    | nil => simp
    | cons value values ih =>
      cases row with
      | nil => simp
      | cons c row =>
        rw [List.zipWith_cons_cons, List.sum_cons, ih]
        exact (Fin.sum_univ_succ fun j : Fin (values.length + 1) =>
          (c :: row).getD j 0 * (value :: values)[j]).symm
  rw [hlist]
  refine Fintype.sum_equiv (finCongr (Vector.length_toList ..)) _ _ fun j => ?_
  simp [Dense.get_eq_getElem]

theorem sum_map_eq_sum {β : Type*} {n : ℕ} {xs : List β} (hx : xs.length = n) (f : β → ℝ) :
    (xs.map f).sum = ∑ i : Fin n, f xs[i] := by
  rw [Fin.sum_univ_def]
  congr 1
  apply List.ext_getElem
  · simp [hx]
  · intro i h₁ h₂
    simp

theorem sum_map_filter {β : Type*} (p : β → Bool) (f : β → ℝ) (xs : List β) :
    ((xs.filter p).map f).sum = (xs.map fun x => if p x then f x else 0).sum := by
  induction xs with
  | nil => rfl
  | cons x xs ih =>
    rw [List.filter_cons, List.map_cons, List.sum_cons, ← ih]
    split
    · rw [List.map_cons, List.sum_cons]
    · rw [zero_add]

theorem dot_map_mul (xs ys : List ℝ) (a : ℝ) : dot (xs.map (· * a)) ys = a * dot xs ys := by
  rw [dot_eq, dot_eq]
  induction xs generalizing ys with
  | nil => simp
  | cons x xs ih =>
    cases ys with
    | nil => simp
    | cons y ys =>
      rw [List.map_cons, List.zipWith_cons_cons, List.sum_cons, ih, List.zipWith_cons_cons,
        List.sum_cons]
      ring

theorem foldl_add_eq_sum {ι : Type*} (f : ι → ℝ) (is : List ι) (a : ℝ) :
    is.foldl (fun s i => s + f i) a = a + (is.map f).sum := by
  induction is generalizing a with
  | nil => simp
  | cons i is ih => rw [List.foldl_cons, ih, List.map_cons, List.sum_cons, add_assoc]

theorem foldl_finRange_eq_sum {n : ℕ} (f : Fin n → ℝ) :
    (List.finRange n).foldl (fun s i => s + f i) 0 = ∑ i, f i := by
  rw [foldl_add_eq_sum, zero_add, Fin.sum_univ_def]

namespace Linear.Dense

variable {m n k : ℕ}

theorem get_mulVec (a : Dense m n ℝ) (v : Vector ℝ n) (i : Fin m) :
    (a.mulVec v).get i = ∑ j, a.entry i j * v.get j := by
  rw [mulVec, get_eq_getElem, Vector.getElem_ofFn, dot_toList]
  rfl

theorem entry_mul (a : Dense m k ℝ) (b : Dense k n ℝ) (i : Fin m) (j : Fin n) :
    (a.mul b).entry i j = ∑ l, a.entry i l * b.entry l j := by
  rw [mul, entry_ofFn, ← foldl_finRange_eq_sum]
  congr 1
  funext s l
  by_cases hzero : a.entry i l = 0
  · simp [hzero]
  · rw [if_neg (by simpa using hzero)]

theorem mulVec_mul (a : Dense m k ℝ) (b : Dense k n ℝ) (v : Vector ℝ n) :
    (a.mul b).mulVec v = a.mulVec (b.mulVec v) := by
  refine vector_ext fun i => ?_
  simp only [get_mulVec, entry_mul, Finset.sum_mul, Finset.mul_sum]
  rw [Finset.sum_comm]
  simp only [mul_assoc]

theorem get_mulVec_move (a : Dense m n ℝ) (x step : Vector ℝ n) (c : ℝ) (i : Fin m) :
    (a.mulVec (x.zipWith (fun x d => x + c * d) step)).get i
      = (a.mulVec x).get i + c * (a.mulVec step).get i := by
  simp only [get_mulVec, get_zipWith, Finset.mul_sum, ← Finset.sum_add_distrib]
  refine Finset.sum_congr rfl fun j _ => ?_
  ring

end Linear.Dense

/-! ### Objectives of squares -/

namespace Objective

variable {m n : ℕ} {f : Objective n ℝ} {w : Dense m n ℝ}

theorem get_mulVec_quadratic
    (h : ∀ i j, f.quadratic.entry i j = ∑ l, w.entry l i * w.entry l j) (x : Vector ℝ n)
    (i : Fin n) :
    (f.quadratic.mulVec x).get i = ∑ l, w.entry l i * (w.mulVec x).get l := by
  simp only [Dense.get_mulVec, h, Finset.sum_mul, Finset.mul_sum]
  rw [Finset.sum_comm]
  simp only [mul_assoc]

/-- Along two vectors the second-order term measures the product of what the array makes of
them. -/
theorem sum_mulVec_quadratic
    (h : ∀ i j, f.quadratic.entry i j = ∑ l, w.entry l i * w.entry l j) (x y : Vector ℝ n) :
    ∑ j, (f.quadratic.mulVec x).get j * y.get j
      = ∑ l, (w.mulVec x).get l * (w.mulVec y).get l := by
  simp only [get_mulVec_quadratic h, Finset.sum_mul]
  rw [Finset.sum_comm]
  refine Finset.sum_congr rfl fun l _ => ?_
  rw [Dense.get_mulVec w y, Finset.mul_sum]
  refine Finset.sum_congr rfl fun j _ => ?_
  ring

/-- The objective whose second-order term comes from an array measures the square of what the array
makes of a point. -/
theorem value_eq (h : ∀ i j, f.quadratic.entry i j = ∑ l, w.entry l i * w.entry l j)
    (x : Vector ℝ n) :
    f.value x = 1 / 2 * ∑ l, (w.mulVec x).get l ^ 2 + ∑ j, f.linear.get j * x.get j := by
  have hquadratic : dot (f.quadratic.mulVec x).toList x.toList = ∑ l, (w.mulVec x).get l ^ 2 := by
    rw [dot_toList, sum_mulVec_quadratic h]
    simp only [sq]
  show 0.5 * dot _ _ + dot _ _ = _
  rw [hquadratic, dot_toList]
  norm_num

theorem get_gradient (f : Objective n ℝ) (x : Vector ℝ n) (j : Fin n) :
    (f.gradient x).get j = (f.quadratic.mulVec x).get j + f.linear.get j := by
  simp [gradient, Dense.get_eq_getElem]

/-- **Along a step the objective is a parabola**: the gradient is its slope, and the square of what
the array makes of the step is its curvature. -/
theorem value_move (h : ∀ i j, f.quadratic.entry i j = ∑ l, w.entry l i * w.entry l j)
    (x step : Vector ℝ n) (c : ℝ) :
    f.value (x.zipWith (fun x d => x + c * d) step)
      = f.value x + c * ∑ j, (f.gradient x).get j * step.get j
        + c ^ 2 / 2 * ∑ l, (w.mulVec step).get l ^ 2 := by
  have hsquare : ∑ l, ((w.mulVec x).get l + c * (w.mulVec step).get l) ^ 2
      = ∑ l, (w.mulVec x).get l ^ 2 + 2 * c * ∑ l, (w.mulVec x).get l * (w.mulVec step).get l
        + c ^ 2 * ∑ l, (w.mulVec step).get l ^ 2 := by
    simp only [Finset.mul_sum, ← Finset.sum_add_distrib]
    refine Finset.sum_congr rfl fun l _ => ?_
    ring
  have hlinear : ∑ j, f.linear.get j * (x.get j + c * step.get j)
      = ∑ j, f.linear.get j * x.get j + c * ∑ j, f.linear.get j * step.get j := by
    simp only [Finset.mul_sum, ← Finset.sum_add_distrib]
    refine Finset.sum_congr rfl fun j _ => ?_
    ring
  rw [value_eq h, value_eq h]
  simp only [Dense.get_mulVec_move, get_zipWith, hsquare, hlinear, get_gradient, add_mul,
    Finset.sum_add_distrib, sum_mulVec_quadratic h]
  ring

/-- **The objective is convex**: it stays above its tangents. -/
theorem tangent_le_value (h : ∀ i j, f.quadratic.entry i j = ∑ l, w.entry l i * w.entry l j)
    (x y : Vector ℝ n) :
    f.value x + ∑ j, (f.gradient x).get j * (y.get j - x.get j) ≤ f.value y := by
  obtain ⟨step, hstep⟩ : ∃ step : Vector ℝ n, ∀ j, step.get j = y.get j - x.get j :=
    ⟨Vector.ofFn fun j => y.get j - x.get j, get_ofFn _⟩
  have hy : x.zipWith (fun x d => x + 1 * d) step = y := by
    refine vector_ext fun j => ?_
    rw [get_zipWith, hstep]
    ring
  have hmove := value_move h x step 1
  rw [hy] at hmove
  simp only [hstep] at hmove
  have hcurve : 0 ≤ ∑ l, (w.mulVec step).get l ^ 2 := Finset.sum_nonneg fun l _ => sq_nonneg _
  linarith

/-- The objective of the steps from a point with a given gradient, up to a constant: it has the same
second-order term, and the gradient in the place of the first-order term. -/
def around (f : Objective n ℝ) (gradient : Vector ℝ n) : Objective n ℝ :=
  { f with linear := gradient }

theorem get_gradient_around (f : Objective n ℝ) (gradient step : Vector ℝ n) (j : Fin n) :
    ((f.around gradient).gradient step).get j
      = (f.quadratic.mulVec step).get j + gradient.get j :=
  get_gradient (f.around gradient) step j

end Objective

/-! ### Hard rows -/

/-- The comparison of two numbers. -/
def Relation.Holds : Relation → ℝ → ℝ → Prop
  | le, left, right => left ≤ right
  | ge, left, right => right ≤ left
  | eq, left, right => left = right

/-- The row holds at a point. -/
def HardRow.Holds (row : HardRow ℝ) (x : List ℝ) : Prop :=
  row.relation.Holds (row.value x) row.rhs

namespace Problem

/-- All hard rows hold at a point. -/
def Holds (p : Problem ℝ) (x : p.Point) : Prop := ∀ row ∈ p.hard, row.Holds x.toList

/-! ### The penalty -/

/-- Half the sum of the squared weighted deviations of the soft rows. -/
noncomputable def penalty (p : Problem ℝ) (x : p.Point) : ℝ :=
  1 / 2 * (p.soft.map fun row =>
    (row.weight * (dot row.coefficients x.toList - row.rhs)) ^ 2).sum

/-- Every row has one coefficient per column. -/
structure IsFull (p : Problem ℝ) : Prop where
  /-- The hard rows. -/
  hard : ∀ row ∈ p.hard, row.coefficients.length = p.variableCount
  /-- The soft rows. -/
  soft : ∀ row ∈ p.soft, row.coefficients.length = p.variableCount

variable {p : Problem ℝ}

theorem IsFull.rowsFit (h : p.IsFull) : p.RowsFit where
  hard row hrow := (h.hard row hrow).le
  soft row hrow := (h.soft row hrow).le

/-- The terms of the objective, from the weighted rows. -/
theorem objective?_eq (h : p.RowsFit) : ∃ (w : Dense p.weightedRows.length p.variableCount ℝ)
    (f : Objective p.variableCount ℝ), p.objective? = some f ∧
      (∀ l j, w.entry l j = (p.weightedRows.get l).getD j 0) ∧
      (∀ i j, f.quadratic.entry i j = ∑ l, w.entry l i * w.entry l j) ∧
      (∀ j, f.linear.get j = -dot (w.transpose.get j).toList p.weightedTargets) := by
  obtain ⟨w, hentry, hf⟩ := exists_objective? h
  refine ⟨w, _, hf, hentry, fun i j => ?_, fun j => ?_⟩
  · simp only [Dense.entry_mul, Dense.entry_transpose]
  · simp [Dense.get_eq_getElem]

/-- The second-order term of an objective is a product of an array with itself. -/
theorem exists_gram {f : Objective p.variableCount ℝ} (hf : p.objective? = some f) :
    ∃ w : Dense p.weightedRows.length p.variableCount ℝ,
      ∀ i j, f.quadratic.entry i j = ∑ l, w.entry l i * w.entry l j := by
  obtain ⟨w, -, hf⟩ := Option.bind_eq_some_iff.1 hf
  obtain rfl := Option.some.inj hf
  refine ⟨w, fun i j => ?_⟩
  simp only [Dense.entry_mul, Dense.entry_transpose]

/-- **The objective of a problem measures its penalty**, less the penalty of the zero point. -/
theorem objective?_value (h : p.RowsFit) : ∃ f, p.objective? = some f ∧ ∀ x : p.Point,
    f.value x = p.penalty x - 1 / 2 * (p.weightedTargets.map (· ^ 2)).sum := by
  obtain ⟨w, f, hf, hw, hquadratic, hlinear⟩ := objective?_eq h
  refine ⟨f, hf, fun x => ?_⟩
  have hsoft : p.soft.length = p.weightedRows.length := by simp [weightedRows]
  have htargets : p.weightedTargets.length = p.weightedRows.length := by
    simp [weightedTargets, weightedRows]
  -- The weighted left sides and targets.
  obtain ⟨u, hu⟩ : ∃ u : Fin p.weightedRows.length → ℝ,
      u = fun l => (w.mulVec x).get l := ⟨_, rfl⟩
  obtain ⟨t, ht⟩ : ∃ t : Fin p.weightedRows.length → ℝ, t = fun l => p.weightedTargets[l] :=
    ⟨_, rfl⟩
  have hfirst : ∑ j, f.linear.get j * x.get j = -∑ l, t l * u l := by
    have hlinear' : ∀ j, f.linear.get j = -∑ l, w.entry l j * t l := by
      intro j
      rw [hlinear, dot_eq_sum (Vector.length_toList ..) htargets, ht]
      congr 1
      refine Finset.sum_congr rfl fun l _ => ?_
      rw [← Dense.entry_transpose]
      rfl
    simp only [hlinear', hu, Dense.get_mulVec, Finset.mul_sum, neg_mul, Finset.sum_mul,
      Finset.sum_neg_distrib]
    rw [Finset.sum_comm]
    congr 1
    refine Finset.sum_congr rfl fun l _ => Finset.sum_congr rfl fun j _ => ?_
    ring
  have hvalue : f.value x = 1 / 2 * ∑ l, (u l - t l) ^ 2 - 1 / 2 * ∑ l, t l ^ 2 := by
    rw [Objective.value_eq hquadratic, hfirst, ← mul_sub, ← Finset.sum_sub_distrib,
      Finset.mul_sum, Finset.mul_sum, ← Finset.sum_neg_distrib, ← Finset.sum_add_distrib, hu]
    refine Finset.sum_congr rfl fun l _ => ?_
    ring
  rw [hvalue, penalty, sum_map_eq_sum hsoft, sum_map_eq_sum htargets]
  simp only [ht]
  congr 2
  refine Finset.sum_congr rfl fun l _ => ?_
  have hu' : u l = dot p.weightedRows[l] x.toList := by
    rw [hu, dot_getD]
    dsimp only
    rw [Dense.get_mulVec]
    simp only [hw]
    rfl
  have hrow : p.weightedRows[l] = p.soft[l].coefficients.map (· * p.soft[l].weight) :=
    List.getElem_map _
  have htarget : p.weightedTargets[l] = p.soft[l].rhs * p.soft[l].weight := List.getElem_map _
  rw [hu', hrow, htarget, dot_map_mul]
  ring

/-! ### Minimizers -/

/-- A point that keeps the hard rows, and at which the objective is least among those points. -/
structure IsMinimizer (p : Problem ℝ) (x : p.Point) : Prop where
  /-- The hard rows hold. -/
  holds : p.Holds x
  /-- No point that keeps the hard rows is better. -/
  least : ∀ f, p.objective? = some f → ∀ y, p.Holds y → f.value x ≤ f.value y

theorem IsMinimizer.penalty_le (h : p.IsFull) {x y : p.Point} (hx : p.IsMinimizer x)
    (hy : p.Holds y) : p.penalty x ≤ p.penalty y := by
  obtain ⟨f, hf, hvalue⟩ := objective?_value h.rowsFit
  have hle := hx.least f hf y hy
  rw [hvalue, hvalue] at hle
  linarith

end Problem

end ElasticLayout
