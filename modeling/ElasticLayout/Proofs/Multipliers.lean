import ElasticLayout.Proofs.NullSpace
import ElasticLayout.Proofs.SquareSystems

/-!
# Multipliers of a point without descent

Where the step of the search is zero, the gradient is a combination of the kept rows, and the
multipliers are its coefficients.  The multipliers are computed from as many columns as there are
rows; the remaining columns follow, because the rows span everything that has no coordinates in the
null space.

* `isUnit_of_rows`, `exists_combination` -- square arrays with independent rows;
* `pull_combination` -- coordinates of a combination of rows;
* `exists_combination_of_rows` -- independent rows span what has no coordinates behind them;
* `descent_spec` -- the slope at a step has no coordinates in the null space;
* `pull_gradient_eq_zero` -- without a step the gradient has no coordinates in the null space;
* `multipliers_spec` -- the rows that have multipliers are independent, and the multipliers are the
  only candidates;
* `sum_multipliers` -- the gradient as a combination of the rows.
-/

namespace ElasticLayout

namespace Linear

variable {k m n : ℕ}

/-! ### Square arrays -/

/-- A square array whose rows combine to zero in one way only is invertible. -/
theorem isUnit_of_rows {a : Fin n → Fin n → ℝ}
    (h : ∀ w : Fin n → ℝ, (∀ l, ∑ j, w j * a j l = 0) → w = 0) : IsUnit (Matrix.of a) := by
  refine Matrix.vecMul_injective_iff_isUnit.1 ?_
  refine (injective_iff_map_eq_zero (Matrix.vecMulLinear (Matrix.of a))).2 fun w hw => ?_
  exact h w fun l => congrFun hw l

/-- The rows of an invertible array combine to everything. -/
theorem exists_combination {a : Fin n → Fin n → ℝ} (h : IsUnit (Matrix.of a)) (b : Fin n → ℝ) :
    ∃ w : Fin n → ℝ, ∀ l, ∑ j, w j * a j l = b l := by
  obtain ⟨w, hw⟩ := Matrix.vecMul_surjective_iff_isUnit.2 h b
  exact ⟨w, fun l => congrFun hw l⟩

/-! ### Coordinates -/

/-- The coordinates of a combination of rows. -/
theorem pull_combination (q : Dense m m ℝ) (a : Dense k m ℝ) (c : Fin k → ℝ) (l : Fin m) :
    (pull q (Vector.ofFn fun j => ∑ i, a.entry i j * c i)).get l
      = ∑ i, c i * (pull q (a.get i)).get l := by
  simp only [get_pull, get_ofFn, Finset.sum_mul, Finset.mul_sum]
  rw [Finset.sum_comm]
  refine Finset.sum_congr rfl fun i _ => Finset.sum_congr rfl fun j _ => ?_
  show a.entry i j * c i * _ = c i * (a.entry i j * _)
  ring

/-- The orthogonal factor is invertible. -/
theorem isUnit_factor {a : Dense m n ℝ} {f : Factors m ℝ} (h : factor a = .ok f) :
    IsUnit (Matrix.of f.q.entry) := by
  refine isUnit_of_rows fun w hw => funext fun j => ?_
  have hpull : ∀ l, (pull f.q (Vector.ofFn w)).get l = 0 := by
    intro l
    rw [get_pull, ← hw l]
    simp only [get_ofFn]
  have hzero := eq_zero_of_pull_factor h hpull j
  rw [get_ofFn] at hzero
  exact hzero

/-- Vectors with the same coordinates in the factor are the same. -/
theorem eq_of_pull_factor {a : Dense m n ℝ} {f : Factors m ℝ} (h : factor a = .ok f)
    {v w : Vector ℝ m} (hvw : ∀ l, (pull f.q v).get l = (pull f.q w).get l) : v = w := by
  have hpull : ∀ l, (pull f.q (Vector.ofFn fun j => v.get j - w.get j)).get l = 0 := by
    intro l
    rw [← sub_eq_zero.2 (hvw l)]
    simp only [get_pull, get_ofFn, sub_mul, Finset.sum_sub_distrib]
  refine vector_ext fun j => sub_eq_zero.1 ?_
  have hzero := eq_zero_of_pull_factor h hpull j
  rw [get_ofFn] at hzero
  exact hzero

/-- The trailing columns of the factor are independent. -/
theorem eq_zero_of_columnsFrom {a : Dense m n ℝ} {f : Factors m ℝ} (h : factor a = .ok f)
    {c : Vector ℝ (m - k)} (hc : ∀ j, ((f.q.columnsFrom k).mulVec c).get j = 0)
    (l : Fin (m - k)) : c.get l = 0 := by
  have hl : k + l.val < m := by omega
  obtain ⟨w, hw⟩ := exists_combination (isUnit_factor h)
    fun i => if i = ⟨k + l.val, hl⟩ then 1 else 0
  calc c.get l
      = ∑ i, (if (⟨k + i.val, by omega⟩ : Fin m) = ⟨k + l.val, hl⟩ then 1 else 0) * c.get i := by
        rw [Finset.sum_eq_single l]
        · rw [if_pos rfl, one_mul]
        · intro i _ hi
          have hne : (⟨k + i.val, by omega⟩ : Fin m) ≠ ⟨k + l.val, hl⟩ :=
            fun heq => hi (Fin.ext (by have := congrArg Fin.val heq; dsimp only at this; omega))
          rw [if_neg hne, zero_mul]
        · exact fun hnot => absurd (Finset.mem_univ l) hnot
    _ = ∑ i, (∑ j, w j * f.q.entry j ⟨k + i.val, by omega⟩) * c.get i := by
        refine Finset.sum_congr rfl fun i _ => ?_
        rw [hw]
    _ = ∑ j, w j * ((f.q.columnsFrom k).mulVec c).get j := by
        simp only [Finset.sum_mul, Dense.get_mulVec, Dense.entry_columnsFrom, Finset.mul_sum]
        rw [Finset.sum_comm]
        simp only [mul_assoc]
    _ = 0 := by simp only [hc, mul_zero, Finset.sum_const_zero]

/-- A row that was factored has no coordinates behind the rows. -/
theorem pull_row_eq_zero {a : Dense k m ℝ} {f : Factors m ℝ} (h : factor a.transpose = .ok f)
    (i : Fin k) {l : Fin m} (hl : k ≤ l.val) : (pull f.q (a.get i)).get l = 0 := by
  rw [get_pull, ← sum_mul_factor_eq_zero h i l (i.isLt.trans_le hl)]
  simp only [Dense.entry_transpose]
  rfl

/-- **The rows that were factored span what has no coordinates behind them**, if they are
independent: their leading coordinates then make up an invertible array. -/
theorem exists_combination_of_rows {a : Dense k m ℝ} {f : Factors m ℝ}
    (h : factor a.transpose = .ok f)
    (hindependent : ∀ c : Fin k → ℝ, (∀ j, ∑ i, a.entry i j * c i = 0) → ∀ i, c i = 0)
    {v : Vector ℝ m} (hv : ∀ l : Fin m, k ≤ l.val → (pull f.q v).get l = 0) :
    ∃ c : Fin k → ℝ, ∀ j, ∑ i, a.entry i j * c i = v.get j := by
  have hle : k ≤ m := le_of_factor_ok h
  have hunit : IsUnit (Matrix.of fun i l : Fin k => (pull f.q (a.get i)).get (l.castLE hle)) := by
    refine isUnit_of_rows fun c hc => funext (hindependent c fun j => ?_)
    have hpull : ∀ l, (pull f.q (Vector.ofFn fun j => ∑ i, a.entry i j * c i)).get l = 0 := by
      intro l
      rw [pull_combination]
      obtain hl | hl := lt_or_ge l.val k
      · exact hc ⟨l.val, hl⟩
      · simp only [pull_row_eq_zero h _ hl, mul_zero, Finset.sum_const_zero]
    have hzero := eq_zero_of_pull_factor h hpull j
    rw [get_ofFn] at hzero
    exact hzero
  obtain ⟨c, hc⟩ := exists_combination hunit fun l => (pull f.q v).get (l.castLE hle)
  have hsame : Vector.ofFn (fun j => ∑ i, a.entry i j * c i) = v := by
    refine eq_of_pull_factor h fun l => ?_
    rw [pull_combination]
    obtain hl | hl := lt_or_ge l.val k
    · exact hc ⟨l.val, hl⟩
    · simp only [pull_row_eq_zero h _ hl, hv l hl, mul_zero, Finset.sum_const_zero]
  exact ⟨c, fun j => by rw [← hsame, get_ofFn]⟩

end Linear

open Linear

variable {k n : ℕ} {f : Objective n ℝ} {a : Dense k n ℝ} {gradient step : Vector ℝ n}
  {prices : Vector ℝ k}

/-- **What a step is**: a vector in the null space at which the slope of the objective has no
coordinates there. -/
theorem descent_spec (h : descent f a gradient = .ok step) (hk : k ≠ n) :
    ∃ factors coordinates, factor a.transpose = .ok factors ∧
      step = (factors.q.columnsFrom k).mulVec coordinates ∧
      ∀ l : Fin n, k ≤ l.val → (pull factors.q ((f.around gradient).gradient step)).get l = 0 := by
  unfold descent at h
  rw [if_neg hk] at h
  obtain ⟨factors, hfactors, h⟩ := bind_ok h
  obtain ⟨coordinates, hsolve, h⟩ := bind_ok h
  obtain rfl := Except.ok.inj h
  refine ⟨factors, coordinates, hfactors, rfl, fun l hl => ?_⟩
  obtain ⟨z, hz⟩ : ∃ z, z = factors.q.columnsFrom k := ⟨_, rfl⟩
  rw [← hz] at hsolve ⊢
  have hsystem := (mulVec_eq_iff_of_solve hsolve coordinates).2 rfl
  rw [Dense.mulVec_mul, Dense.mulVec_mul] at hsystem
  have hrow := congrArg (fun v => Vector.get v ⟨l.val - k, by omega⟩) hsystem
  have hcolumn : ∀ j, z.entry j ⟨l.val - k, by omega⟩ = factors.q.entry j l := by
    intro j
    rw [hz, Dense.entry_columnsFrom]
    congr 1
    exact Fin.ext (by dsimp only; omega)
  rw [get_map, Dense.get_mulVec, Dense.get_mulVec] at hrow
  simp only [Dense.entry_transpose, hcolumn] at hrow
  rw [get_pull, ← add_eq_zero_iff_eq_neg.2 hrow, ← Finset.sum_add_distrib]
  refine Finset.sum_congr rfl fun j _ => ?_
  rw [Objective.get_gradient_around, mul_comm, mul_add]

/-- **Without a step the gradient has no coordinates in the null space.** -/
theorem pull_gradient_eq_zero (h : descent f a gradient = .ok step)
    (hstep : ∀ j, step.get j = 0) (hk : k ≠ n) :
    ∃ factors, factor a.transpose = .ok factors ∧
      ∀ l : Fin n, k ≤ l.val → (pull factors.q gradient).get l = 0 := by
  obtain ⟨factors, -, hfactors, -, hslope⟩ := descent_spec h hk
  have hsame : (f.around gradient).gradient step = gradient := by
    refine vector_ext fun j => ?_
    rw [Objective.get_gradient_around, Dense.get_mulVec]
    simp only [hstep, mul_zero, Finset.sum_const_zero, zero_add]
  exact ⟨factors, hfactors, hsame ▸ hslope⟩

/-- What multipliers say of their rows.  The system that they solve has a part of the columns
only. -/
theorem multipliers_spec (h : multipliers a gradient = .ok prices) :
    (∀ c : Fin k → ℝ, (∀ j, ∑ i, a.entry i j * c i = 0) → ∀ i, c i = 0) ∧
      (∀ c : Fin k → ℝ, (∀ j, ∑ i, a.entry i j * c i = gradient.get j) →
        ∀ i, c i = prices.get i) ∧
      (k = n → ∀ j, ∑ i, a.entry i j * prices.get i = gradient.get j) := by
  obtain ⟨columns, system, rhs, hcolumns, hsolve, hentry, hrhs⟩ := exists_system_of_multipliers h
  refine ⟨fun c hc => eq_zero_of_solve hsolve fun l => ?_, fun c hc i => ?_, fun hk j => ?_⟩
  · simp only [hentry, hc]
  · have hsame := (mulVec_eq_iff_of_solve hsolve (Vector.ofFn c)).1 (vector_ext fun l => ?_)
    · rw [← hsame, get_ofFn]
    · rw [Dense.get_mulVec, hrhs]
      simp only [hentry, get_ofFn, hc]
  · -- As many columns as there are columns at all are all of them.
    subst hk
    obtain ⟨l, rfl⟩ := Finite.surjective_of_injective hcolumns.injective j
    have hl : (system.mulVec prices).get l = rhs.get l :=
      congrArg (fun v => Vector.get v l) ((mulVec_eq_iff_of_solve hsolve prices).2 rfl)
    rw [Dense.get_mulVec, hrhs] at hl
    simpa only [hentry] using hl

/-- **The multipliers of a point without a step make up its gradient.** -/
theorem sum_multipliers (hdescent : descent f a gradient = .ok step)
    (hstep : ∀ j, step.get j = 0) (hprices : multipliers a gradient = .ok prices) (j : Fin n) :
    ∑ i, a.entry i j * prices.get i = gradient.get j := by
  obtain ⟨hindependent, hunique, hall⟩ := multipliers_spec hprices
  by_cases hk : k = n
  · exact hall hk j
  obtain ⟨factors, hfactors, hgradient⟩ := pull_gradient_eq_zero hdescent hstep hk
  obtain ⟨c, hc⟩ := exists_combination_of_rows hfactors hindependent hgradient
  simp only [← hunique c hc, hc]

end ElasticLayout
