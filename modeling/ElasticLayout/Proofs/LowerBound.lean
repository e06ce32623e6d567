import ElasticLayout.Proofs.Feasibility

/-!
# A variable with one lower bound

The problem of one variable, one hard row that keeps it above a number, and an objective that pulls
it down.  Elimination finds the bound itself, the search does not leave it, and the row is not
overlooked on the way.

* `EquationSystem.lone` -- one row with its slack, which elimination leaves as it is;
* `Problem.above` -- the problem, with any soft rows;
* `Problem.gradient_nonneg_of_one` -- soft rows that pull downwards;
* `Problem.solve_above`, `Problem.not_overlooked_above` -- the solution.
-/

namespace ElasticLayout

open Linear

/-! ### Elimination -/

namespace EquationSystem

/-- One row with coefficient one, and another coefficient. -/
def lone (c b : ℝ) : EquationSystem 1 2 ℝ := .ofCells #v[#v[1, c]] #v[b]

variable (c b : ℝ)

theorem removeDependentRows_lone : (lone c b).removeDependentRows = lone c b := by
  have hkept : independentRows (lone c b).activeCells = ([0] : List (Fin 1)) :=
    independentRows_of_lead (n := 1) (a := (lone c b).activeCells) (Dense.entry_ofFn ..)
  have hparts : ∀ {s t : EquationSystem 1 2 ℝ}, s.cells = t.cells → s.rhs = t.rhs →
      s.rowOrder = t.rowOrder → s.columnOrder = t.columnOrder → s.rows = t.rows →
      s.columns = t.columns → s = t := by
    rintro ⟨⟩ ⟨⟩ rfl rfl rfl rfl rfl rfl
    rfl
  refine hparts rfl ?_ ?_ rfl ?_ rfl
  · unfold removeDependentRows
    dsimp only
    rw [hkept]
    rfl
  · unfold removeDependentRows
    dsimp only
    rw [hkept]
    rfl
  · exact congrArg List.length hkept

theorem isUsed_lone_first : (lone c b).isUsed 0 = true := by
  show (!Scalar.near (1 : ℝ) 0 || false) = true
  rw [near_unit abs_one]
  rfl

/-- The first column is used, and the second one is dropped unless it has an entry. -/
theorem removeUnusedColumns_lone : (lone c b).removeUnusedColumns
    = if (lone c b).isUsed 1 then lone c b else (lone c b).dropColumn 1 Nat.one_lt_two := by
  unfold removeUnusedColumns
  show (lone c b).dropUnused 0 2 = _
  unfold dropUnused
  rw [dif_pos (show 0 < (lone c b).columns from Nat.two_pos)]
  show (if (lone c b).isUsed 0 then _ else _) = _
  rw [if_pos (isUsed_lone_first c b)]
  unfold dropUnused
  rw [dif_pos (show 0 + 1 < (lone c b).columns from Nat.one_lt_two)]
  rfl

theorem isUsed_lone_second : (lone c b).isUsed 1 = !Scalar.near c 0 := by
  show (!Scalar.near c 0 || false) = _
  rw [Bool.or_false]

variable {c b}

/-- A row with one in front needs no elimination. -/
theorem gaussJordan_of_unit {t : EquationSystem 1 2 ℝ} (hrows : t.rows = 1)
    (hcolumns : 0 < t.columns) (hcell : t.cell 0 0 = 1) : t.gaussJordan = (t, true) := by
  have hnormal : t.normalize 0 0 = t := if_pos (Scalar.beq_iff.2 hcell)
  have hactive : t.activeRows = [0] := by
    unfold activeRows
    rw [hrows]
    rfl
  have hpivot : t.bringPivot? 0 0 = some t := by
    have hfind : t.activeRows.find? (fun r => 0 ≤ r && !Scalar.near (t.cell r 0) 0) = some 0 := by
      rw [hactive]
      refine List.find?_cons_of_pos ?_
      rw [hcell, near_unit abs_one]
      rfl
    unfold bringPivot?
    rw [hfind]
    rfl
  have hothers : t.eliminateColumn 0 0 (t.activeRows.filter (0 < ·)) = t := by
    rw [hactive]
    exact hnormal
  have hdown : t.gaussianElimination = (t, true) := by
    unfold gaussianElimination
    rw [hactive]
    unfold eliminateDown
    rw [dif_pos (show (0 : Fin 1).val < t.columns from hcolumns)]
    dsimp only
    rw [show Fin.castLE t.columns_le ⟨(0 : Fin 1).val, _⟩ = (0 : Fin 2) from rfl, hpivot]
    dsimp only
    rw [hothers]
    rfl
  unfold gaussJordan
  rw [hdown]
  dsimp only
  rw [hactive]
  show (t.normalize 0 0, true) = _
  rw [hnormal]

end EquationSystem

/-! ### One row -/

namespace Problem

/-- One variable that is at least `b`. -/
def above (b : ℝ) (soft : List (SoftRow ℝ)) : Problem ℝ := ⟨1, [⟨[1], .ge, b⟩], soft⟩

variable {b : ℝ} {soft : List (SoftRow ℝ)}

/-- The row that keeps the variable up. -/
def foot : (above b soft).Row := ⟨0, Nat.one_pos⟩

/-- The least point. -/
def lowest : (above b soft).Point := Vector.replicate (above b soft).variableCount b

theorem get_lowest (j : Fin (above b soft).variableCount) :
    (lowest : (above b soft).Point).get j = b := by
  simp [lowest, Vector.get]

theorem signedValue_foot (x : (above b soft).Point) :
    ((above b soft).row foot).signedValue x.toList = x.get (0 : Fin 1) := by
  have hdot : dot [1] x.toList = 1 * x.get (0 : Fin 1) := dot_singleton 1 x
  show 1 * dot [1] x.toList = _
  rw [hdot, one_mul, one_mul]

theorem signedRhs_foot : ((above b soft).row foot).signedRhs = b := one_mul b

theorem signedValue_lowest :
    ((above b soft).row foot).signedValue (lowest : (above b soft).Point).toList = b :=
  (signedValue_foot _).trans (get_lowest _)

theorem basicPoint_above : (above b soft).basicPoint = .ok (some lowest) := by
  have hsystem : (above b soft).slackSystem? = some (.lone (-1) b) := by
    unfold slackSystem?
    exact if_pos rfl
  have hreduced : (EquationSystem.lone (-1) b).removeDependentRows.removeUnusedColumns.gaussJordan
      = (EquationSystem.lone (-1) b, true) := by
    rw [EquationSystem.removeDependentRows_lone, EquationSystem.removeUnusedColumns_lone,
      EquationSystem.isUsed_lone_second, near_unit (by simp)]
    exact EquationSystem.gaussJordan_of_unit rfl Nat.two_pos rfl
  unfold basicPoint
  rw [hsystem]
  exact congrArg (fun reduced : EquationSystem 1 2 ℝ × Bool =>
    (Except.ok (if reduced.2 then some (reduced.1.basicSolution 1) else none)
      : Except SolveError (Option (Vector ℝ 1)))) hreduced

theorem feasibleBasicPoint_above : (above b soft).feasibleBasicPoint = .ok (some lowest) := by
  have hfeasible : (above b soft).isFeasible lowest Scalar.tolerance = true := by
    refine isFeasible_iff.2 fun r => ?_
    obtain rfl : r = foot := Fin.ext (Nat.lt_one_iff.1 r.isLt)
    rw [HardRow.isSatisfied_iff]
    unfold HardRow.excess
    rw [signedValue_lowest, signedRhs_foot]
    show -(1 / 1000000) < b - b
    norm_num
  unfold feasibleBasicPoint
  rw [basicPoint_above]
  show Except.ok (Option.filter _ (some _)) = _
  rw [Option.filter_some, if_pos hfeasible]

theorem startAt_above : (above b soft).startAt lowest = ⟨lowest, [foot]⟩ := by
  have hnear : Scalar.near (((above b soft).row foot).signedValue
      (lowest : (above b soft).Point).toList) ((above b soft).row foot).signedRhs = true := by
    rw [signedValue_lowest, signedRhs_foot, Scalar.near_iff]
    norm_num
  unfold startAt bindingRows
  congr 1
  show List.filter _ [foot] = [foot]
  rw [List.filter_singleton, hnear, Bool.or_true]
  rfl

/-! ### The search -/

/-- Where every soft row of a problem in one variable pulls downwards, so does the objective. -/
theorem gradient_nonneg_of_one {p : Problem ℝ} (hfits : p.RowsFit) (hn : p.variableCount = 1)
    (hsoft : ∀ row ∈ p.soft, row.coefficients.getD 0 0 * row.rhs ≤ 0)
    {f : Objective p.variableCount ℝ} (hf : p.objective? = some f) {x : p.Point}
    (hx : ∀ j, 0 ≤ x.get j) (j : Fin p.variableCount) : 0 ≤ (f.gradient x).get j := by
  obtain ⟨w, g, hg, hw, hquadratic, hlinear⟩ := objective?_eq hfits
  obtain rfl := Option.some.inj (hf.symm.trans hg)
  rw [Objective.get_gradient, Objective.get_mulVec_quadratic hquadratic]
  refine add_nonneg (Finset.sum_nonneg fun l _ => ?_) ?_
  · have hrow : (w.mulVec x).get l = w.entry l j * x.get j := by
      rw [Dense.get_mulVec]
      exact Fintype.sum_eq_single j fun i hi => absurd (Fin.ext (by omega)) hi
    rw [hrow, ← mul_assoc]
    exact mul_nonneg (mul_self_nonneg _) (hx j)
  · rw [hlinear, dot_comm, dot_getD]
    refine neg_nonneg.2 (Finset.sum_nonpos fun l _ => ?_)
    have hl : l.val < p.soft.length := by simpa [weightedRows] using l.isLt
    have hcell : (w.transpose.get j).get l
        = p.soft[l.val].coefficients.getD 0 0 * p.soft[l.val].weight := by
      show w.transpose.entry j l = _
      rw [Dense.entry_transpose, hw, show j.val = 0 by omega, List.get_eq_getElem]
      simp only [weightedRows, List.getElem_map, List.getD_eq_getElem?_getD, List.getElem?_map]
      cases p.soft[l.val].coefficients[0]? <;> simp
    have htarget : p.weightedTargets.getD l.val 0 = p.soft[l.val].rhs * p.soft[l.val].weight := by
      simp [weightedTargets, hl]
    have hpull := mul_nonpos_of_nonpos_of_nonneg (hsoft _ (List.getElem_mem hl))
      (mul_self_nonneg p.soft[l.val].weight)
    rw [hcell, htarget]
    linarith

/-- What pulls a variable of at least zero downwards does not pull it off its bound. -/
theorem advance_above (hb : 0 ≤ b) (hfits : (above b soft).RowsFit)
    (hsoft : ∀ row ∈ soft, row.coefficients.getD 0 0 * row.rhs ≤ 0)
    {f : Objective (above b soft).variableCount ℝ} (hf : (above b soft).objective? = some f) :
    (above b soft).advance f ((above b soft).startAt lowest) = .ok none := by
  rw [startAt_above]
  refine advance_eq_none_of_one (r := foot) hfits rfl (one_mul 1) (.inr ?_)
  exact gradient_nonneg_of_one hfits rfl hsoft hf fun j => (get_lowest j).symm ▸ hb

/-- **One variable is pulled down to its lower bound.** -/
theorem optimize_above (hb : 0 ≤ b) (hfits : (above b soft).RowsFit)
    (hsoft : ∀ row ∈ soft, row.coefficients.getD 0 0 * row.rhs ≤ 0) (iterations : ℕ) :
    (above b soft).optimize lowest (iterations + 1) = .ok lowest := by
  obtain ⟨_, -, hf⟩ := exists_objective? hfits
  unfold optimize
  rw [hf]
  dsimp only
  unfold iterate
  rw [advance_above hb hfits hsoft hf]
  rfl

theorem initialPoint_above (maxIterations : ℕ) :
    (above b soft).initialPoint maxIterations = .ok lowest := by
  unfold initialPoint
  rw [feasibleBasicPoint_above]
  rfl

theorem solve_above (hb : 0 ≤ b) (hfits : (above b soft).RowsFit)
    (hsoft : ∀ row ∈ soft, row.coefficients.getD 0 0 * row.rhs ≤ 0) (iterations : ℕ) :
    (above b soft).solve (iterations + 1) = .ok lowest := by
  unfold solve
  rw [if_neg (by simp [rowCount, above]), initialPoint_above]
  exact optimize_above hb hfits hsoft iterations

/-- The solve does not overlook the bound. -/
theorem not_overlooked_above (hb : 0 ≤ b) (hfits : (above b soft).RowsFit)
    (hsoft : ∀ row ∈ soft, row.coefficients.getD 0 0 * row.rhs ≤ 0) {maxIterations : ℕ}
    (r : (above b soft).Row) : ¬(above b soft).Overlooked maxIterations r := by
  rintro (⟨hnone, -⟩ | ⟨hstart, hf, hsearch⟩)
  · rw [feasibleBasicPoint_above] at hnone
    exact absurd (Except.ok.inj hnone) (by simp)
  · obtain rfl := Except.ok.inj ((initialPoint_above _).symm.trans hstart)
    have hnone := advance_above hb hfits hsoft hf
    cases hsearch with
    | now hnow =>
      obtain ⟨-, move, t, hsome, -⟩ := hnow
      exact absurd (Except.ok.inj (hnone.symm.trans hsome)) (by simp)
    | later hsome => exact absurd (Except.ok.inj (hnone.symm.trans hsome)) (by simp)

/-- The same for a problem that is known to be of this kind. -/
theorem exists_solve_of_eq_above {p : Problem ℝ} (hp : p = above b soft) (hb : 0 ≤ b)
    (hfits : p.RowsFit) (hsoft : ∀ row ∈ p.soft, row.coefficients.getD 0 0 * row.rhs ≤ 0)
    (iterations : ℕ) : ∃ x, p.solve (iterations + 1) = .ok x ∧ x.toList = [b] ∧
      ∀ r, ¬p.Overlooked (iterations + 1) r := by
  subst hp
  exact ⟨lowest, solve_above hb hfits hsoft iterations, rfl, not_overlooked_above hb hfits hsoft⟩

end Problem

end ElasticLayout
