import ElasticLayout.Proofs.Optimality
import ElasticLayout.Proofs.StrictConvexity

/-!
# Steps that lead down

In exact arithmetic the step of the search is the best one among those that keep the values of the
kept rows.  Along it the objective is a parabola whose vertex is the whole step, so that it does not
rise on the way there: neither a blocked step nor a full one makes a point worse, and the points of
a search are ordered by their objective.

* `exists_combination_of_descent` -- the slope at a step is a combination of the kept rows;
* `sum_step_mul_slope` -- along the step itself the slope vanishes, whatever the rows;
* `Problem.advance_raised`, `Problem.optimize_raised` -- a search whose first step is blocked;
* `Problem.descent_minimizes` -- a step is the best one in the null space of independent rows;
* `Problem.value_advance_le` -- an iteration does not raise the objective;
* `Problem.trail`, `Problem.search_never_ascends` -- nor does a search.
-/

namespace ElasticLayout

open Linear

variable {k n : ℕ} {f : Objective n ℝ} {a : Dense k n ℝ} {gradient step : Vector ℝ n}

/-! ### The slope at a step -/

/-- **The slope at a step on the null space of independent rows is a combination of the rows.** -/
theorem exists_combination_of_descent (ha : a.IndependentRows)
    (h : descent f a gradient = .ok step) :
    ∃ c : Fin k → ℝ, ∀ j,
      ∑ i, a.entry i j * c i = ((f.around gradient).gradient step).get j := by
  by_cases hk : k = n
  · -- As many independent rows as there are columns combine to everything.
    subst hk
    have hunit : IsUnit (Matrix.of a.entry) := by
      refine isUnit_of_rows fun c hc => funext (ha c fun j => ?_)
      rw [← hc j]
      exact Finset.sum_congr rfl fun i _ => mul_comm _ _
    obtain ⟨c, hc⟩ := exists_combination hunit ((f.around gradient).gradient step).get
    refine ⟨c, fun j => ?_⟩
    rw [← hc j]
    exact Finset.sum_congr rfl fun i _ => mul_comm _ _
  · obtain ⟨factors, -, hfactors, -, hslope⟩ := descent_spec h hk
    exact exists_combination_of_rows hfactors ha hslope

/-- A vector that the rows annihilate is annihilated by the slope. -/
theorem sum_mul_slope_eq_zero (ha : a.IndependentRows) (h : descent f a gradient = .ok step)
    {q : Vector ℝ n} (hq : ∀ i, (a.mulVec q).get i = 0) :
    ∑ j, q.get j * ((f.around gradient).gradient step).get j = 0 := by
  obtain ⟨c, hc⟩ := exists_combination_of_descent ha h
  calc ∑ j, q.get j * ((f.around gradient).gradient step).get j
      = ∑ i, c i * (a.mulVec q).get i := by
        simp only [← hc, Dense.get_mulVec, Finset.mul_sum]
        rw [Finset.sum_comm]
        refine Finset.sum_congr rfl fun i _ => Finset.sum_congr rfl fun j _ => ?_
        ring
    _ = 0 := by simp only [hq, mul_zero, Finset.sum_const_zero]

/-- **Along the step itself the slope vanishes.**  This needs no independent rows: the step lies in
the columns whose coordinates the system makes zero. -/
theorem sum_step_mul_slope (h : descent f a gradient = .ok step) :
    ∑ j, step.get j * ((f.around gradient).gradient step).get j = 0 := by
  by_cases hk : k = n
  · have hzero : step = Vector.replicate n 0 := by
      unfold descent at h
      rw [if_pos hk] at h
      exact (Except.ok.inj h).symm
    refine Finset.sum_eq_zero fun j _ => ?_
    rw [hzero]
    simp [Dense.get_eq_getElem]
  · obtain ⟨factors, coordinates, -, hstep, hslope⟩ := descent_spec h hk
    calc ∑ j, step.get j * ((f.around gradient).gradient step).get j
        = ∑ l, coordinates.get l
            * (pull factors.q ((f.around gradient).gradient step)).get ⟨k + l.val, by omega⟩ := by
          conv_lhs => enter [2, j, 1]; rw [hstep]
          simp only [Dense.get_mulVec, Dense.entry_columnsFrom, get_pull, Finset.sum_mul,
            Finset.mul_sum]
          rw [Finset.sum_comm]
          refine Finset.sum_congr rfl fun l _ => Finset.sum_congr rfl fun j _ => ?_
          ring
      _ = 0 := by
          refine Finset.sum_eq_zero fun l _ => ?_
          rw [hslope _ (Nat.le_add_right k l.val), mul_zero]

/-! ### A step that is blocked -/

/-- Without kept rows the step of an objective in one variable with curvature one is the opposite
of the gradient. -/
theorem exists_descent_of_none (hk : k = 0) (hn : n = 1) (hf : ∀ i j, f.quadratic.entry i j = 1)
    (a : Dense k n ℝ) (gradient : Vector ℝ n) :
    ∃ step, descent f a gradient = .ok step ∧ ∀ j, step.get j = -gradient.get j := by
  subst hk hn
  have hrows : a.IndependentRows := fun _ _ i => i.elim0
  have hfactor : factor a.transpose = .ok ⟨Dense.identity, []⟩ := rfl
  have hsharp : SharpDescent f a gradient := by
    refine fun _ => ⟨trivial, fun factors hfactors => ?_⟩
    obtain rfl := Except.ok.inj (hfactor.symm.trans hfactors)
    refine sharpSystem_of_one rfl (fun i j => ?_) _
    rw [entry_reduced_of_none, hf]
    exact sharp_one
  have hconvex : ∀ v, v ⬝ᵥ f.quadratic.matrix.mulVec v = 0 → v = 0 := by
    intro v hv
    have hsquare : v 0 * v 0 = 0 := by
      simpa [dotProduct, Dense.matrix_mulVec, hf] using hv
    exact funext fun j => Subsingleton.elim j 0 ▸ mul_self_eq_zero.1 hsquare
  obtain ⟨step, hstep⟩ := exists_descent hsharp hrows hconvex
  refine ⟨step, hstep, fun j => ?_⟩
  have hslope := sum_mul_slope_eq_zero hrows hstep (q := #v[1]) fun i => i.elim0
  rw [Fin.sum_univ_one, Objective.get_gradient_around, Dense.get_mulVec, Fin.sum_univ_one,
    hf] at hslope
  rw [Subsingleton.elim j 0]
  have hone : (#v[1] : Vector ℝ 1).get 0 = 1 := rfl
  rw [hone] at hslope
  linarith

namespace Problem

/-- The objective of the propped variable has curvature one, and its vertex at minus one. -/
theorem objective_propped {f : Objective propped.variableCount ℝ}
    (hf : propped.objective? = some f) :
    (∀ i j, f.quadratic.entry i j = 1) ∧ ∀ j, f.linear.get j = 1 := by
  obtain ⟨w, g, hg, hw, hquadratic, hlinear⟩ := objective?_eq rowsFit_propped
  obtain rfl := Option.some.inj (hf.symm.trans hg)
  have hcell : ∀ l j, w.entry l j = 1 := by
    intro l j
    have hrow : propped.weightedRows.get l = [1 * 1] := List.mem_singleton.1 (List.get_mem _ l)
    have hj : j.val = 0 := Nat.lt_one_iff.1 j.isLt
    rw [hw, hrow, hj]
    exact one_mul 1
  refine ⟨fun i j => ?_, fun j => ?_⟩
  · rw [hquadratic]
    simp only [hcell, mul_one]
    exact Fin.sum_univ_one _
  · have htargets : propped.weightedTargets = [-1 * 1] := rfl
    have hdot : dot [-1 * 1] (w.transpose.get j).toList = -1 * 1 * 1 := by
      refine (dot_singleton (-1 * 1) (w.transpose.get j)).trans (congrArg _ ?_)
      exact (Dense.entry_transpose ..).trans (hcell _ j)
    rw [hlinear, htargets, dot_comm, hdot]
    norm_num

/-- Where the propped variable starts above its bound. -/
noncomputable def raised : propped.Point := Vector.replicate propped.variableCount 1

theorem get_raised (j : Fin propped.variableCount) : raised.get j = 1 := by
  simp [raised, Vector.get]

/-- The row does not bind there. -/
theorem startAt_raised : propped.startAt raised = ⟨raised, []⟩ := by
  have hfar : Scalar.near ((propped.row prop).signedValue raised.toList)
      (propped.row prop).signedRhs = false := by
    rw [Bool.eq_false_iff, signedValue_prop, ne_eq, Scalar.near_iff]
    show ¬|(1 : ℝ) - 1 * 0| < 1 / 1000000
    norm_num
  unfold startAt bindingRows
  congr 1
  show List.filter _ [prop] = []
  rw [List.filter_singleton, hfar]
  rfl

/-- The step from there leads to the vertex. -/
theorem exists_descent_raised {f : Objective propped.variableCount ℝ}
    (hf : propped.objective? = some f) (hk : k = 0) (a : Dense k propped.variableCount ℝ) :
    ∃ step, descent f a (f.gradient raised) = .ok step ∧ ∀ j, step.get j = -2 := by
  obtain ⟨hcurvature, hlinear⟩ := objective_propped hf
  obtain ⟨step, hstep, hopposite⟩ := exists_descent_of_none hk
    (rfl : propped.variableCount = 1) hcurvature a (f.gradient raised)
  refine ⟨step, hstep, fun j => ?_⟩
  have hone : ∑ _ : Fin propped.variableCount, (1 : ℝ) = 1 := Fin.sum_univ_one _
  rw [hopposite, Objective.get_gradient, Dense.get_mulVec, hlinear]
  simp only [hcurvature, get_raised, mul_one]
  rw [hone]
  norm_num

/-- The bound lies half-way. -/
theorem stepLength_raised {step : propped.Point} (hstep : ∀ j, step.get j = -2) :
    propped.stepLength raised step [] = (1 / 2, some prop) := by
  have hslope : (propped.row prop).signedValue step.toList = -2 :=
    (signedValue_prop step).trans (hstep _)
  have hexcess : (propped.row prop).signedRhs - (propped.row prop).signedValue raised.toList
      = -1 := by
    rw [signedValue_prop]
    show (1 : ℝ) * 0 - 1 = -1
    norm_num
  have hfar : ¬((0 : ℝ) < -2 ∨ Scalar.near (-2 : ℝ) 0 = true) := by
    rw [Scalar.near_iff]
    norm_num
  have hroom : roomFor? (propped.row prop) raised.toList step.toList = some (1 / 2) := by
    unfold roomFor?
    dsimp only
    rw [hslope, hexcess]
    refine (if_neg hfar).trans (congrArg some ?_)
    norm_num
  have hfree : (List.finRange propped.hard.length).filter (fun r =>
      !((propped.row r).isEquality || ([] : List propped.Row).contains r)) = [prop] := rfl
  unfold stepLength
  rw [hfree]
  dsimp only
  rw [List.foldl_cons, List.foldl_nil, hroom]
  dsimp only
  rw [if_pos (by norm_num), if_pos (by norm_num)]

/-- **The step from there is blocked half-way**, where the variable meets its bound. -/
theorem advance_raised {f : Objective propped.variableCount ℝ}
    (hf : propped.objective? = some f) :
    propped.advance f ⟨raised, []⟩ = .ok (some (.block prop (1 / 2),
      ⟨Vector.replicate propped.variableCount 0, [prop]⟩)) := by
  obtain ⟨rows, hrows, -⟩ := exists_workingArray? rowsFit_propped []
  obtain ⟨step, hstep, hget⟩ := exists_descent_raised hf
    (Nat.le_zero.1 (independentRows_length_le rows)) (rows.selectRows (independentRows rows))
  have hmoves : step.all (Scalar.near · 0) = false := by
    rw [Bool.eq_false_iff]
    intro hall
    have hnear : Scalar.near (step.get ⟨0, Nat.one_pos⟩) 0 = true :=
      Vector.all_eq_true.1 hall 0 Nat.one_pos
    rw [hget, Scalar.near_iff] at hnear
    norm_num at hnear
  unfold advance
  dsimp only
  rw [hrows]
  dsimp only
  rw [hstep]
  dsimp only [bind, Except.bind]
  rw [hmoves, stepLength_raised hget]
  show Except.ok (some (Move.block prop (1 / 2), (⟨_, [prop]⟩ : State propped))) = _
  congr 4
  refine vector_ext fun j => ?_
  rw [get_zipWith, hget, get_raised, Dense.get_eq_getElem, Vector.getElem_replicate]
  norm_num

/-- The search goes down to the bound and ends there. -/
theorem optimize_raised :
    propped.optimize raised 2 = .ok (Vector.replicate propped.variableCount 0) := by
  obtain ⟨f, hf, -⟩ := objective?_value rowsFit_propped
  have hnone := advance_eq_none_of_one (r := prop) rowsFit_propped rfl (one_mul 1)
    (.inr (gradient_propped hf))
  unfold optimize
  rw [hf, startAt_raised]
  dsimp only
  unfold iterate
  rw [advance_raised hf]
  dsimp only
  unfold iterate
  rw [hnone]

end Problem

/-! ### The best step -/

namespace Problem

variable {p : Problem ℝ} {f : Objective p.variableCount ℝ} {s t : State p}

/-- **A step is the best one among those that annihilate independent rows**: it annihilates them
itself, and the slope of the objective there is orthogonal to all that do. -/
theorem descent_minimizes (hf : p.objective? = some f) {a : Dense k p.variableCount ℝ}
    (ha : a.IndependentRows) {gradient step : p.Point} (h : descent f a gradient = .ok step) :
    (∀ i, (a.mulVec step).get i = 0) ∧
      (∀ q : p.Point, (∀ i, (a.mulVec q).get i = 0) →
        ∑ j, q.get j * ((f.quadratic.mulVec step).get j + gradient.get j) = 0) ∧
      ∀ q : p.Point, (∀ i, (a.mulVec q).get i = 0) →
        (f.around gradient).value step ≤ (f.around gradient).value q := by
  have hkept : ∀ i, (a.mulVec step).get i = 0 := by
    intro i
    rw [Dense.get_mulVec]
    exact descent_orthogonal h i
  have hslope : ∀ q : p.Point, (∀ i, (a.mulVec q).get i = 0) →
      ∑ j, q.get j * ((f.around gradient).gradient step).get j = 0 :=
    fun q hq => sum_mul_slope_eq_zero ha h hq
  refine ⟨hkept, fun q hq => ?_, fun q hq => ?_⟩
  · simpa only [Objective.get_gradient_around] using hslope q hq
  · obtain ⟨w, hw⟩ := exists_gram hf
    have hflat : ∑ j, ((f.around gradient).gradient step).get j * (q.get j - step.get j) = 0 := by
      simp only [mul_sub, Finset.sum_sub_distrib, mul_comm _ (q.get _), mul_comm _ (step.get _)]
      rw [hslope q hq, hslope step hkept, sub_zero]
    have htangent := Objective.tangent_le_value (f := f.around gradient) hw step q
    rwa [hflat, add_zero] at htangent

/-- **Along the edge of the half-plane**, from its corner: the row of the edge is kept, the step in
the one direction that is left leads to two, and no step along the edge is better. -/
theorem descent_minimizes_halfPlane :
    ∃ (f : Objective 2 ℝ) (a : Dense 1 2 ℝ) (step : Vector ℝ 2), halfPlane.objective? = some f ∧
      a = #v[#v[1, 0]] ∧ a.IndependentRows ∧
      descent f a (f.gradient #v[0, 0]) = .ok step ∧ step = #v[0, 1] ∧
      ∀ q : Vector ℝ 2, q.get 0 = 0 →
        (f.around (f.gradient #v[0, 0])).value step ≤ (f.around (f.gradient #v[0, 0])).value q := by
  obtain ⟨f, hf⟩ : ∃ f : Objective 2 ℝ, halfPlane.objective? = some f :=
    (objective?_value rowsFit_halfPlane).imp fun f hf => hf.1
  obtain ⟨hquadratic, hlinear⟩ := objective_halfPlane hf
  obtain ⟨a, ha⟩ : ∃ a : Dense 1 2 ℝ, a = #v[#v[1, 0]] := ⟨_, rfl⟩
  have hfirst : ∀ i, a.entry i 0 = 1 := fun i => by rw [ha, Subsingleton.elim i 0]; rfl
  have hsecond : ∀ i, a.entry i 1 = 0 := fun i => by rw [ha, Subsingleton.elim i 0]; rfl
  have hrows : a.IndependentRows := by
    intro c hc i
    have hzero := hc 0
    rw [Fin.sum_univ_one, hfirst, one_mul] at hzero
    rwa [Subsingleton.elim i 0]
  have hcorner : f.quadratic.entry 1 1 = 2 := by
    rw [hquadratic]
    rfl
  have hsharp : SharpDescent f a (f.gradient #v[0, 0]) :=
    sharpDescent_of_edge rfl (hcorner ▸ sharp_of_le (by norm_num)) hfirst hsecond _
  obtain ⟨step, hstep⟩ := exists_descent hsharp hrows fun v =>
    eq_zero_of_curvature rowsFit_halfPlane weights_halfPlane rank_softMatrix_halfPlane hf
  -- A step is in the null space where its first coordinate vanishes.
  have hnull : ∀ (q : Vector ℝ 2) i, (a.mulVec q).get i = q.get 0 := by
    intro q i
    rw [Dense.get_mulVec, Fin.sum_univ_two, hfirst, hsecond, one_mul, zero_mul, add_zero]
  obtain ⟨hkept, hslope, hleast⟩ := descent_minimizes hf hrows hstep
  have hzero : step.get 0 = 0 := (hnull step 0).symm.trans (hkept 0)
  have hgradient : (f.gradient #v[0, 0]).get 1 = -2 := by
    rw [Objective.get_gradient, Dense.get_mulVec, Fin.sum_univ_two, hlinear, hquadratic]
    norm_num [Dense.get_eq_getElem]
  have hcurvature : (f.quadratic.mulVec step).get 1 = step.get 0 + 2 * step.get 1 := by
    rw [Dense.get_mulVec, Fin.sum_univ_two, hquadratic]
    exact congrArg (· + _) (one_mul _)
  have hone : step.get 1 = 1 := by
    have hacross : ∑ j : Fin 2, (#v[0, 1] : Vector ℝ 2).get j
        * ((f.quadratic.mulVec step).get j + (f.gradient #v[0, 0]).get j) = 0 :=
      hslope #v[0, 1] (hnull _)
    rw [Fin.sum_univ_two, show (#v[0, 1] : Vector ℝ 2).get 0 = 0 from rfl,
      show (#v[0, 1] : Vector ℝ 2).get 1 = 1 from rfl, hcurvature, hgradient, hzero] at hacross
    linarith
  refine ⟨f, a, step, hf, ha, hrows, hstep, vector_ext fun j => ?_, fun q hq =>
    hleast q fun i => (hnull q i).trans hq⟩
  fin_cases j
  · exact hzero
  · exact hone

/-! ### An iteration -/

/-- The step of a state is a step on the null space of some rows. -/
theorem exists_descent_of_stepFrom? {kept : List p.Row} {step : p.Point}
    (h : p.stepFrom? f s = some (kept, step)) :
    ∃ (k : ℕ) (a : Dense k p.variableCount ℝ), descent f a (f.gradient s.point) = .ok step := by
  obtain ⟨rows, -, h⟩ := Option.bind_eq_some_iff.1 h
  dsimp only at h
  split at h
  · rename_i d hd
    obtain ⟨-, rfl⟩ := Prod.mk.inj (Option.some.inj h)
    exact ⟨_, _, hd⟩
  · exact absurd h (by simp)

/-- **A part of a step does not raise the objective.**  The slope against the step is the curvature
along it. -/
theorem value_move_le (hf : p.objective? = some f) {a : Dense k p.variableCount ℝ}
    {x step : p.Point} (h : descent f a (f.gradient x) = .ok step) {c : ℝ} (hc : 0 ≤ c)
    (hc' : c ≤ 1) : f.value (x.zipWith (fun x d => x + c * d) step) ≤ f.value x := by
  obtain ⟨w, hw⟩ := exists_gram hf
  obtain ⟨curvature, hcurvature⟩ : ∃ curvature, curvature = ∑ l, (w.mulVec step).get l ^ 2 :=
    ⟨_, rfl⟩
  have hnonneg : 0 ≤ curvature := hcurvature ▸ Finset.sum_nonneg fun l _ => sq_nonneg _
  have hslope : ∑ j, (f.gradient x).get j * step.get j = -curvature := by
    have hzero := sum_step_mul_slope h
    have hsquare := Objective.sum_mulVec_quadratic hw step step
    simp only [Objective.get_gradient_around, mul_comm (step.get _), add_mul,
      Finset.sum_add_distrib] at hzero
    simp only [← sq] at hsquare
    linarith
  rw [Objective.value_move hw, hslope, ← hcurvature]
  have hless : c ^ 2 / 2 * curvature ≤ c * curvature :=
    mul_le_mul_of_nonneg_right (by nlinarith) hnonneg
  linarith

/-- **An iteration does not raise the objective.** -/
theorem value_advance_le (hf : p.objective? = some f) {move : Move p}
    (h : p.advance f s = .ok (some (move, t))) : f.value t.point ≤ f.value s.point := by
  obtain ⟨kept, step, hstep, ⟨hpoint, -⟩ | ⟨hpoint, -⟩⟩ := advance_ok h
  · rw [hpoint]
  · obtain ⟨k, a, hdescent⟩ := exists_descent_of_stepFrom? hstep
    rw [hpoint]
    exact value_move_le hf hdescent (stepLength_nonneg ..) (stepLength_le_one ..)

/-! ### A search -/

/-- The states in which the iterations of a search begin, and the one in which it stops. -/
noncomputable def trail (p : Problem ℝ) (f : Objective p.variableCount ℝ) :
    ℕ → State p → List (State p)
  | 0, s => [s]
  | iterations + 1, s =>
    match p.advance f s with
    | .ok (some (_, next)) => s :: trail p f iterations next
    | _ => [s]

theorem exists_trail_eq_cons (iterations : ℕ) (s : State p) :
    ∃ later, p.trail f iterations s = s :: later := by
  cases iterations with
  | zero => exact ⟨[], rfl⟩
  | succ iterations =>
    unfold trail
    split
    · exact ⟨_, rfl⟩
    · exact ⟨[], rfl⟩

/-- The state in which a search finds its point is one of its states. -/
theorem mem_trail_of_finalState? {iterations : ℕ} (h : p.finalState? f iterations s = some t) :
    t ∈ p.trail f iterations s := by
  induction iterations generalizing s with
  | zero => exact absurd h (by simp [finalState?])
  | succ iterations ih =>
    unfold finalState? at h
    unfold trail
    cases hadvance : p.advance f s with
    | error e => simp [hadvance] at h
    | ok outcome =>
      rw [hadvance] at h
      cases outcome with
      | none =>
        obtain rfl := Option.some.inj h
        exact List.mem_singleton_self s
      | some result => exact List.mem_cons_of_mem _ (ih h)

/-- **The states of a search are ordered by their objective.**  Each one is no worse than the state
after it starts from, so by transitivity than all before it. -/
theorem pairwise_trail (hf : p.objective? = some f) (iterations : ℕ) (s : State p) :
    (p.trail f iterations s).Pairwise fun s t => f.value t.point ≤ f.value s.point := by
  induction iterations generalizing s with
  | zero => exact List.pairwise_singleton ..
  | succ iterations ih =>
    unfold trail
    split
    · rename_i move next hadvance
      have hle := value_advance_le hf hadvance
      have hlater := ih next
      refine List.pairwise_cons.2 ⟨fun t ht => ?_, hlater⟩
      obtain ⟨later, hcons⟩ := exists_trail_eq_cons (f := f) iterations next
      rw [hcons] at ht hlater
      obtain rfl | ht := List.mem_cons.1 ht
      · exact hle
      · exact ((List.pairwise_cons.1 hlater).1 t ht).trans hle
    · exact List.pairwise_singleton ..

/-- **A search never ascends**: no iteration raises the objective, whatever the point and the
working set, and the point that is returned is no worse than the one it started from. -/
theorem search_never_ascends (hfits : p.RowsFit) (start : p.Point) (maxIterations : ℕ) :
    ∃ f, p.objective? = some f ∧
      (∀ s t move, p.advance f s = .ok (some (move, t)) → f.value t.point ≤ f.value s.point) ∧
      (p.trail f maxIterations (p.startAt start)).Pairwise
        (fun s t => f.value t.point ≤ f.value s.point) ∧
      ∀ x, p.optimize start maxIterations = .ok x →
        (∃ s ∈ p.trail f maxIterations (p.startAt start), s.point = x) ∧
          f.value x ≤ f.value start := by
  obtain ⟨f, hf, -⟩ := objective?_value hfits
  have hpairwise := pairwise_trail hf maxIterations (p.startAt start)
  refine ⟨f, hf, fun s t move => value_advance_le hf, hpairwise, fun x hx => ?_⟩
  unfold optimize at hx
  rw [hf] at hx
  obtain ⟨t, ht, rfl⟩ := iterate_eq_ok_iff.1 hx
  have hmem := mem_trail_of_finalState? ht
  refine ⟨⟨t, hmem, rfl⟩, ?_⟩
  obtain ⟨later, hcons⟩ := exists_trail_eq_cons (f := f) maxIterations (p.startAt start)
  rw [hcons] at hmem hpairwise
  obtain rfl | hmem := List.mem_cons.1 hmem
  · exact le_rfl
  · exact (List.pairwise_cons.1 hpairwise).1 t hmem

/-- A search whose first step is blocked. -/
theorem search_never_ascends_propped : propped.RowsFit ∧
    propped.optimize raised 2 = .ok (Vector.replicate propped.variableCount 0) ∧
    ∃ f, propped.objective? = some f ∧
      f.value (Vector.replicate propped.variableCount 0) ≤ f.value raised := by
  obtain ⟨f, hf, -, -, hend⟩ := search_never_ascends rowsFit_propped raised 2
  exact ⟨rowsFit_propped, optimize_raised, f, hf, (hend _ optimize_raised).2⟩

end Problem

end ElasticLayout
