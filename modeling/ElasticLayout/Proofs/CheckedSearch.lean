import ElasticLayout.Proofs.CheckedStart

/-!
# The checked search

The active-set method with checks: of the difference of columns that spans the null space, of the
number of independent rows, and of the rows laid into arrays.  Where the rows fit, all accesses
exist, from whatever state an iteration sets out.

* `Checked.objective`, `Checked.objective_eq` -- the objective;
* `Checked.descent`, `Checked.matches_descent` -- the step;
* `Checked.multipliers`, `Checked.matches_multipliers` -- the multipliers;
* `Checked.advance`, `Checked.matches_advance` -- one iteration;
* `Checked.iterate`, `Checked.matches_iterate` -- all iterations, by induction on their number;
* `Checked.solveProblem`, `Checked.matches_solveProblem` -- a start, and the optimum reached from
  it.
-/

namespace ElasticLayout

open Linear

variable {α : Type} [Scalar α]

namespace Checked

/-! ### Steps and multipliers -/

variable {k n : ℕ}

/-- The step on the null space, which must not have more rows than columns. -/
def descent (f : Objective n α) (a : Dense k n α) (gradient : Vector α n) :
    Checked (Vector α n) :=
  if k = n then return Vector.replicate n 0
  else do
    let factors ← factor a.transpose
    need (k ≤ n)
    let z := factors.q.columnsFrom k
    let rhs := (z.transpose.mulVec gradient).map (-·)
    let coordinates ← solve (z.transpose.mul (f.quadratic.mul z)) rhs
    return z.mulVec coordinates

/-- The coefficients of the gradient over the rows. -/
def multipliers (a : Dense k n α) (gradient : Vector α n) : Checked (Vector α k) := do
  let columns := a.transpose
  let kept ← found (independentRows columns)
  if h : k = kept.length then
    solve (Vector.ofFn fun i => columns.get (kept.get (i.cast h)))
      (Vector.ofFn fun i => gradient.get (kept.get (i.cast h)))
  else throw (.lagrangeRankMismatch kept.length k)

/-- All accesses of a step exist: an array that is factored is not wider than it is high. -/
theorem matches_descent (f : Objective n α) (a : Dense k n α) (gradient : Vector α n) :
    (descent f a gradient).Matches (ElasticLayout.descent f a gradient) := by
  unfold descent ElasticLayout.descent
  split
  · exact .pure _
  · refine (matches_factor a.transpose).bind fun factors hfactors => ?_
    rw [need_bind (le_of_factor_ok hfactors)]
    exact (matches_solve _ _).bind fun coordinates _ => .pure _

theorem matches_multipliers (a : Dense k n α) (gradient : Vector α n) :
    (multipliers a gradient).Matches (ElasticLayout.multipliers a gradient) := by
  unfold multipliers ElasticLayout.multipliers
  dsimp only
  rw [found_bind (independentRows_eq a.transpose)]
  split
  · exact matches_solve _ _
  · exact .throw (by simp)

/-! ### Iterations -/

variable {p : Problem α}

/-- The objective; there has to be a target for each soft row. -/
def objective (p : Problem α) : Option (Objective p.variableCount α) :=
  if p.weightedTargets.length = p.weightedRows.length then p.objective? else none

/-- One iteration; none, in the end, if the point is optimal. -/
def advance (p : Problem α) (f : Objective p.variableCount α) (s : Problem.State p) :
    Checked (Option (Problem.Move p × Problem.State p)) := do
  let rows ← found (p.workingArray? s.working)
  let kept ← found (independentRows rows)
  let a := rows.selectRows kept
  let gradient := f.gradient s.point
  let step ← descent f a gradient
  if step.all (Scalar.near · 0) then do
    let prices ← multipliers a gradient
    match p.leastMultiplier s.working (kept.zip prices.toList) with
    | (least, some place) =>
      if Scalar.near least 0 then return none
      else return some (.drop (s.working.get place) least,
        { s with working := s.working.eraseIdx place })
    | (_, none) => return none
  else
    let (fraction, blocking) := p.stepLength s.point step s.working
    let point := s.point.zipWith (fun x d => x + fraction * d) step
    match blocking with
    | some row => return some (.block row fraction, ⟨point, s.working ++ [row]⟩)
    | none => return some (.full, ⟨point, s.working⟩)

/-- Iterate until the point is optimal, at most a number of times. -/
def iterate (p : Problem α) (f : Objective p.variableCount α) (limit : ℕ) :
    ℕ → Problem.State p → Checked p.Point
  | 0, _ => throw (.iterationLimit limit)
  | iterations + 1, s => do
    match ← advance p f s with
    | none => return s.point
    | some (_, next) => iterate p f limit iterations next

/-- The optimum reached from a feasible point by at most a number of iterations. -/
def optimize (p : Problem α) (start : p.Point) (maxIterations : ℕ) : Checked p.Point := do
  let f ← found (objective p)
  iterate p f maxIterations maxIterations (p.startAt start)

/-- Solve a problem. -/
def solveProblem (p : Problem α) (maxIterations : ℕ) : Checked p.Point :=
  if p.rowCount < p.variableCount then throw (.tooManyVariables p.variableCount p.rowCount)
  else do
    let start ← initialPoint p maxIterations
    optimize p start maxIterations

theorem objective_eq (hfits : p.RowsFit) :
    ∃ f, objective p = some f ∧ p.objective? = some f := by
  obtain ⟨w, -, hf⟩ := Problem.exists_objective? hfits
  have hlength : p.weightedTargets.length = p.weightedRows.length := by
    simp [Problem.weightedTargets, Problem.weightedRows]
  exact ⟨_, (if_pos hlength).trans hf, hf⟩

/-- **Where the rows fit, all accesses of an iteration exist**, whatever its state. -/
theorem matches_advance (hfits : p.RowsFit) (f : Objective p.variableCount α)
    (s : Problem.State p) : (advance p f s).Matches (p.advance f s) := by
  obtain ⟨rows, hrows, -⟩ := Problem.exists_workingArray? hfits s.working
  unfold advance Problem.advance
  dsimp only
  rw [found_bind hrows, hrows]
  dsimp only
  rw [found_bind (independentRows_eq rows)]
  refine (matches_descent _ _ _).bind fun step _ => ?_
  split
  · refine (matches_multipliers _ _).bind fun prices _ => ?_
    generalize p.leastMultiplier s.working ((Linear.independentRows rows).zip prices.toList)
      = result
    obtain ⟨least, place⟩ := result
    cases place with
    | none => exact .pure _
    | some place =>
      dsimp only
      split <;> exact .pure _
  · generalize p.stepLength s.point step s.working = result
    obtain ⟨fraction, blocking⟩ := result
    cases blocking with
    | none => exact .pure _
    | some row => exact .pure _

/-- **Where the rows fit, all accesses of a search exist.** -/
theorem matches_iterate (hfits : p.RowsFit) (f : Objective p.variableCount α)
    (limit iterations : ℕ) (s : Problem.State p) :
    (iterate p f limit iterations s).Matches (p.iterate f limit iterations s) := by
  induction iterations generalizing s with
  | zero => exact .throw (by simp)
  | succ iterations ih =>
    have hiterate : p.iterate f limit (iterations + 1) s = (do
        match ← p.advance f s with
        | none => return s.point
        | some (_, next) => p.iterate f limit iterations next) := by
      conv_lhs => unfold Problem.iterate
      cases p.advance f s with
      | error e => rfl
      | ok outcome =>
        cases outcome with
        | none => rfl
        | some result => rfl
    unfold iterate
    rw [hiterate]
    refine (matches_advance hfits f s).bind fun outcome _ => ?_
    cases outcome with
    | none => exact .pure _
    | some result => exact ih _

theorem matches_optimize (hfits : p.RowsFit) (start : p.Point) (maxIterations : ℕ) :
    (optimize p start maxIterations).Matches (p.optimize start maxIterations) := by
  obtain ⟨f, hchecked, hf⟩ := objective_eq hfits
  unfold optimize Problem.optimize
  rw [found_bind hchecked, hf]
  exact matches_iterate hfits f _ _ _

/-- **Where the rows fit, all accesses of a solve exist.** -/
theorem matches_solveProblem (hfits : p.RowsFit) (maxIterations : ℕ) :
    (solveProblem p maxIterations).Matches (p.solve maxIterations) := by
  unfold solveProblem Problem.solve
  split
  · exact .throw (by simp)
  · exact (matches_initialPoint hfits maxIterations).bind fun start _ =>
      matches_optimize hfits start maxIterations

end Checked

end ElasticLayout
