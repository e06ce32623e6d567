import ElasticLayout.Proofs.Feasibility
import ElasticLayout.Proofs.SharpTests
import ElasticLayout.Proofs.StrictConvexity

/-!
# Problems with one feasible point

Where the hard rows leave one point, the rows that bind there fix it.  Without soft rows the solver
returns this point, or it reaches its limit, if no number that the run tests counts as zero without
being zero, and the rows that pass the check of the basic point hold there.

* `Problem.eq_zero_of_binding` -- the binding rows fix a unique point;
* `Problem.advance_of_fixed` -- a point that the working rows fix is optimal without an objective;
* `Problem.solve_of_unique` -- the outcome;
* `filled`, `Problem.solve_of_unique_filled` -- a problem that is solved;
* `thin`, `Problem.unique_may_fail` -- problems that are not solved.
-/

namespace ElasticLayout

open Linear Matrix

namespace Problem

variable {p : Problem ℝ} {f : Objective p.variableCount ℝ} {x : p.Point}

/-! ### The binding rows -/

/-- Some positive multiple of slopes keeps non-negative numbers non-negative, if the slopes are not
negative where the numbers are zero. -/
theorem exists_small_step {ι : Type} [Fintype ι] {room slope : ι → ℝ} (hroom : ∀ i, 0 ≤ room i)
    (hslope : ∀ i, room i = 0 → slope i = 0) : ∃ a, 0 < a ∧ ∀ i, 0 ≤ room i + a * slope i := by
  obtain ⟨bound, hbound⟩ : ∃ bound, bound = ∑ i, |slope i| / room i := ⟨_, rfl⟩
  have hnonneg : ∀ i, 0 ≤ |slope i| / room i := fun i => div_nonneg (abs_nonneg _) (hroom i)
  have hpos : 0 < 1 + bound := by
    have hsum : 0 ≤ bound := hbound ▸ Finset.sum_nonneg fun i _ => hnonneg i
    linarith
  refine ⟨1 / (1 + bound), one_div_pos.2 hpos, fun i => ?_⟩
  obtain hzero | hi := (hroom i).eq_or_lt
  · rw [hslope i hzero.symm, mul_zero, add_zero, ← hzero]
  · have hle : |slope i| / room i ≤ 1 + bound := by
      have hterm := Finset.single_le_sum (fun j _ => hnonneg j) (Finset.mem_univ i)
      rw [← hbound] at hterm
      linarith
    rw [div_le_iff₀ hi] at hle
    have hstep : 1 / (1 + bound) * |slope i| ≤ room i := by
      rw [one_div_mul_eq_div, div_le_iff₀ hpos]
      linarith
    have hlow := mul_le_mul_of_nonneg_left (neg_abs_le (slope i)) (one_div_pos.2 hpos).le
    linarith

/-- **The rows that bind at a unique feasible point fix it**: no direction keeps all of them. -/
theorem eq_zero_of_binding (hx : p.Holds x) (hunique : ∀ y, p.Holds y → y = x) {v : p.Point}
    (hv : ∀ r, (p.row r).excess x.toList = 0 → (p.row r).signedValue v.toList = 0)
    (j : Fin p.variableCount) : v.get j = 0 := by
  have hrows := holds_iff.1 hx
  have hroom : ∀ r, 0 ≤ (p.row r).excess x.toList := by
    intro r
    have hrow := hrows r
    split at hrow
    · exact hrow.ge
    · exact hrow
  obtain ⟨a, ha, hstep⟩ := exists_small_step hroom hv
  have hmoved : p.Holds (x.zipWith (fun x d => x + a * d) v) := by
    refine holds_iff.2 fun r => ?_
    have hrow := hrows r
    rw [HardRow.excess_move]
    split at hrow
    · rw [if_pos ‹_›, hv r hrow, hrow, mul_zero, add_zero]
    · rw [if_neg ‹_›]
      exact hstep r
  have hsame := congrArg (fun y => Vector.get y j) (hunique _ hmoved)
  have hcell : x.get j + a * v.get j = x.get j := by
    simpa [Dense.get_eq_getElem] using hsame
  exact (mul_eq_zero.1 (by linarith : a * v.get j = 0)).resolve_left ha.ne'

/-- A unique feasible point needs as many hard rows as there are columns. -/
theorem le_length_of_unique (hx : p.Holds x) (hunique : ∀ y, p.Holds y → y = x) :
    p.variableCount ≤ p.hard.length := by
  obtain ⟨a, ha⟩ : ∃ a : Matrix (Fin p.hard.length) (Fin p.variableCount) ℝ,
      a = .of fun r j => if (p.row r).excess x.toList = 0
        then (p.signedCoefficients r).getD j 0 else 0 := ⟨_, rfl⟩
  refine le_of_mulVec_injective (a := a) fun v hv => funext fun j => ?_
  have hzero := eq_zero_of_binding hx hunique (v := Vector.ofFn v) (fun r hr => ?_) j
  · rwa [get_ofFn] at hzero
  · have hcell : ∀ j, a r j = (p.signedCoefficients r).getD j 0 := by
      intro j
      rw [ha]
      exact if_pos hr
    have hrow : ∑ j, a r j * v j = 0 := congrFun hv r
    simp only [hcell] at hrow
    rw [← dot_signedCoefficients, dot_getD]
    simpa only [get_ofFn] using hrow

/-! ### The search -/

/-- Without soft rows the objective is flat. -/
theorem gradient_eq_zero (hfits : p.RowsFit) (hsoft : p.soft = []) (hf : p.objective? = some f)
    (y : p.Point) (j : Fin p.variableCount) : (f.gradient y).get j = 0 := by
  obtain ⟨w, g, hg, -, hquadratic, hlinear⟩ := objective?_eq hfits
  obtain rfl := Option.some.inj (hf.symm.trans hg)
  have hempty : IsEmpty (Fin p.weightedRows.length) := by
    unfold weightedRows
    rw [hsoft]
    exact Fin.isEmpty
  have htargets : p.weightedTargets = [] := by
    unfold weightedTargets
    rw [hsoft]
    rfl
  rw [Objective.get_gradient, Objective.get_mulVec_quadratic hquadratic, Finset.univ_eq_empty,
    Finset.sum_empty, hlinear, htargets, dot_comm, dot_eq]
  simp

/-- **A point that the working rows fix is optimal** where the objective is flat. -/
theorem advance_of_fixed {s : State p} (hsharp : p.SharpStep f s)
    {rows : Dense s.working.length p.variableCount ℝ}
    (hrows : p.workingArray? s.working = some rows)
    (hfixed : ∀ v, rows.matrix *ᵥ v = 0 → v = 0) (hflat : ∀ j, (f.gradient s.point).get j = 0) :
    p.advance f s = .ok none := by
  obtain ⟨hrank, -, hmultipliers⟩ := hsharp rows hrows
  have hstep : descent f (rows.selectRows (independentRows rows)) (f.gradient s.point)
      = .ok (Vector.replicate p.variableCount 0) := if_pos (length_independentRows_eq hrank hfixed)
  have hzero : (Vector.replicate p.variableCount (0 : ℝ)).all (Scalar.near · 0) = true := by
    simp
  obtain ⟨prices, hprices⟩ := exists_multipliers (hmultipliers _ hstep hzero)
    (independentRows_working rows)
  have hprice : ∀ i, prices.get i = 0 := fun i =>
    ((multipliers_spec hprices).2.1 0 (fun j => by simp [hflat]) i).symm
  have hleast : p.leastMultiplier s.working ((independentRows rows).zip prices.toList)
      = (0, none) := by
    refine leastMultiplier_of_nonneg fun q hq => .inr ?_
    obtain ⟨i, hi, hget⟩ := List.mem_iff_getElem.1 (List.of_mem_zip hq).2
    rw [← hget]
    exact (hprice ⟨i, by simpa using hi⟩).ge
  exact advance_of_optimal hrows hstep hzero hprices hleast

/-- The working rows at a unique feasible point fix it. -/
theorem eq_zero_of_workingArray? (hfits : p.RowsFit) (hx : p.Holds x)
    (hunique : ∀ y, p.Holds y → y = x)
    {rows : Dense (p.bindingRows x).length p.variableCount ℝ}
    (hrows : p.workingArray? (p.bindingRows x) = some rows) {v : Fin p.variableCount → ℝ}
    (hv : rows.matrix *ᵥ v = 0) : v = 0 := by
  funext j
  have hzero := eq_zero_of_binding hx hunique (v := Vector.ofFn v) (fun r hr => ?_) j
  · rwa [get_ofFn] at hzero
  · have hmem : r ∈ p.bindingRows x := by
      have hnear : Scalar.near ((p.row r).signedValue x.toList) (p.row r).signedRhs = true := by
        rw [Scalar.near_iff, show _ - _ = (0 : ℝ) from hr]
        norm_num
      exact List.mem_filter.2 ⟨List.mem_finRange r, by rw [hnear, Bool.or_true]⟩
    obtain ⟨i, rfl⟩ := List.get_of_mem hmem
    rw [← sum_workingArray? hfits hrows]
    have hi : (rows.matrix *ᵥ v) i = 0 := congrFun hv i
    rw [← hi, Dense.matrix_mulVec]
    simp only [get_ofFn]

/-! ### The outcome -/

/-- **The unique feasible point is returned** where the run is sharp, unless it reaches the
limit. -/
theorem solve_of_unique (hfits : p.RowsFit) (hsoft : p.soft = []) (hx : p.Holds x)
    (hunique : ∀ y, p.Holds y → y = x) {maxIterations : ℕ}
    (hbasic : ∀ y, p.basicPoint = .ok (some y) → ∀ r,
      (p.row r).isSatisfied y.toList Scalar.tolerance = true → (p.row r).Holds y.toList)
    (hsharp : p.SharpRun maxIterations) :
    p.solve maxIterations = .ok x ∨
      p.solve maxIterations = .error (.iterationLimit maxIterations) := by
  have hcount : ¬p.rowCount < p.variableCount := by
    have hle := le_length_of_unique hx hunique
    unfold rowCount
    omega
  unfold solve
  rw [if_neg hcount]
  obtain hlimit | ⟨start, hstart, hfound⟩ := initialPoint_of_holds hfits hx hsharp.simplex
  · rw [hlimit]
    exact .inr rfl
  have hholds : p.Holds start := by
    refine hfound.elim (fun hchecked row hrow => ?_) id
    obtain ⟨o, ho, hfilter⟩ := bind_ok hchecked
    obtain ⟨rfl, hfeasible⟩ := Option.filter_eq_some_iff.1 (Except.ok.inj hfilter)
    obtain ⟨r, rfl⟩ := List.get_of_mem hrow
    exact hbasic start ho r (isFeasible_iff.1 hfeasible r)
  obtain rfl := hunique start hholds
  obtain ⟨f, hf, -⟩ := objective?_value hfits
  have hsearch := hsharp.search start f hstart hf
  rw [hstart]
  show p.optimize start maxIterations = _ ∨ p.optimize start maxIterations = _
  unfold optimize
  rw [hf]
  dsimp only
  cases maxIterations with
  | zero => exact .inr rfl
  | succ iterations =>
    obtain ⟨rows, hrows, -⟩ := exists_workingArray? hfits (p.bindingRows start)
    unfold iterate
    rw [advance_of_fixed hsearch.1 hrows
      (fun v => eq_zero_of_workingArray? hfits hx hunique hrows)
      (gradient_eq_zero hfits hsoft hf start)]
    exact .inl rfl

/-- A search is sharp that starts at the unique feasible point with a sharp iteration. -/
theorem sharpSearch_of_unique (hfits : p.RowsFit) (hsoft : p.soft = []) (hx : p.Holds x)
    (hunique : ∀ y, p.Holds y → y = x) (hf : p.objective? = some f)
    (hsharp : p.SharpStep f (p.startAt x)) (iterations : ℕ) :
    p.SharpSearch f iterations (p.startAt x) := by
  cases iterations with
  | zero => exact trivial
  | succ iterations =>
    obtain ⟨rows, hrows, -⟩ := exists_workingArray? hfits (p.bindingRows x)
    have hdone : p.advance f (p.startAt x) = .ok none := advance_of_fixed hsharp hrows
      (fun v => eq_zero_of_workingArray? hfits hx hunique hrows)
      (gradient_eq_zero hfits hsoft hf x)
    refine ⟨hsharp, fun move t hsome => ?_⟩
    rw [hdone] at hsome
    exact absurd (Except.ok.inj hsome) (by simp)

end Problem

/-! ### Two extents that fill a third one -/

/-- Two extents that fill eight; the first one is between five and seven, and the second one is at
least three. -/
def filled : Problem ℚ where
  variableCount := 2
  hard := [⟨[1, 1], .eq, 8⟩, ⟨[1], .ge, 5⟩, ⟨[0, 1], .ge, 3⟩, ⟨[1], .le, 7⟩]
  soft := []

namespace Problem

/-- The only point. -/
def filledPoint : filled.toReal.Point := filled.realPoint #v[5, 3]

theorem rowsFit_filled : filled.toReal.RowsFit := by
  constructor
  · show ∀ row ∈ filled.hard.map HardRow.toReal, row.coefficients.length ≤ 2
    simp [filled, HardRow.toReal]
  · exact fun _ hrow => absurd hrow List.not_mem_nil

theorem holds_filled_iff {y : filled.toReal.Point} :
    filled.toReal.Holds y ↔ y = filledPoint := by
  obtain ⟨v, hv⟩ : ∃ v : Vector ℝ 2, v = y := ⟨y, rfl⟩
  have hdot : ∀ cs : List ℝ, dot cs v.toList = cs.getD 0 0 * v.get 0 + cs.getD 1 0 * v.get 1 :=
    fun cs => (dot_getD cs v).trans (Fin.sum_univ_two _)
  have hrows : filled.toReal.Holds y ↔ v.get 0 + v.get 1 = 8 ∧ 5 ≤ v.get 0 ∧ 3 ≤ v.get 1 ∧
      v.get 0 ≤ 7 := by
    rw [← hv]
    show (∀ row ∈ filled.hard.map HardRow.toReal, row.relation.Holds (dot row.coefficients v.toList)
      row.rhs) ↔ _
    simp [filled, HardRow.toReal, hdot, Relation.Holds]
  have hfilled : filledPoint.get (0 : Fin 2) = 5 ∧ filledPoint.get (1 : Fin 2) = 3 :=
    ⟨(get_map ..).trans (Rat.cast_ofNat 5), (get_map ..).trans (Rat.cast_ofNat 3)⟩
  have hpoint : y = filledPoint ↔ v.get 0 = 5 ∧ v.get 1 = 3 := by
    rw [← hv]
    constructor
    · rintro rfl
      exact hfilled
    · rintro ⟨hfirst, hsecond⟩
      refine vector_ext (n := 2) fun j => ?_
      fin_cases j
      · exact hfirst.trans hfilled.1.symm
      · exact hsecond.trans hfilled.2.symm
  rw [hrows, hpoint]
  constructor
  · rintro ⟨hsum, hfirst, hsecond, -⟩
    constructor <;> linarith
  · rintro ⟨hfirst, hsecond⟩
    rw [hfirst, hsecond]
    norm_num

theorem basicPoint_filled : filled.basicPoint = .ok (some #v[7, 1]) := by decide +kernel

theorem initialPoint_filled : filled.initialPoint 5 = .ok #v[5, 3] := by decide +kernel

/-- The basic point does not pass the check, and the rows that it does meet hold exactly. -/
theorem holds_basicPoint_filled {y : filled.toReal.Point}
    (hy : filled.toReal.basicPoint = .ok (some y)) (r : filled.toReal.Row)
    (hr : (filled.toReal.row r).isSatisfied y.toList Scalar.tolerance = true) :
    (filled.toReal.row r).Holds y.toList := by
  have hrows : ∀ r : filled.Row, (filled.row r).isSatisfied [7, 1] Scalar.tolerance = true →
      if (filled.row r).isEquality then (filled.row r).signedValue [7, 1] = (filled.row r).signedRhs
        else (filled.row r).signedRhs ≤ (filled.row r).signedValue [7, 1] := by
    decide +kernel
  rw [basicPoint_toReal, basicPoint_filled] at hy
  obtain rfl := Option.some.inj (Except.ok.inj hy)
  have hcoordinates : (filled.realPoint #v[7, 1]).toList = [7, 1].map ((↑) : ℚ → ℝ) :=
    filled.toList_realPoint _
  rw [row_toReal, hcoordinates] at hr ⊢
  rw [Scalar.tolerance_cast, HardRow.isSatisfied_toReal] at hr
  exact (HardRow.holds_toReal_iff ..).2 (hrows _ hr)

/-- The rows that bind at the only point, of which two are kept. -/
def filledRows : Dense 3 2 ℚ := #v[#v[1, 1], #v[1, 0], #v[0, 1]]

theorem startAt_filled : filled.toReal.startAt filledPoint
    = ⟨filledPoint, [(0 : Fin 4), (1 : Fin 4), (2 : Fin 4)]⟩ := by
  have hrational : (filled.bindingRows #v[5, 3]).map Fin.val = [0, 1, 2] := by decide +kernel
  have hbinding : filled.toReal.bindingRows filledPoint
      = [(0 : Fin 4), (1 : Fin 4), (2 : Fin 4)] :=
    List.map_injective_iff.2 Fin.val_injective ((filled.bindingRows_toReal _).trans hrational)
  exact congrArg (State.mk _) hbinding

theorem sharpStep_filled {f : Objective filled.toReal.variableCount ℝ}
    (hf : filled.toReal.objective? = some f) :
    filled.toReal.SharpStep f (filled.toReal.startAt filledPoint) := by
  obtain ⟨rows, hrows, hcells⟩ := exists_workingArray? rowsFit_filled
    ([(0 : Fin 4), (1 : Fin 4), (2 : Fin 4)] : List filled.toReal.Row)
  have hrational : rows = filledRows.toReal := by
    refine Dense.toReal_eq_of_entry (m := 3) (n := 2) fun i j => (hcells i j).trans ?_
    fin_cases i <;> fin_cases j
    all_goals first | exact one_mul _ | exact Rat.cast_zero.symm
  rw [hrational] at hrows
  rw [startAt_filled]
  exact sharpStep_of_corner hrows (gradient_eq_zero rowsFit_filled rfl hf _) (by decide +kernel)
    (by decide +kernel) (by decide +kernel)

theorem sharpRun_filled : filled.toReal.SharpRun 5 where
  simplex := by
    intro _ first hfirst
    obtain ⟨t, ht⟩ := Option.isSome_iff_exists.1 (by decide +kernel : filled.tableau?.isSome = true)
    have hsharp : (filled.tableau?.all fun t => Tableau.sharpTests 5 t) = true := by decide +kernel
    rw [ht] at hsharp
    exact sharpPivots_toReal ht hsharp hfirst
  search := by
    intro start f hstart hf
    rw [initialPoint_toReal, initialPoint_filled] at hstart
    obtain rfl := Except.ok.inj hstart
    exact sharpSearch_of_unique rowsFit_filled rfl (holds_filled_iff.2 rfl)
      (fun _ => holds_filled_iff.1) hf (sharpStep_filled hf) 5

/-- The basic point is not feasible, and the simplex method finds the only point. -/
theorem solve_of_unique_filled : filled.toReal.RowsFit ∧ filled.toReal.soft = [] ∧
    filled.toReal.Holds filledPoint ∧
    (∀ y, filled.toReal.Holds y → y = filledPoint) ∧
    (∀ y, filled.toReal.basicPoint = .ok (some y) → ∀ r,
      (filled.toReal.row r).isSatisfied y.toList Scalar.tolerance = true →
        (filled.toReal.row r).Holds y.toList) ∧
    filled.toReal.SharpRun 5 ∧
    (filled.toReal.solve 5 = .ok filledPoint ∨
      filled.toReal.solve 5 = .error (.iterationLimit 5)) := by
  have hholds : filled.toReal.Holds filledPoint := holds_filled_iff.2 rfl
  have hunique : ∀ y, filled.toReal.Holds y → y = filledPoint := fun _ => holds_filled_iff.1
  have hbasic := fun y (hy : filled.toReal.basicPoint = .ok (some y)) r =>
    holds_basicPoint_filled hy r
  exact ⟨rowsFit_filled, rfl, hholds, hunique, hbasic, sharpRun_filled,
    solve_of_unique rowsFit_filled rfl hholds hunique hbasic sharpRun_filled⟩

end Problem

/-! ### A thin row -/

namespace Linear

/-- Where all entries count as zero, no row is independent. -/
theorem independentRows_of_near {m n : ℕ} {a : Dense m n ℝ}
    (ha : ∀ i j, |a.entry i j| < 1 / 1000000) : independentRows a = [] := by
  have hstep : ∀ column, (Reduction.ofDense a).step column = .ofDense a := by
    intro column
    unfold Reduction.step
    split
    · rfl
    · rename_i p others _
      exact if_pos (Scalar.near_abs_iff.2 (ha p column))
  have hreduced : reduceRows a = .ofDense a :=
    List.foldlRecOn (motive := fun s => s = Reduction.ofDense a) _ _ rfl
      fun s hs column _ => by rw [hs, hstep]
  refine List.eq_nil_iff_forall_not_mem.2 fun r hr => ?_
  rw [mem_independentRows, hreduced] at hr
  exact absurd hr List.not_mem_nil

end Linear

namespace EquationSystem

variable {R C : ℕ} {s : EquationSystem R C ℝ}

/-- Without active rows there is nothing to eliminate, and the basic solution is zero. -/
theorem gaussJordan_of_no_rows (h : s.rows = 0) (length : ℕ) :
    s.gaussJordan = (s, true) ∧ s.basicSolution length = Vector.replicate length 0 := by
  have hactive : s.activeRows = [] := by
    unfold activeRows
    rw [h]
    simp
  constructor
  · unfold gaussJordan gaussianElimination
    rw [hactive]
    unfold eliminateDown
    dsimp only
    rw [hactive]
    rfl
  · unfold basicSolution
    rw [h, Nat.zero_min]
    simp

end EquationSystem

/-- One variable, and an equality that gives it a value through a coefficient. -/
noncomputable def thin (c b : ℝ) : Problem ℝ where
  variableCount := 1
  hard := [⟨[c], .eq, c * b⟩]
  soft := []

namespace Problem

variable {c b : ℝ}

theorem isFull_thin : (thin c b).IsFull where
  hard := fun row hrow => by rw [List.mem_singleton.1 hrow]; rfl
  soft := fun _ hrow => absurd hrow List.not_mem_nil

theorem excess_thin (y : (thin c b).Point) (r : (thin c b).Row) :
    ((thin c b).row r).isEquality = true ∧
      ((thin c b).row r).excess y.toList = c * (y.get (0 : Fin 1) - b) := by
  obtain rfl : r = (0 : Fin 1) := Subsingleton.elim (α := Fin 1) r 0
  have hdot : dot [c] y.toList = c * y.get (0 : Fin 1) := dot_singleton c y
  refine ⟨rfl, ?_⟩
  show 1 * dot [c] y.toList - 1 * (c * b) = _
  rw [hdot]
  ring

theorem holds_thin_iff (hc : c ≠ 0) {y : (thin c b).Point} :
    (thin c b).Holds y ↔ y = Vector.replicate 1 b := by
  have hholds : (thin c b).Holds y ↔ y.get (0 : Fin 1) = b := by
    rw [holds_iff]
    constructor
    · intro h
      obtain ⟨hequality, hexcess⟩ := excess_thin y (0 : Fin 1)
      have hrow := h (0 : Fin 1)
      rw [hequality, if_pos rfl, hexcess] at hrow
      exact sub_eq_zero.1 ((mul_eq_zero.1 hrow).resolve_left hc)
    · intro h r
      obtain ⟨hequality, hexcess⟩ := excess_thin y r
      rw [hequality, if_pos rfl, hexcess, h, sub_self, mul_zero]
  rw [hholds]
  constructor
  · intro h
    refine vector_ext fun j => ?_
    obtain rfl : j = (0 : Fin 1) := Subsingleton.elim (α := Fin 1) j 0
    exact h
  · rintro rfl
    rfl

/-- Elimination drops the row, so that the basic point is zero, which passes the check. -/
theorem feasibleBasicPoint_thin (hc : |c| < 1 / 1000000) (hb : |c * b| < 1 / 1000000) :
    (thin c b).feasibleBasicPoint
      = .ok (some (Vector.replicate (thin c b).variableCount 0)) := by
  obtain ⟨system, hsystem, hcells⟩ : ∃ system, (thin c b).slackSystem? = some system ∧
      ∀ i j, |system.activeCells.entry i j| < 1 / 1000000 := by
    refine ⟨.ofCells (Vector.ofFn fun r => (thin c b).slackedCells r _)
      (Vector.ofFn fun r => ((thin c b).row r).rhs), by unfold slackSystem?; exact if_pos rfl, ?_⟩
    show ∀ (i : Fin 1) (j : Fin 2), _
    intro i j
    fin_cases i
    fin_cases j
    · exact hc
    · show |(0 : ℝ)| < _
      norm_num
  have hrows : system.removeDependentRows.rows = 0 :=
    congrArg List.length (independentRows_of_near hcells)
  have hreduced : system.removeDependentRows.removeUnusedColumns.rows = 0 :=
    (EquationSystem.rows_dropUnused _ _ _).trans hrows
  obtain ⟨hjordan, hsolution⟩ :=
    EquationSystem.gaussJordan_of_no_rows hreduced (thin c b).variableCount
  have hbasic : (thin c b).basicPoint
      = .ok (some (Vector.replicate (thin c b).variableCount 0)) := by
    unfold basicPoint
    rw [hsystem]
    dsimp only
    rw [hjordan, hsolution]
    rfl
  have hfeasible : (thin c b).isFeasible (Vector.replicate (thin c b).variableCount 0)
      Scalar.tolerance = true := by
    refine isFeasible_iff.2 fun r => ?_
    obtain ⟨hequality, hexcess⟩ := excess_thin (Vector.replicate (thin c b).variableCount 0) r
    rw [HardRow.isSatisfied_iff, hequality, if_pos rfl, hexcess]
    show |c * (0 - b)| < _
    rwa [zero_sub, mul_neg, abs_neg]
  unfold feasibleBasicPoint
  rw [hbasic]
  show Except.ok (Option.filter _ (some _)) = _
  rw [Option.filter_some, if_pos hfeasible]

/-- A coefficient that counts as zero is not enough to find the value. -/
theorem solve_thin (hc : |c| < 1 / 1000000) (hb : |c * b| < 1 / 1000000) (iterations : ℕ) :
    (thin c b).solve (iterations + 1) = .error .singularSystem := by
  obtain ⟨start, hstart⟩ : ∃ start : (thin c b).Point,
      start = Vector.replicate (thin c b).variableCount 0 := ⟨_, rfl⟩
  have hfits : (thin c b).RowsFit := isFull_thin.rowsFit
  have hinitial : (thin c b).initialPoint (iterations + 1) = .ok start := by
    unfold initialPoint
    rw [feasibleBasicPoint_thin hc hb, hstart]
    rfl
  obtain ⟨rows, hrows, hcells⟩ := exists_workingArray? hfits ((thin c b).bindingRows start)
  obtain ⟨w, f, hf, -, hquadratic, -⟩ := objective?_eq hfits
  have hkept : independentRows rows = [] := by
    refine independentRows_of_near fun i j => ?_
    have hrow : ((thin c b).bindingRows start).get i = (0 : Fin 1) :=
      Subsingleton.elim (α := Fin 1) _ 0
    have hj : j.val = 0 := Nat.lt_one_iff.1 j.isLt
    rw [hcells, hrow, hj]
    show |1 * c| < _
    rwa [one_mul]
  have hoptimize : (thin c b).optimize start (iterations + 1) = .error .singularSystem := by
    refine optimize_of_faint rfl _ hrows (congrArg List.length hkept) hf (fun i j => ?_) iterations
    rw [hquadratic, show ∑ l, w.entry l i * w.entry l j = 0 from Fin.sum_univ_zero _, abs_zero]
    norm_num
  unfold solve
  rw [if_neg (by simp [rowCount, thin]), hinitial]
  exact hoptimize

/-- **Not every unique feasible point is returned.** -/
theorem unique_may_fail : ¬∀ (p : Problem ℝ) (maxIterations : ℕ) (x : p.Point), p.IsFull →
    p.soft = [] → p.Holds x → (∀ y, p.Holds y → y = x) →
    (∃ y, p.solve maxIterations = .ok y ∧ ∀ j, |y.get j - x.get j| < 1 / 1000000) ∨
      p.solve maxIterations = .error (.iterationLimit maxIterations) := by
  intro hall
  have hc : (1 / 10000000 : ℝ) ≠ 0 := by norm_num
  have hfails : (thin (1 / 10000000) 5).solve (9999 + 1) = .error .singularSystem :=
    solve_thin (by norm_num) (by norm_num) 9999
  obtain ⟨y, hy, -⟩ | hlimit := hall (thin (1 / 10000000) 5) 10000 _ isFull_thin rfl
    ((holds_thin_iff hc).2 rfl) fun y => (holds_thin_iff hc).1
  · exact absurd (hfails.symm.trans hy) (by simp)
  · exact absurd (hfails.symm.trans hlimit) (by simp)

end Problem

end ElasticLayout
