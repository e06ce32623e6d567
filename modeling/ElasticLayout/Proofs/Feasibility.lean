import Mathlib
import ElasticLayout.Problem.Solve
import ElasticLayout.Proofs.PhaseOne
import ElasticLayout.Proofs.SharpSystems

/-!
# When a solution keeps the hard rows

In exact arithmetic a solution keeps, within the tolerance, every hard row that was not overlooked
on the way: by the simplex method, or by an iteration of the search.  So a solution is feasible if
and only if it keeps the rows that were overlooked; and some problems have solutions without having
feasible points.

* `Problem.Overlooked` -- a row that was left behind on the way to a solution;
* `Problem.isSatisfied_solve` -- the other rows hold;
* `Problem.solve_isFeasible_iff` -- when a solution is feasible;
* `slight`, `Problem.solve_not_isFeasible` -- a solution of a problem without feasible points.
-/

namespace ElasticLayout

open Linear

namespace Problem

variable {p : Problem ℝ} {r : p.Row} {maxIterations : ℕ} {x : p.Point}

theorem isFeasible_iff {tolerance : ℝ} :
    p.isFeasible x tolerance = true ↔ ∀ r, (p.row r).isSatisfied x.toList tolerance = true := by
  unfold isFeasible
  rw [List.all_eq_true]
  constructor
  · intro h r
    exact h _ (List.get_mem ..)
  · intro h row hrow
    obtain ⟨r, rfl⟩ := List.get_of_mem hrow
    exact h r

/-- A row is overlooked if the simplex method that finds the start leaves it behind, or an iteration
of the search from the start does. -/
inductive Overlooked (p : Problem ℝ) (maxIterations : ℕ) (r : p.Row) : Prop where
  | start : p.feasibleBasicPoint = .ok none → p.StartOverlooks maxIterations r →
    Overlooked p maxIterations r
  | search {start : p.Point} {f : Objective p.variableCount ℝ} :
    p.initialPoint maxIterations = .ok start → p.objective? = some f →
    p.SearchOverlooks f r (p.startAt start) → Overlooked p maxIterations r

/-- A start meets every row that was not overlooked. -/
theorem isSatisfied_initialPoint (hfull : p.IsFull) (h : p.initialPoint maxIterations = .ok x)
    (hseen : ¬p.Overlooked maxIterations r) :
    (p.row r).isSatisfied x.toList Scalar.tolerance = true := by
  obtain ⟨basic, hbasic, h⟩ := bind_ok h
  cases basic with
  | some y =>
    -- The basic point has been checked.
    obtain rfl := Except.ok.inj h
    obtain ⟨o, -, h⟩ := bind_ok hbasic
    exact isFeasible_iff.1 (Option.filter_eq_some_iff.1 (Except.ok.inj h)).2 r
  | none =>
    exact isSatisfied_feasiblePoint hfull.rowsFit h fun hstart => hseen (.start hbasic hstart)

/-- **A solution keeps every row that was not overlooked.** -/
theorem isSatisfied_solve (hfull : p.IsFull) (h : p.solve maxIterations = .ok x)
    (hseen : ¬p.Overlooked maxIterations r) :
    (p.row r).isSatisfied x.toList Scalar.tolerance = true := by
  unfold solve at h
  split at h
  · exact absurd h (by simp)
  · obtain ⟨start, hstart, h⟩ := bind_ok h
    obtain ⟨f, hf, -⟩ := objective?_value hfull.rowsFit
    exact isSatisfied_optimize hfull hf h (fun hsearch => hseen (.search hstart hf hsearch))
      (isSatisfied_initialPoint hfull hstart hseen)

/-- **A solution is feasible if and only if it keeps the rows that were overlooked.** -/
theorem solve_isFeasible_iff (hfull : p.IsFull) (h : p.solve maxIterations = .ok x) :
    p.isFeasible x Scalar.tolerance = true ↔
      ∀ r, p.Overlooked maxIterations r →
        (p.row r).isSatisfied x.toList Scalar.tolerance = true := by
  rw [isFeasible_iff]
  constructor
  · exact fun hall r _ => hall r
  · intro hoverlooked r
    by_cases hr : p.Overlooked maxIterations r
    · exact hoverlooked r hr
    · exact isSatisfied_solve hfull h hr

/-! ### A problem without feasible points -/

/-- A full problem without feasible points has no feasible basic point. -/
theorem feasibleBasicPoint_eq_none (hfull : p.IsFull)
    (hnone : ∀ x, p.isFeasible x Scalar.tolerance = false) : p.feasibleBasicPoint = .ok none := by
  obtain ⟨basic, hbasic⟩ := exists_basicPoint hfull.rowsFit
  unfold feasibleBasicPoint
  rw [hbasic]
  show Except.ok (basic.filter _) = .ok none
  rw [Option.filter_eq_none_iff.2 fun x _ => Bool.eq_false_iff.1 (hnone x)]

end Problem

theorem near_unit {a : ℝ} (h : |a| = 1) : Scalar.near a 0 = false := by
  rw [Bool.eq_false_iff, ne_eq, Scalar.near_iff, sub_zero, h]
  norm_num

namespace Linear

theorem dot_singleton (c : ℝ) (x : Vector ℝ 1) : dot [c] x.toList = c * x.get 0 := by
  rw [dot_eq_sum (by rfl : [c].length = 1) (Vector.length_toList ..), Fin.sum_univ_one]
  rfl

/-- Without rows that are left, no row is chosen. -/
theorem foldl_step_of_rest_eq_nil {m n : ℕ} {s : Reduction m n ℝ} (h : s.rest = [])
    (columns : List (Fin n)) : columns.foldl Reduction.step s = s := by
  have hstep : ∀ column, s.step column = s := by
    intro column
    unfold Reduction.step
    rw [h]
    rfl
  induction columns with
  | nil => rfl
  | cons column columns ih => rw [List.foldl_cons, hstep, ih]

/-- A single row that starts with one is independent. -/
theorem independentRows_of_lead {n : ℕ} {a : Dense 1 (n + 1) ℝ} (h : a.entry 0 0 = 1) :
    independentRows a = [0] := by
  have hfirst : ∃ cells, (Reduction.ofDense a).step 0 = ⟨cells, [0], []⟩ := by
    have hnear : Scalar.near (Scalar.abs (a.entry 0 0)) 0 = false := by
      rw [h]
      exact near_unit (show |(|1| : ℝ)| = 1 by norm_num)
    have hpivot : pivot? (fun r : Fin 1 => a.entry r 0) [0] = some (0, []) := rfl
    have hrest : (Reduction.ofDense a).rest = [0] := rfl
    unfold Reduction.step
    rw [hrest, show (Reduction.ofDense a).cells = a from rfl, hpivot]
    dsimp only
    rw [hnear]
    exact ⟨_, rfl⟩
  obtain ⟨cells, hfirst⟩ := hfirst
  have hchosen : (reduceRows a).chosen = [0] := by
    unfold reduceRows
    rw [List.finRange_succ, List.foldl_cons, hfirst, foldl_step_of_rest_eq_nil rfl]
  unfold independentRows independenceMask
  rw [hchosen]
  rfl

theorem independentRows_length_of_one {k n : ℕ} (hk : k = 1) (hn : n = 1) {a : Dense k n ℝ}
    (ha : ∀ i j, a.entry i j = 1) : (independentRows a).length = 1 := by
  subst hk hn
  exact congrArg List.length (independentRows_of_lead (n := 0) (ha 0 0))

end Linear

namespace Problem

/-- Where no inequality has a price below zero, no row is dropped. -/
theorem leastMultiplier_of_nonneg {p : Problem ℝ} {working : List p.Row}
    {priced : List (Fin working.length × ℝ)}
    (h : ∀ q ∈ priced, (p.row (working.get q.1)).isEquality = true ∨ 0 ≤ q.2) :
    p.leastMultiplier working priced = (0, none) := by
  obtain hkept | ⟨q, hq, hrow, hless, -⟩ := leastMultiplier_cases working priced
  · exact hkept
  · obtain hequality | hprice := h q hq
    · exact absurd (hequality.symm.trans hrow) (by simp)
    · exact absurd hless (not_lt.2 hprice)

/-- In one variable, the array of one row with coefficient one, and the rows kept of it. -/
theorem workingArray?_of_one {p : Problem ℝ} (hfits : p.RowsFit) (hn : p.variableCount = 1)
    {r : p.Row} (hr : (p.signedCoefficients r).getD 0 0 = 1)
    {rows : Dense [r].length p.variableCount ℝ} (hrows : p.workingArray? [r] = some rows) :
    (∀ i j, rows.entry i j = 1) ∧ (independentRows rows).length = 1 ∧
      ∀ i j, (rows.selectRows (independentRows rows)).entry i j = 1 := by
  obtain ⟨laid, hlaid, hcells⟩ := exists_workingArray? hfits [r]
  obtain rfl := Option.some.inj (hrows.symm.trans hlaid)
  have hentry : ∀ i j, rows.entry i j = 1 := by
    intro i j
    rw [hcells, List.mem_singleton.1 (List.get_mem [r] i), show j.val = 0 by omega, hr]
  refine ⟨hentry, independentRows_length_of_one rfl hn hentry, fun i j => ?_⟩
  unfold Dense.entry
  rw [Dense.get_selectRows]
  exact hentry _ j

/-- A problem in one variable, at a point where one row fixes it: the step is zero. -/
theorem stepFrom?_of_one {p : Problem ℝ} (hfits : p.RowsFit) (hn : p.variableCount = 1) {r : p.Row}
    (hr : (p.signedCoefficients r).getD 0 0 = 1) (f : Objective p.variableCount ℝ) (x : p.Point) :
    p.stepFrom? f ⟨x, [r]⟩ = some ([r], Vector.replicate p.variableCount 0) := by
  obtain ⟨rows, hrows, -⟩ := exists_workingArray? hfits [r]
  obtain ⟨-, hkept, -⟩ := workingArray?_of_one hfits hn hr hrows
  have hstep : descent f (rows.selectRows (independentRows rows)) (f.gradient x)
      = .ok (Vector.replicate p.variableCount 0) := if_pos (hkept.trans hn.symm)
  have hall : (independentRows rows).map [r].get = [r] := by
    show _ = List.replicate 1 r
    refine List.eq_replicate_iff.2 ⟨(List.length_map _).trans hkept, fun q hq => ?_⟩
    obtain ⟨i, -, rfl⟩ := List.mem_map.1 hq
    exact List.mem_singleton.1 (List.get_mem ..)
  unfold stepFrom?
  rw [hrows, Option.bind_some]
  dsimp only
  rw [hstep, hall]

/-- Such a point is optimal unless the row is an inequality that the objective leads away from. -/
theorem advance_eq_none_of_one {p : Problem ℝ} (hfits : p.RowsFit) (hn : p.variableCount = 1)
    {r : p.Row} (hr : (p.signedCoefficients r).getD 0 0 = 1) {f : Objective p.variableCount ℝ}
    {x : p.Point}
    (hoptimal : (p.row r).isEquality = true ∨ ∀ j, 0 ≤ (f.gradient x).get j) :
    p.advance f ⟨x, [r]⟩ = .ok none := by
  obtain ⟨rows, hrows, -⟩ := exists_workingArray? hfits [r]
  obtain ⟨-, hkept, hselected⟩ := workingArray?_of_one hfits hn hr hrows
  have hstep : descent f (rows.selectRows (independentRows rows)) (f.gradient x)
      = .ok (Vector.replicate p.variableCount 0) := if_pos (hkept.trans hn.symm)
  obtain ⟨prices, hprices⟩ := exists_multipliers
    (sharpMultipliers_of_one hkept (fun i j => hselected i j ▸ sharp_one) (f.gradient x))
    (independentRows_of_one hkept hn hselected)
  have hprice : ∀ i, prices.get i = (f.gradient x).get ⟨0, by omega⟩ := by
    intro i
    rw [← (multipliers_spec hprices).2.2 (hkept.trans hn.symm)]
    simp only [hselected, one_mul]
    exact (Fintype.sum_eq_single i fun l hl => absurd (Fin.ext (by omega)) hl).symm
  have hzero : (Vector.replicate p.variableCount (0 : ℝ)).all (Scalar.near · 0) = true := by
    simp
  have hleast : p.leastMultiplier [r] ((independentRows rows).zip prices.toList) = (0, none) := by
    refine leastMultiplier_of_nonneg fun q hq => ?_
    obtain ⟨i, hi, hget⟩ := List.mem_iff_getElem.1 (List.of_mem_zip hq).2
    rw [List.mem_singleton.1 (List.get_mem [r] q.1), ← hget]
    refine hoptimal.imp_right fun hgradient => ?_
    have hnonneg := hgradient ⟨0, by omega⟩
    rw [← hprice ⟨i, by simpa using hi⟩] at hnonneg
    exact hnonneg
  exact advance_of_optimal hrows hstep hzero hprices hleast

theorem advance_of_one {p : Problem ℝ} (hfits : p.RowsFit) (hn : p.variableCount = 1) {r : p.Row}
    (hr : (p.signedCoefficients r).getD 0 0 = 1) (f : Objective p.variableCount ℝ) (x : p.Point) :
    p.stepFrom? f ⟨x, [r]⟩ = some ([r], Vector.replicate p.variableCount 0) ∧
      ((p.row r).isEquality = true ∨ (∀ j, 0 ≤ (f.gradient x).get j) →
        p.advance f ⟨x, [r]⟩ = .ok none) :=
  ⟨stepFrom?_of_one hfits hn hr f x, advance_eq_none_of_one hfits hn hr⟩

end Problem

/-- A row that fixes a variable, and one with a small coefficient that is far from holding then. -/
noncomputable def slight : Problem ℝ where
  variableCount := 1
  hard := [⟨[1], .eq, 1000000000⟩, ⟨[1 / 10000000], .le, 1⟩]
  soft := []

namespace Problem

/-- The row that fixes the variable. -/
def fixing : slight.Row := (0 : Fin 2)

/-- The row with the small coefficient. -/
def limiting : slight.Row := (1 : Fin 2)

theorem isFull_slight : slight.IsFull where
  hard := by
    intro row hrow
    obtain rfl | rfl : row = ⟨[1], .eq, 1000000000⟩ ∨ row = ⟨[1 / 10000000], .le, 1⟩ := by
      simpa [slight] using hrow
    · rfl
    · rfl
  soft := fun _ hrow => absurd hrow List.not_mem_nil

theorem excess_slight (x : slight.Point) :
    (slight.row fixing).excess x.toList = x.get (0 : Fin 1) - 1000000000 ∧
      (slight.row limiting).excess x.toList = 1 - x.get (0 : Fin 1) / 10000000 := by
  have hdot : ∀ c : ℝ, dot [c] x.toList = c * x.get (0 : Fin 1) := fun c => dot_singleton c x
  constructor
  · show 1 * dot [1] x.toList - 1 * 1000000000 = _
    rw [hdot]
    ring
  · show -1 * dot [1 / 10000000] x.toList - -1 * 1 = _
    rw [hdot]
    ring

theorem isFeasible_slight (x : slight.Point) :
    slight.isFeasible x Scalar.tolerance = false := by
  refine Bool.eq_false_iff.2 fun h => ?_
  obtain ⟨hexcess, hexcess'⟩ := excess_slight x
  have hfixed : |(slight.row fixing).excess x.toList| < 1 / 1000000 :=
    (HardRow.isSatisfied_iff _ _).1 (isFeasible_iff.1 h fixing)
  have hlimit : -(1 / 1000000) < (slight.row limiting).excess x.toList :=
    (HardRow.isSatisfied_iff _ _).1 (isFeasible_iff.1 h limiting)
  rw [hexcess] at hfixed
  rw [hexcess'] at hlimit
  have hclose := (abs_lt.1 hfixed).1
  linarith

end Problem

namespace Tableau

/-- The first tableau of the slight problem, and its one pivot. -/
theorem reduce_slight {w : ℕ} (hw : w = 4) {t : Tableau 1 2 w ℝ} (hstart : t.artificialStart = 3)
    (hcells : ∀ k : Fin w, (t.lines.get 0).cells.get k = [1, -1, 0, 1].getD k 0)
    (hcells' : ∀ k : Fin w, (t.lines.get 1).cells.get k
      = [1 / 10000000, -(1 / 10000000), 1, 0].getD k 0)
    (hrhs : (t.lines.get 0).rhs = 1000000000) (hrhs' : (t.lines.get 1).rhs = 1)
    (hbasis' : t.basis.get 1 = 2)
    (hcosts : ∀ k : Fin w, t.objective.cells.get k = [1, -1, 0, 0].getD k 0) (limit pivots : ℕ) :
    ∃ last, t.reduce limit (pivots + 1) = .ok last ∧ last.infeasibility = 0 ∧
      last.point.get 0 = 1000000000 := by
  subst hw
  have hfour : List.finRange 4 = [0, 1, 2, 3] := rfl
  have htwo : List.finRange 2 = [0, 1] := rfl
  have hcolumn : t.pivotColumn? = some 0 := by
    unfold pivotColumn?
    rw [hfour]
    simp only [List.foldl_cons, List.foldl_nil, hcosts]
    norm_num
  have hrow : t.pivotRow? 0 = some 0 := by
    unfold pivotRow?
    rw [htwo]
    simp only [List.foldl_cons, List.foldl_nil, hcells, hcells', hrhs, hrhs', Scalar.tolerance_eq]
    norm_num [improves, Scalar.isFinite]
  have hentry : (t.lines.get 0).cells.get 0 = 1 := hcells 0
  have hcosts' : ∀ k, (t.pivot 0 0).objective.cells.get k = [0, 0, 0, -1].getD k 0 := by
    intro k
    show (Line.clear 0 ((t.lines.get 0).divide ((t.lines.get 0).cells.get 0))
      t.objective).cells.get k = _
    rw [Line.get_clear, Line.get_divide, hentry, hcosts, hcosts, hcells]
    fin_cases k <;> norm_num
  have hdone : (t.pivot 0 0).pivotColumn? = none := by
    unfold pivotColumn?
    rw [hfour]
    simp only [List.foldl_cons, List.foldl_nil, hcosts']
    norm_num
  refine ⟨t.pivot 0 0, ?_, ?_, ?_⟩
  · unfold reduce
    rw [hcolumn]
    dsimp only
    rw [hrow]
    cases pivots <;> simp [reduce, hdone]
  · have hbasic : ∀ i, ¬(t.pivot 0 0).artificialStart ≤ (t.pivot 0 0).basis.get i := by
      intro i
      show ¬t.artificialStart ≤ _
      rw [get_basis_pivot, hstart]
      fin_cases i
      · simp
      · simp [hbasis']
    unfold infeasibility
    rw [List.filter_eq_nil_iff.2 (by simpa using hbasic)]
    simp [Scalar.sum_eq]
  · rw [get_point]
    simp [basicValue, Fin.sum_univ_two, get_basis_pivot, hbasis', get_lines_pivot, hrhs, hentry]

end Tableau

namespace Problem

theorem needsArtificial_slight : (slight.row fixing).needsArtificial = true ∧
    (slight.row limiting).needsArtificial = false ∧ (slight.row fixing).flip = 1 ∧
    (slight.row limiting).flip = 1 := by
  have hflip : (slight.row fixing).flip = 1 := if_neg (by show ¬(1000000000 : ℝ) < 0; norm_num)
  have hflip' : (slight.row limiting).flip = 1 := if_neg (by show ¬(1 : ℝ) < 0; norm_num)
  refine ⟨rfl, ?_, hflip, hflip'⟩
  show (!decide (0 < (slight.row limiting).flip)) = false
  rw [hflip']
  simp

theorem tableauWidth_slight : slight.tableauWidth = 4 := by
  obtain ⟨hneeds, hneeds', -, -⟩ := needsArtificial_slight
  have hcount : slight.artificialCount 2 = 1 := by
    show List.countP _ [slight.row fixing, slight.row limiting] = 1
    rw [List.countP_cons_of_pos hneeds, List.countP_cons_of_neg (by simp [hneeds']),
      List.countP_nil]
  show 3 + slight.artificialCount 2 = 4
  rw [hcount]

/-- The cells of the first tableau. -/
theorem get_tableauLine_slight (k : Fin slight.tableauWidth) :
    (slight.tableauLine fixing).cells.get k = [1, -1, 0, 1].getD k 0 ∧
      (slight.tableauLine limiting).cells.get k
        = [1 / 10000000, -(1 / 10000000), 1, 0].getD k 0 := by
  obtain ⟨hneeds, hneeds', hflip, hflip'⟩ := needsArtificial_slight
  have hfits := isFull_slight.rowsFit
  have hk : k.val < 4 := tableauWidth_slight ▸ k.isLt
  constructor
  · rw [get_tableauLine hfits, partEntry_eq hfits, hneeds, hflip]
    show 1 * ([(1 : ℝ)].getD k 0 - if 1 ≤ k.val then [(1 : ℝ)].getD (k - 1) 0 else 0)
      + (if k.val = 2 then Option.getD none 0 else 0) + (if k.val = 3 then _ else 0) = _
    generalize k.val = k at hk
    interval_cases k <;> norm_num
  · rw [get_tableauLine hfits, partEntry_eq hfits, hneeds', hflip']
    show 1 * ([(1 / 10000000 : ℝ)].getD k 0
      - if 1 ≤ k.val then [(1 / 10000000 : ℝ)].getD (k - 1) 0 else 0)
      + (if k.val = 2 then Option.getD (some (slight.row limiting).flip) 0 else 0)
      + (if k.val = _ then (if false = true then (1 : ℝ) else 0) else 0) = _
    rw [hflip', if_neg (by simp : ¬false = true), ite_self]
    generalize k.val = k at hk
    interval_cases k <;> norm_num

/-- The costs of the first tableau are those of the one artificial variable. -/
theorem get_costs_slight
    {first : Tableau slight.variableCount slight.hard.length slight.tableauWidth ℝ}
    (hfirst : slight.tableau? = some first) (k : Fin slight.tableauWidth) :
    first.objective.cells.get k = [1, -1, 0, 0].getD k 0 := by
  obtain ⟨hneeds, hneeds', -, -⟩ := needsArtificial_slight
  obtain ⟨hlines, -, -, hobjective⟩ := tableau?_eq_some hfirst
  have hk : k.val < 4 := tableauWidth_slight ▸ k.isLt
  have hfilter : (List.finRange slight.hard.length).filter (fun r =>
      (slight.row r).needsArtificial) = [fixing] := by
    show List.filter _ [fixing, limiting] = [fixing]
    simp [hneeds, hneeds']
  rw [hobjective, hfilter, List.foldl_cons, List.foldl_nil, Line.get_add, hlines,
    (get_tableauLine_slight k).1]
  unfold artificialCosts
  dsimp only
  rw [get_ofFn]
  show (if 3 ≤ k.val then -1 else 0) + [1, -1, 0, 1].getD k.val 0 = [1, -1, 0, 0].getD k.val 0
  generalize k.val = k at hk
  interval_cases k <;> norm_num

theorem feasiblePoint_slight (maxIterations : ℕ) :
    ∃ x, slight.feasiblePoint (maxIterations + 1) = .ok x ∧ x.get (0 : Fin 1) = 1000000000 := by
  obtain ⟨-, hneeds', hflip, hflip'⟩ := needsArtificial_slight
  obtain ⟨first, hfirst⟩ := exists_tableau? isFull_slight.rowsFit
  obtain ⟨hlines, hbasis, hstart, -⟩ := tableau?_eq_some hfirst
  have hrhs : (first.lines.get fixing).rhs = 1000000000 := by
    rw [hlines]
    show (slight.row fixing).flip * 1000000000 = 1000000000
    rw [hflip, one_mul]
  have hrhs' : (first.lines.get limiting).rhs = 1 := by
    rw [hlines]
    show (slight.row limiting).flip * 1 = 1
    rw [hflip', one_mul]
  have hbasis' : first.basis.get limiting = 2 := by
    rw [hbasis]
    exact if_neg (by simp [hneeds'])
  obtain ⟨last, hlast, hinfeasibility, hpoint⟩ := Tableau.reduce_slight tableauWidth_slight hstart
    (fun k => (hlines fixing).symm ▸ (get_tableauLine_slight k).1)
    (fun k => (hlines limiting).symm ▸ (get_tableauLine_slight k).2) hrhs hrhs' hbasis'
    (get_costs_slight hfirst) (maxIterations + 1) maxIterations
  refine ⟨last.point, ?_, hpoint⟩
  unfold feasiblePoint
  rw [hfirst]
  have hfeasible : ¬Scalar.tolerance < last.infeasibility := by
    rw [Scalar.tolerance_eq]
    have hzero : last.infeasibility = 0 := hinfeasibility
    rw [hzero]
    norm_num
  show (first.reduce _ _ >>= fun last => _) = _
  have hreduce : first.reduce (maxIterations + 1) (maxIterations + 1) = .ok last := hlast
  rw [hreduce]
  exact if_neg hfeasible

theorem advance_slight (f : Objective slight.variableCount ℝ) (x : slight.Point) :
    slight.advance f ⟨x, [fixing]⟩ = .ok none :=
  advance_eq_none_of_one isFull_slight.rowsFit rfl (one_mul 1) (.inl rfl)

/-- The problem has a solution. -/
theorem exists_solve_slight : ∃ x, slight.solve 10000 = .ok x := by
  obtain ⟨x, hx, hvalue⟩ := feasiblePoint_slight 9999
  obtain ⟨f, hf, -⟩ := objective?_value isFull_slight.rowsFit
  have hbinding : slight.bindingRows x = [fixing] := by
    obtain ⟨-, hexcess⟩ := excess_slight x
    have hfar : Scalar.near ((slight.row limiting).signedValue x.toList)
        (slight.row limiting).signedRhs = false := by
      rw [Bool.eq_false_iff, ne_eq, Scalar.near_iff]
      show ¬|(slight.row limiting).excess x.toList| < _
      rw [hexcess, hvalue]
      norm_num
    show List.filter _ [fixing, limiting] = [fixing]
    have hlimiting : ((slight.row limiting).isEquality || Scalar.near
        ((slight.row limiting).signedValue x.toList) (slight.row limiting).signedRhs) = false := by
      rw [hfar]
      rfl
    have hfixing : (slight.row fixing).isEquality = true := rfl
    simp [hlimiting, hfixing]
  have hinitial : slight.initialPoint 10000 = .ok x := by
    unfold initialPoint
    rw [feasibleBasicPoint_eq_none isFull_slight isFeasible_slight]
    exact hx
  refine ⟨x, ?_⟩
  unfold solve
  rw [if_neg (by show ¬2 < 1; omega), hinitial]
  show slight.optimize x 10000 = .ok x
  unfold optimize startAt
  rw [hf, hbinding]
  show slight.iterate f 10000 (9999 + 1) ⟨x, [fixing]⟩ = .ok x
  unfold iterate
  rw [advance_slight]

/-- A solution that is not feasible, because a row was overlooked. -/
theorem exists_overlooked_slight : ∃ (x : slight.Point) (r : slight.Row), slight.IsFull ∧
    slight.solve 10000 = .ok x ∧ slight.Overlooked 10000 r ∧
    (slight.row r).isSatisfied x.toList Scalar.tolerance = false := by
  obtain ⟨x, hx⟩ := exists_solve_slight
  have hiff := solve_isFeasible_iff isFull_slight hx
  rw [isFeasible_slight x] at hiff
  by_contra hnone
  refine absurd (hiff.2 fun r hr => ?_) (by simp)
  by_contra hrow
  exact hnone ⟨x, r, isFull_slight, hx, hr, Bool.eq_false_iff.2 hrow⟩

/-- **Not every solution is feasible.**  The simplex method passes over the row with the small
coefficient. -/
theorem solve_not_isFeasible : ¬∀ (p : Problem ℝ) (maxIterations : ℕ) (x : p.Point), p.IsFull →
    p.solve maxIterations = .ok x → p.isFeasible x Scalar.tolerance = true := by
  intro hall
  obtain ⟨x, hx⟩ := exists_solve_slight
  have hfeasible := hall slight 10000 x isFull_slight hx
  rw [isFeasible_slight x] at hfeasible
  exact absurd hfeasible (by simp)

end Problem

end ElasticLayout
