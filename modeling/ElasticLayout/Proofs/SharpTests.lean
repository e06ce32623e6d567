import ElasticLayout.Proofs.RationalProblems
import ElasticLayout.Proofs.SharpSearch

/-!
# Sharp tests of rational numbers

Where a run tests rational numbers, it is found by computing whether one of them counts as zero
without being zero: each predicate that says that a run is sharp follows from a test that a program
makes.

* `sharp`, `sharpAbove` -- one number;
* `Linear.Reduction.sharpTests`, `Linear.sharpReduction_toReal` -- rank detection;
* `Linear.Equation.sharpTests`, `sharpMultipliers_toReal` -- square systems, and multipliers;
* `Tableau.sharpTests`, `Problem.sharpPivots_toReal` -- the simplex method;
* `Problem.sharpStep_of_corner` -- an iteration at a point that the working rows fix.
-/

namespace ElasticLayout

open Linear

/-- A rational number that counts as zero is zero. -/
def sharp (a : ℚ) : Bool := !Scalar.near a 0 || decide (a = 0)

theorem sharp_cast {a : ℚ} (h : sharp a = true) : Sharp (a : ℝ) := by
  intro hnear
  rw [← Rat.cast_zero, Scalar.near_cast] at hnear
  unfold sharp at h
  rw [hnear, Bool.not_true, Bool.false_or, decide_eq_true_iff] at h
  rw [h, Rat.cast_zero]

/-- A rational number is zero, negative or above the tolerance. -/
def sharpAbove (a : ℚ) : Bool := !decide (0 < a) || decide (Scalar.tolerance < a)

theorem sharpAbove_cast {a : ℚ} (h : sharpAbove a = true) : SharpAbove (a : ℝ) := by
  intro hpos
  unfold sharpAbove at h
  rw [decide_eq_true (Rat.cast_pos.1 hpos), Bool.not_true, Bool.false_or, decide_eq_true_iff] at h
  rw [Scalar.tolerance_cast]
  exact Rat.cast_lt.2 h

namespace Linear

variable {k m n : ℕ}

/-! ### Rank detection -/

namespace Reduction

/-- Every pivot that is tested over the columns is sharp. -/
def sharpTests : Reduction m n ℚ → List (Fin n) → Bool
  | _, [] => true
  | s, column :: columns =>
    (match pivot? (fun r => s.cells.entry r column) s.rest with
      | none => true
      | some (p, _) => sharp (s.cells.entry p column)) && (s.step column).sharpTests columns

theorem sharpOver_toReal {s : Reduction m n ℚ} {columns : List (Fin n)}
    (h : s.sharpTests columns = true) : s.toReal.SharpOver columns := by
  induction columns generalizing s with
  | nil => trivial
  | cons column columns ih =>
    unfold sharpTests at h
    obtain ⟨hpivot, hrest⟩ := Bool.and_eq_true_iff.1 h
    refine ⟨fun p others hfound => ?_, ?_⟩
    · have hsame : pivot? (fun r => s.cells.entry r column) s.rest = some (p, others) := by
        rw [← pivot?_cast, ← hfound]
        congr 1
        exact funext fun r => (Dense.entry_toReal ..).symm
      rw [hsame] at hpivot
      rw [show s.toReal.cells.entry p column = (s.cells.entry p column : ℝ) from
        Dense.entry_toReal ..]
      exact sharp_cast hpivot
    · rw [step_toReal]
      exact ih hrest

end Reduction

theorem sharpReduction_toReal {a : Dense m n ℚ}
    (h : (Reduction.ofDense a).sharpTests (List.finRange n) = true) : SharpReduction a.toReal :=
  Reduction.sharpOver_toReal h

/-! ### Square systems -/

theorem swapToFront?_map {β γ : Type} (f : β → γ) (xs : List β) (k : ℕ) :
    swapToFront? (xs.map f) k = (swapToFront? xs k).map (Prod.map f (List.map f)) := by
  cases xs with
  | nil => rfl
  | cons x xs =>
    cases k with
    | zero => rfl
    | succ k =>
      rw [List.map_cons, swapToFront?, swapToFront?, List.getElem?_map]
      cases xs[k]? with
      | none => rfl
      | some y => simp [List.map_set]

namespace Equation

/-- An equation of rational numbers among those of real ones. -/
def toReal (e : Equation ℚ) : Equation ℝ := ⟨e.coefficients.map (↑), e.rhs⟩

theorem lead_toReal (e : Equation ℚ) : e.toReal.lead = (e.lead : ℝ) := by
  obtain ⟨coefficients, rhs⟩ := e
  cases coefficients with
  | nil => exact Rat.cast_zero.symm
  | cons c cs => rfl

theorem tail_toReal (e : Equation ℚ) : e.toReal.tail = e.tail.map (↑) := List.map_tail.symm

theorem reduce_toReal (pivot e : Equation ℚ) :
    pivot.toReal.reduce e.toReal = (pivot.reduce e).toReal := by
  have hratio : -e.toReal.lead / pivot.toReal.lead = ((-e.lead / pivot.lead : ℚ) : ℝ) := by
    rw [lead_toReal, lead_toReal]
    push_cast
    rfl
  have hzero := Scalar.beq_cast (-e.lead / pivot.lead) 0
  rw [Rat.cast_zero] at hzero
  unfold reduce
  rw [hratio, tail_toReal, tail_toReal]
  dsimp only
  rw [hzero]
  split
  · rfl
  · unfold toReal
    rw [List.zipWith_map, List.map_zipWith]
    push_cast
    rfl

theorem pivot?_toReal (equations : List (Equation ℚ)) :
    pivot? lead (equations.map toReal)
      = (pivot? lead equations).map (Prod.map toReal (List.map toReal)) := by
  have hchoice : (equations.map toReal).map (fun e => Scalar.abs e.lead)
      = (equations.map fun e => Scalar.abs e.lead).map (↑) := by
    rw [List.map_map, List.map_map]
    refine List.map_congr_left fun e _ => ?_
    show Scalar.abs e.toReal.lead = _
    rw [lead_toReal, Scalar.abs_cast]
    rfl
  unfold pivot?
  rw [hchoice, firstLargest_cast, swapToFront?_map]

/-- Every pivot of the solution of a list of equations is sharp. -/
def sharpTests : ℕ → List (Equation ℚ) → Bool
  | 0, _ => true
  | n + 1, equations =>
    match pivot? lead equations with
    | none => true
    | some (pivot, others) => sharp pivot.lead && sharpTests n (others.map pivot.reduce)

theorem sharpEquations_toReal {equations : List (Equation ℚ)}
    (h : sharpTests n equations = true) : SharpEquations n (equations.map toReal) := by
  induction n generalizing equations with
  | zero => trivial
  | succ n ih =>
    intro pivot others hpivot
    rw [pivot?_toReal, Option.map_eq_some_iff] at hpivot
    obtain ⟨⟨found, rest⟩, hfound, hmap⟩ := hpivot
    obtain ⟨rfl, rfl⟩ := Prod.mk.inj hmap
    unfold sharpTests at h
    rw [hfound] at h
    obtain ⟨hlead, hrest⟩ := Bool.and_eq_true_iff.1 h
    rw [lead_toReal, List.map_map]
    refine ⟨sharp_cast hlead, ?_⟩
    have hreduced := ih hrest
    rw [List.map_map] at hreduced
    convert hreduced using 2
    exact funext fun e => reduce_toReal found e

end Equation

/-- Every test in the computation of multipliers is sharp. -/
def Dense.sharpTests (a : Dense k n ℚ) : Bool :=
  (Reduction.ofDense a.transpose).sharpTests (List.finRange k) &&
    Equation.sharpTests k ((independentRows a.transpose).map fun j =>
      ⟨(a.transpose.get j).toList, 0⟩)

/-- The entries of a list, by their positions. -/
theorem map_get_cast {β γ : Type} {l : List β} (h : k = l.length) (f : β → γ) :
    (List.finRange k).map (fun i => f (l.get (i.cast h))) = l.map f := by
  subst h
  conv_rhs => rw [← List.map_get_finRange l, List.map_map]
  rfl

theorem Dense.transpose_toReal (a : Dense k n ℚ) : a.toReal.transpose = a.transpose.toReal :=
  toReal_eq_of_entry fun j i => by rw [entry_transpose, entry_transpose, entry_toReal]

theorem Dense.selectRows_toReal (a : Dense m n ℚ) (positions : List (Fin m)) :
    a.toReal.selectRows positions = (a.selectRows positions).toReal :=
  vector_ext fun i => by rw [get_selectRows, get_toReal, get_toReal, get_selectRows]

end Linear

theorem sharpMultipliers_toReal {k n : ℕ} {a : Dense k n ℚ} (h : a.sharpTests = true)
    {gradient : Vector ℝ n} (hgradient : ∀ j, gradient.get j = 0) :
    SharpMultipliers a.toReal gradient := by
  obtain ⟨hreduction, hsystem⟩ := Bool.and_eq_true_iff.1 h
  unfold SharpMultipliers
  rw [Dense.transpose_toReal]
  refine ⟨sharpReduction_toReal hreduction, fun hlength => ?_⟩
  unfold SharpSystem
  simp only [get_ofFn]
  -- As many rows are kept as there are unknowns, so the equations are those of the kept rows.
  rw [map_get_cast hlength fun j => (⟨(a.transpose.toReal.get j).toList, gradient.get j⟩ :
    Equation ℝ), independentRows_toReal]
  have hequations : (independentRows a.transpose).map (fun j =>
        (⟨(a.transpose.toReal.get j).toList, gradient.get j⟩ : Equation ℝ))
      = ((independentRows a.transpose).map fun j =>
          (⟨(a.transpose.get j).toList, 0⟩ : Equation ℚ)).map Equation.toReal := by
    rw [List.map_map]
    refine List.map_congr_left fun j _ => ?_
    rw [hgradient, Dense.get_toReal, Vector.toList_map]
    exact congrArg (Equation.mk _) Rat.cast_zero.symm
  rw [hequations]
  exact Equation.sharpEquations_toReal hsystem

/-! ### The simplex method -/

namespace Tableau

variable {n h width : ℕ} {t : Tableau n h width ℚ}

/-- Every test of at most so many pivots is sharp. -/
def sharpTests : ℕ → Tableau n h width ℚ → Bool
  | 0, t => t.objective.cells.all sharpAbove
  | pivots + 1, t =>
    t.objective.cells.all sharpAbove &&
      match t.pivotColumn? with
      | none => true
      | some column =>
        (t.lines.all fun line => sharpAbove (line.cells.get column)) &&
          match t.pivotRow? column with
          | none => true
          | some row => sharpTests pivots (t.pivot row column)

theorem sharpCosts_toReal (h : t.objective.cells.all sharpAbove = true) : t.toReal.SharpCosts := by
  intro k
  rw [show t.toReal.objective.cells.get k = (t.objective.cells.get k : ℝ) from Line.get_toReal ..]
  exact sharpAbove_cast (Vector.all_eq_true.1 h k.val k.isLt)

/-- **Whether the tests of a run are sharp is found by computing.** -/
theorem sharpPivots_toReal {pivots : ℕ} (h : sharpTests pivots t = true) :
    SharpPivots pivots t.toReal := by
  induction pivots generalizing t with
  | zero => exact sharpCosts_toReal h
  | succ pivots ih =>
    unfold sharpTests at h
    obtain ⟨hcosts, hpivot⟩ := Bool.and_eq_true_iff.1 h
    refine ⟨sharpCosts_toReal hcosts, fun column hcolumn => ?_⟩
    rw [pivotColumn?_toReal] at hcolumn
    rw [hcolumn] at hpivot
    obtain ⟨hentries, hrest⟩ := Bool.and_eq_true_iff.1 hpivot
    refine ⟨fun i => ?_, fun row hrow => ?_⟩
    · rw [get_lines_toReal, Line.get_toReal]
      exact sharpAbove_cast (Vector.all_eq_true.1 hentries i.val i.isLt)
    · rw [pivotRow?_toReal] at hrow
      rw [hrow] at hrest
      rw [pivot_toReal]
      exact ih hrest

end Tableau

namespace Problem

/-- Whether the pivots of the simplex method are sharp is found by computing. -/
theorem sharpPivots_toReal {p : Problem ℚ}
    {t : Tableau p.variableCount p.hard.length p.tableauWidth ℚ}
    (ht : p.tableau? = some t) {pivots : ℕ} (hsharp : Tableau.sharpTests pivots t = true)
    {first : Tableau p.toReal.variableCount p.toReal.hard.length p.toReal.tableauWidth ℝ}
    (hfirst : p.toReal.tableau? = some first) : Tableau.SharpPivots pivots first := by
  have hpivots := congrArg (fun s : (h : ℕ) × (width : ℕ) × Tableau p.variableCount h width ℝ =>
    Tableau.SharpPivots pivots s.2.2) (p.tableau?_toReal ht hfirst)
  exact hpivots.mpr (Tableau.sharpPivots_toReal hsharp)

/-! ### A corner -/

/-- An iteration is sharp at a point that rational working rows fix, where the objective is flat. -/
theorem sharpStep_of_corner {p : Problem ℝ} {f : Objective p.variableCount ℝ} {s : State p}
    {a : Dense s.working.length p.variableCount ℚ}
    (hrows : p.workingArray? s.working = some a.toReal)
    (hflat : ∀ j, (f.gradient s.point).get j = 0)
    (hrank : (independentRows a).length = p.variableCount)
    (hreduction : (Reduction.ofDense a).sharpTests (List.finRange p.variableCount) = true)
    (hmultipliers : (a.selectRows (independentRows a)).sharpTests = true) : p.SharpStep f s := by
  intro rows hfound
  obtain rfl := Option.some.inj (hrows.symm.trans hfound)
  rw [independentRows_toReal, Dense.selectRows_toReal]
  exact ⟨sharpReduction_toReal hreduction, fun hne => absurd hrank hne,
    fun _ _ _ => sharpMultipliers_toReal hmultipliers hflat⟩

end Problem

end ElasticLayout
