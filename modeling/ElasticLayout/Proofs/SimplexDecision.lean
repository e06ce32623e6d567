import ElasticLayout.Proofs.SharpPhaseOne

/-!
# The simplex method decides feasibility

The tests of the simplex method cannot tell a positive entry within the tolerance from zero.  Where
no tableau of a run has such an entry, the answer is right: a point that is returned keeps every
hard row within the tolerance, and if there is said to be none, no point keeps all hard rows.  The
exit of a column without a line to pivot in is never taken.

* `Tableau.IsClear`, `Tableau.Visits` -- no entry is in the band of the tolerance, and the tableaux
  of a run;
* `Tableau.sharpPivots_of_isClear` -- such a run is sharp;
* `Problem.withoutSoft` -- the soft rows play no part;
* `Problem.feasiblePoint_decides` -- the main result;
* `clash`, `Problem.feasiblePoint_decides_clash` -- bounds that contradict each other.
-/

namespace ElasticLayout

open Linear

namespace Tableau

variable {n h width : ℕ} {t u : Tableau n h width ℝ} {row : Fin h} {column : Fin width}

/-! ### Clear runs -/

/-- No cost and no entry of a line is positive and within the tolerance. -/
structure IsClear (t : Tableau n h width ℝ) : Prop where
  costs : ∀ k, t.objective.cells.get k ∉ Set.Ioc 0 Scalar.tolerance
  entries : ∀ i k, (t.lines.get i).cells.get k ∉ Set.Ioc 0 Scalar.tolerance

/-- A run of at most so many pivots comes to a tableau. -/
inductive Visits : ℕ → Tableau n h width ℝ → Tableau n h width ℝ → Prop where
  | now {pivots : ℕ} {t : Tableau n h width ℝ} : Visits pivots t t
  | later {pivots : ℕ} {t u : Tableau n h width ℝ} {column : Fin width} {row : Fin h} :
    t.pivotColumn? = some column → t.pivotRow? column = some row →
    Visits pivots (t.pivot row column) u → Visits (pivots + 1) t u

theorem sharpAbove_iff {a : ℝ} : SharpAbove a ↔ a ∉ Set.Ioc 0 Scalar.tolerance := by
  unfold SharpAbove
  rw [Set.mem_Ioc, not_and, not_le]

/-- **A run through clear tableaux is sharp.** -/
theorem sharpPivots_of_isClear {pivots : ℕ} (hclear : ∀ u, t.Visits pivots u → u.IsClear) :
    SharpPivots pivots t := by
  have hnow := hclear t .now
  induction pivots generalizing t with
  | zero => exact fun k => sharpAbove_iff.2 (hnow.costs k)
  | succ pivots ih =>
    refine ⟨fun k => sharpAbove_iff.2 (hnow.costs k), fun column hcolumn =>
      ⟨fun i => sharpAbove_iff.2 (hnow.entries i column), fun row hrow => ?_⟩⟩
    exact ih (fun u hu => hclear u (.later hcolumn hrow hu)) (hclear _ (.later hcolumn hrow .now))

end Tableau

/-! ### The decision -/

namespace Problem

/-- The hard rows alone. -/
def withoutSoft (p : Problem ℝ) : Problem ℝ := { p with soft := [] }

variable {p : Problem ℝ}

theorem feasiblePoint_withoutSoft (maxIterations : ℕ) :
    p.withoutSoft.feasiblePoint maxIterations = p.feasiblePoint maxIterations := by
  have htableau : p.withoutSoft.tableau? = p.tableau? := rfl
  unfold feasiblePoint
  rw [htableau]
  cases p.tableau? with
  | none => rfl
  | some first => rfl

theorem rowsFit_withoutSoft
    (hfits : ∀ row ∈ p.hard, row.coefficients.length ≤ p.variableCount) :
    p.withoutSoft.RowsFit := ⟨hfits, by simp [withoutSoft]⟩

/-- A sharp run returns a point only if it keeps the hard rows within the tolerance. -/
theorem violation_feasiblePoint_le (hfits : p.RowsFit) {maxIterations : ℕ}
    (hsharp : ∀ first, p.tableau? = some first → Tableau.SharpPivots maxIterations first)
    {x : p.Point} (hx : p.feasiblePoint maxIterations = .ok x) (r : p.Row) :
    (p.row r).violation x.toList ≤ Scalar.tolerance := by
  obtain hlimit | ⟨first, last, hfirst, hends, houtcome⟩ := feasiblePoint_cases hfits hsharp
  · exact absurd (hx.symm.trans hlimit) (by simp)
  rw [houtcome] at hx
  split at hx
  · exact absurd hx (by simp)
  rename_i hsmall
  obtain rfl := Except.ok.inj hx
  refine violation_point_le hfits (holds_tableauLine_of_solves hfirst hends.solves_basicValue)
    hends.priced.basicValue_nonneg ?_ (fun k hk => ?_) r
  · rw [Scalar.tolerance_eq]
    norm_num
  · rw [← (tableau?_eq_some hfirst).2.2.1, ← hends.start] at hk
    calc last.basicValue k ≤ |last.basicValue k| := le_abs_self _
      _ ≤ last.infeasibility := hends.priced.basic.abs_basicValue_le hk
      _ ≤ Scalar.tolerance := not_lt.1 hsmall

/-- A sharp run says that there is no point only if there is none. -/
theorem not_holds_of_feasiblePoint (hfits : p.RowsFit) {maxIterations : ℕ}
    (hsharp : ∀ first, p.tableau? = some first → Tableau.SharpPivots maxIterations first)
    (hnone : p.feasiblePoint maxIterations = .error .noFeasiblePoint) (y : p.Point) :
    ¬p.Holds y := by
  intro hy
  obtain hlimit | ⟨x, hx, -⟩ := feasiblePoint_of_holds hfits hy hsharp
  · exact absurd (hnone.symm.trans hlimit) (by simp)
  · exact absurd (hnone.symm.trans hx) (by simp)

/-- **The simplex method decides** whether the hard rows can be kept, in a run without entries in
the band of the tolerance: a point that it returns violates no hard row by more than the tolerance,
and where it says that there is no point, there is none.  It gives one of these answers or reaches
its limit. -/
theorem feasiblePoint_decides
    (hfits : ∀ row ∈ p.hard, row.coefficients.length ≤ p.variableCount) {maxIterations : ℕ}
    (hclear : ∀ first t, p.tableau? = some first → first.Visits maxIterations t → t.IsClear) :
    (∀ x, p.feasiblePoint maxIterations = .ok x →
      ∀ row ∈ p.hard, row.violation x.toList ≤ Scalar.tolerance) ∧
    (p.feasiblePoint maxIterations = .error .noFeasiblePoint → ∀ y, ¬p.Holds y) ∧
    ((∃ x, p.feasiblePoint maxIterations = .ok x) ∨
      p.feasiblePoint maxIterations = .error .noFeasiblePoint ∨
      p.feasiblePoint maxIterations = .error (.iterationLimit maxIterations)) := by
  have hfits' := rowsFit_withoutSoft hfits
  have hsharp : ∀ first, p.withoutSoft.tableau? = some first →
      Tableau.SharpPivots maxIterations first := fun first hfirst =>
    Tableau.sharpPivots_of_isClear fun t ht => hclear first t hfirst ht
  have hsame := feasiblePoint_withoutSoft (p := p) maxIterations
  refine ⟨fun x hx row hrow => ?_, fun hnone y => ?_, ?_⟩
  · obtain ⟨r, rfl⟩ := List.get_of_mem hrow
    exact violation_feasiblePoint_le hfits' hsharp (hsame.trans hx) r
  · exact not_holds_of_feasiblePoint hfits' hsharp (hsame.trans hnone) y
  · obtain hlimit | ⟨first, last, -, -, houtcome⟩ := feasiblePoint_cases hfits' hsharp
    · exact .inr (.inr (hsame.symm.trans hlimit))
    · split at houtcome
      · exact .inr (.inl (hsame.symm.trans houtcome))
      · exact .inl ⟨_, hsame.symm.trans houtcome⟩

end Problem

/-! ### Bounds that contradict each other -/

/-- A variable that has to be at least one and at most zero. -/
def clash : Problem ℝ where
  variableCount := 1
  hard := [⟨[1], .ge, 1⟩, ⟨[1], .le, 0⟩]
  soft := []

namespace Tableau

/-- A tableau whose cells and costs are all zero, one or minus one is clear. -/
theorem isClear_of_units {n h width : ℕ} {t : Tableau n h width ℝ} {costs : List ℝ}
    (cells : Fin h → List ℝ) (hcosts : ∀ k, t.objective.cells.get k = costs.getD k 0)
    (hcells : ∀ i k, (t.lines.get i).cells.get k = (cells i).getD k 0)
    (hunits : ∀ units, units = costs ∨ (∃ i, units = cells i) →
      ∀ a ∈ units, a = -1 ∨ a = 0 ∨ a = 1) : t.IsClear := by
  have hclear : ∀ units, units = costs ∨ (∃ i, units = cells i) → ∀ k : ℕ,
      units.getD k 0 ∉ Set.Ioc 0 Scalar.tolerance := by
    rintro units hlisted k ⟨hpos, hle⟩
    rw [Scalar.tolerance_eq] at hle
    have hunit : units.getD k 0 = -1 ∨ units.getD k 0 = 0 ∨ units.getD k 0 = 1 := by
      by_cases hk : k < units.length
      · rw [List.getD_eq_getElem _ _ hk]
        exact hunits units hlisted _ (List.getElem_mem hk)
      · exact .inr (.inl (List.getD_eq_default _ _ (not_lt.1 hk)))
    rcases hunit with h | h | h <;> rw [h] at hpos hle <;> linarith
  refine ⟨fun k => ?_, fun i k => ?_⟩
  · rw [hcosts]
    exact hclear costs (.inl rfl) k
  · rw [hcells]
    exact hclear (cells i) (.inr ⟨i, rfl⟩) k

/-- The tableau that the simplex method begins with on the clash: one artificial variable, of the
lower bound. -/
structure BeginsClash {w : ℕ} (t : Tableau 1 2 w ℝ) : Prop where
  artificialStart : t.artificialStart = 4
  up : ∀ k : Fin w, (t.lines.get 0).cells.get k = [1, -1, -1, 0, 1].getD k 0
  down : ∀ k : Fin w, (t.lines.get 1).cells.get k = [1, -1, 0, 1, 0].getD k 0
  rhs_up : (t.lines.get 0).rhs = 1
  rhs_down : (t.lines.get 1).rhs = 0
  basis : t.basis.get 0 = 4
  costs : ∀ k : Fin w, t.objective.cells.get k = [1, -1, -1, 0, 0].getD k 0

namespace BeginsClash

variable {t : Tableau 1 2 5 ℝ}

theorem isClear (h : t.BeginsClash) : t.IsClear :=
  isClear_of_units ![[1, -1, -1, 0, 1], [1, -1, 0, 1, 0]] h.costs
    (Fin.forall_fin_two.2 ⟨h.up, h.down⟩) (by simp)

theorem pivotColumn? (h : t.BeginsClash) : t.pivotColumn? = some 0 := by
  have hcolumns : List.finRange 5 = [0, 1, 2, 3, 4] := rfl
  unfold Tableau.pivotColumn?
  rw [hcolumns]
  simp only [List.foldl_cons, List.foldl_nil, h.costs]
  norm_num

/-- The upper bound is reached first. -/
theorem pivotRow? (h : t.BeginsClash) : t.pivotRow? 0 = some 1 := by
  have hrows : List.finRange 2 = [0, 1] := rfl
  unfold Tableau.pivotRow?
  rw [hrows]
  simp only [List.foldl_cons, List.foldl_nil, h.up, h.down, h.rhs_up, h.rhs_down,
    Scalar.tolerance_eq]
  norm_num [improves, Scalar.isFinite]

theorem pivot_costs (h : t.BeginsClash) (k : Fin 5) :
    (t.pivot 1 0).objective.cells.get k = [0, 0, -1, -1, 0].getD k 0 := by
  show (Line.clear 0 ((t.lines.get 1).divide ((t.lines.get 1).cells.get 0))
    t.objective).cells.get k = _
  rw [Line.get_clear, Line.get_divide, h.down, h.costs, h.costs, h.down]
  fin_cases k <;> norm_num

theorem pivot_up (h : t.BeginsClash) (k : Fin 5) :
    ((t.pivot 1 0).lines.get 0).cells.get k = [0, 0, -1, -1, 1].getD k 0 := by
  rw [get_lines_pivot, if_neg (by decide), Line.get_clear, Line.get_divide, h.down, h.up, h.up,
    h.down]
  fin_cases k <;> norm_num

theorem pivot_down (h : t.BeginsClash) (k : Fin 5) :
    ((t.pivot 1 0).lines.get 1).cells.get k = [1, -1, 0, 1, 0].getD k 0 := by
  rw [get_lines_pivot, if_pos rfl, Line.get_divide, h.down, h.down]
  exact div_one _

theorem isClear_pivot (h : t.BeginsClash) : (t.pivot 1 0).IsClear :=
  isClear_of_units ![[0, 0, -1, -1, 1], [1, -1, 0, 1, 0]] h.pivot_costs
    (Fin.forall_fin_two.2 ⟨h.pivot_up, h.pivot_down⟩) (by simp)

/-- After one pivot no cost is positive. -/
theorem pivotColumn?_pivot (h : t.BeginsClash) : (t.pivot 1 0).pivotColumn? = none := by
  have hcolumns : List.finRange 5 = [0, 1, 2, 3, 4] := rfl
  unfold Tableau.pivotColumn?
  rw [hcolumns]
  simp only [List.foldl_cons, List.foldl_nil, h.pivot_costs]
  norm_num

/-- The artificial variable stays in the basis, at one. -/
theorem infeasibility_pivot (h : t.BeginsClash) : (t.pivot 1 0).infeasibility = 1 := by
  have hrows : List.finRange 2 = [0, 1] := rfl
  have hartificial : (List.finRange 2).filter (fun i =>
      (t.pivot 1 0).artificialStart ≤ (t.pivot 1 0).basis.get i) = [0] := by
    rw [hrows]
    show List.filter (fun i => decide (t.artificialStart ≤ (t.pivot 1 0).basis.get i)) _ = _
    simp [get_basis_pivot, h.artificialStart, h.basis]
  unfold infeasibility
  rw [hartificial, Scalar.sum_eq]
  show |((t.pivot 1 0).lines.get 0).rhs| + 0 = 1
  rw [get_lines_pivot, if_neg (by decide), Line.rhs_clear, Line.rhs_divide, h.down, h.rhs_up,
    h.rhs_down, h.up]
  norm_num

theorem isClear_of_visits (h : t.BeginsClash) {pivots : ℕ} {u : Tableau 1 2 5 ℝ}
    (hu : t.Visits pivots u) : u.IsClear := by
  cases hu with
  | now => exact h.isClear
  | later hcolumn hrow hu =>
    obtain rfl := Option.some.inj (h.pivotColumn?.symm.trans hcolumn)
    obtain rfl := Option.some.inj (h.pivotRow?.symm.trans hrow)
    cases hu with
    | now => exact h.isClear_pivot
    | later hcolumn => exact absurd (h.pivotColumn?_pivot.symm.trans hcolumn) (by simp)

theorem reduce (h : t.BeginsClash) (limit pivots : ℕ) :
    t.reduce limit (pivots + 1) = .ok (t.pivot 1 0) := by
  unfold Tableau.reduce
  rw [h.pivotColumn?]
  dsimp only
  rw [h.pivotRow?]
  cases pivots <;> simp [Tableau.reduce, h.pivotColumn?_pivot]

end BeginsClash

/-- A run that begins on the clash is clear, and its artificial variable stays at one. -/
theorem BeginsClash.run {w : ℕ} {t : Tableau 1 2 w ℝ} (h : t.BeginsClash) (hw : w = 5)
    (pivots : ℕ) : (∀ u, t.Visits pivots u → u.IsClear) ∧ ∀ limit, ∃ last,
      t.reduce limit (pivots + 1) = .ok last ∧ last.infeasibility = 1 := by
  subst hw
  exact ⟨fun u hu => h.isClear_of_visits hu,
    fun limit => ⟨_, h.reduce limit pivots, h.infeasibility_pivot⟩⟩

end Tableau

namespace Problem

/-- The row that keeps the variable up. -/
def keepsUp : clash.Row := ⟨0, Nat.zero_lt_two⟩

/-- The row that keeps the variable down. -/
def keepsDown : clash.Row := ⟨1, Nat.one_lt_two⟩

theorem rowsFit_clash : clash.RowsFit := ⟨by simp [clash], by simp [clash]⟩

theorem needsArtificial_clash : (clash.row keepsUp).needsArtificial = true ∧
    (clash.row keepsDown).needsArtificial = false ∧ (clash.row keepsUp).flip = 1 ∧
    (clash.row keepsDown).flip = 1 := by
  have hflip : (clash.row keepsUp).flip = 1 := if_neg (by show ¬(1 : ℝ) < 0; norm_num)
  have hflip' : (clash.row keepsDown).flip = 1 := if_neg (lt_irrefl (0 : ℝ))
  refine ⟨?_, ?_, hflip, hflip'⟩
  · show (!decide (0 < -(clash.row keepsUp).flip)) = true
    rw [hflip, decide_eq_false (by norm_num)]
    rfl
  · show (!decide (0 < (clash.row keepsDown).flip)) = false
    rw [hflip']
    simp

theorem tableauWidth_clash : clash.tableauWidth = 5 := by
  obtain ⟨hneeds, hneeds', -, -⟩ := needsArtificial_clash
  have hcount : clash.artificialCount 2 = 1 := by
    show List.countP _ [clash.row keepsUp, clash.row keepsDown] = 1
    rw [List.countP_cons_of_pos hneeds, List.countP_cons_of_neg (by simp [hneeds']),
      List.countP_nil]
  show 4 + clash.artificialCount 2 = 5
  rw [hcount]

/-- The cells of the first tableau. -/
theorem get_tableauLine_clash (k : Fin clash.tableauWidth) :
    (clash.tableauLine keepsUp).cells.get k = [1, -1, -1, 0, 1].getD k 0 ∧
      (clash.tableauLine keepsDown).cells.get k = [1, -1, 0, 1, 0].getD k 0 := by
  obtain ⟨hneeds, hneeds', hflip, hflip'⟩ := needsArtificial_clash
  have hk : k.val < 5 := tableauWidth_clash ▸ k.isLt
  constructor
  · rw [get_tableauLine rowsFit_clash, partEntry_eq rowsFit_clash, hneeds, hflip]
    show 1 * ([(1 : ℝ)].getD k 0 - if 1 ≤ k.val then [(1 : ℝ)].getD (k - 1) 0 else 0)
      + (if k.val = 2 then Option.getD (some (-(clash.row keepsUp).flip)) 0 else 0)
      + (if k.val = 4 then _ else 0) = _
    rw [hflip]
    generalize k.val = k at hk
    interval_cases k <;> norm_num
  · rw [get_tableauLine rowsFit_clash, partEntry_eq rowsFit_clash, hneeds', hflip']
    show 1 * ([(1 : ℝ)].getD k 0 - if 1 ≤ k.val then [(1 : ℝ)].getD (k - 1) 0 else 0)
      + (if k.val = 3 then Option.getD (some (clash.row keepsDown).flip) 0 else 0)
      + (if k.val = _ then (if false = true then (1 : ℝ) else 0) else 0) = _
    rw [hflip', if_neg (by simp : ¬false = true), ite_self]
    generalize k.val = k at hk
    interval_cases k <;> norm_num

/-- The costs of the first tableau are those of the one artificial variable. -/
theorem get_costs_clash
    {first : Tableau clash.variableCount clash.hard.length clash.tableauWidth ℝ}
    (hfirst : clash.tableau? = some first) (k : Fin clash.tableauWidth) :
    first.objective.cells.get k = [1, -1, -1, 0, 0].getD k 0 := by
  obtain ⟨hneeds, hneeds', -, -⟩ := needsArtificial_clash
  obtain ⟨hlines, -, -, -⟩ := tableau?_eq_some hfirst
  have hk : k.val < 5 := tableauWidth_clash ▸ k.isLt
  have hsum : (∑ r : clash.Row, if (clash.row r).needsArtificial
      then (first.lines.get r).cells.get k else 0) = [1, -1, -1, 0, 1].getD k 0 := by
    show (∑ r : Fin 2, _) = _
    rw [Fin.sum_univ_two]
    show (if (clash.row keepsUp).needsArtificial then (first.lines.get keepsUp).cells.get k else 0)
      + (if (clash.row keepsDown).needsArtificial
        then (first.lines.get keepsDown).cells.get k else 0) = _
    rw [if_pos hneeds, if_neg (by simp [hneeds']), hlines, (get_tableauLine_clash k).1, add_zero]
  rw [(objective_tableau? hfirst).1, hsum]
  show (if 4 ≤ k.val then -1 else 0) + [1, -1, -1, 0, 1].getD k.val 0
    = [1, -1, -1, 0, 0].getD k.val 0
  generalize k.val = k at hk
  interval_cases k <;> norm_num

theorem beginsClash
    {first : Tableau clash.variableCount clash.hard.length clash.tableauWidth ℝ}
    (hfirst : clash.tableau? = some first) : Tableau.BeginsClash first := by
  obtain ⟨hneeds, -, hflip, -⟩ := needsArtificial_clash
  obtain ⟨hlines, hbasis, hstart, -⟩ := tableau?_eq_some hfirst
  refine ⟨hstart, fun k => (hlines keepsUp).symm ▸ (get_tableauLine_clash k).1,
    fun k => (hlines keepsDown).symm ▸ (get_tableauLine_clash k).2, ?_, ?_, ?_,
    get_costs_clash hfirst⟩
  · show (first.lines.get keepsUp).rhs = 1
    rw [hlines]
    show (clash.row keepsUp).flip * 1 = 1
    rw [hflip, one_mul]
  · show (first.lines.get keepsDown).rhs = 0
    rw [hlines]
    show (clash.row keepsDown).flip * 0 = 0
    rw [mul_zero]
  · show first.basis.get keepsUp = 4
    rw [hbasis]
    exact if_pos hneeds

/-- A run on the clash is clear, and finds out. -/
theorem feasiblePoint_clash (maxIterations : ℕ) :
    (∀ first t, clash.tableau? = some first → first.Visits (maxIterations + 1) t → t.IsClear) ∧
      clash.feasiblePoint (maxIterations + 1) = .error .noFeasiblePoint := by
  refine ⟨fun first t hfirst ht =>
    ((beginsClash hfirst).run tableauWidth_clash (maxIterations + 1)).1 t ht, ?_⟩
  obtain ⟨first, hfirst⟩ := exists_tableau? rowsFit_clash
  have hrun : ∃ last, first.reduce (maxIterations + 1) (maxIterations + 1) = .ok last ∧
      last.infeasibility = 1 :=
    ((beginsClash hfirst).run tableauWidth_clash maxIterations).2 (maxIterations + 1)
  obtain ⟨last, hlast, hinfeasibility⟩ := hrun
  unfold feasiblePoint
  rw [hfirst]
  dsimp only
  rw [hlast]
  refine if_pos ?_
  rw [hinfeasibility, Scalar.tolerance_eq]
  norm_num

/-- The clash has no point, because the simplex method says so. -/
theorem feasiblePoint_decides_clash :
    (∀ row ∈ clash.hard, row.coefficients.length ≤ clash.variableCount) ∧
    (∀ first t, clash.tableau? = some first → first.Visits 10000 t → t.IsClear) ∧
    clash.feasiblePoint 10000 = .error .noFeasiblePoint ∧ ∀ y, ¬clash.Holds y := by
  obtain ⟨hclear, hnone⟩ := feasiblePoint_clash 9999
  obtain ⟨-, hdecides, -⟩ := feasiblePoint_decides rowsFit_clash.hard hclear
  exact ⟨rowsFit_clash.hard, hclear, hnone, hdecides hnone⟩

end Problem

end ElasticLayout
