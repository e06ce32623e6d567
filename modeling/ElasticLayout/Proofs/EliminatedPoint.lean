import Mathlib
import ElasticLayout.Proofs.Numbering
import ElasticLayout.Proofs.ReducedSystems

/-!
# The point that elimination finds

Every inequality has a slack of its own, so that the rows with their slacks have a solution if the
equalities have one.  The basic solution of the rows is then a solution of all of them, and the
point that it gives keeps the equalities, whatever the signs of the slacks.

* `Relation.slackSign`, `get_slackedCells`, `sum_slackedCells` -- a row with its slack;
* `Problem.withSlacks`, `sum_withSlacks` -- a point with the slacks that it needs;
* `Problem.SharpBasicPoint`, `Problem.exists_basicPoint_of_sharp` -- the point;
* `elimination_decides` -- elimination, and the point that comes from it;
* `sharpJordan_of_rows_le_one`, `sharpReduction_of_first` -- sharp tests on rows of few entries;
* `leaning`, `doubled`, `elimination_decides_leaning` -- a row that needs an exchange of columns,
  and an equality that is said twice.
-/

namespace ElasticLayout

open Linear

/-! ### Rows with slacks -/

/-- The coefficient of the slack of a row. -/
def Relation.slackSign : Relation → ℝ
  | .le => 1
  | .ge => -1
  | .eq => 0

/-- An equality holds where its two sides are equal. -/
theorem HardRow.holds_iff_of_isEquality {row : HardRow ℝ} (h : row.isEquality = true)
    {x : List ℝ} : row.Holds x ↔ row.value x = row.rhs := by
  unfold Holds
  rw [show row.relation = .eq from eq_of_beq h]
  rfl

namespace Problem

variable {p : Problem ℝ}

theorem slackSign_eq_zero {r : p.Row} (hr : (p.row r).isEquality = true) :
    (p.row r).relation.slackSign = 0 := by
  rw [show (p.row r).relation = .eq from eq_of_beq hr]
  rfl

theorem slackSign_mul_self {r : p.Row} (hr : (p.row r).isEquality = false) :
    (p.row r).relation.slackSign * (p.row r).relation.slackSign = 1 := by
  unfold HardRow.isEquality at hr
  cases h : (p.row r).relation with
  | le => exact one_mul 1
  | ge =>
    show (-1 : ℝ) * -1 = 1
    norm_num
  | eq => exact absurd hr (by simp [h])

/-- A row with its slack has its coefficients, and that of the slack in a column of its own. -/
theorem get_slackedCells {r : p.Row} (hr : (p.row r).coefficients.length = p.variableCount)
    {width : ℕ} (k : Fin width) :
    (p.slackedCells r width).get k = (p.row r).coefficients.getD k 0
      + if k.val = p.slackColumn r then (p.row r).relation.slackSign else 0 := by
  unfold slackedCells
  dsimp only
  rw [get_ofFn]
  split
  · rename_i hk
    have hbehind : (p.row r).coefficients.getD k 0 = 0 := by
      rw [List.getD_eq_default]
      rw [hr, hk]
      exact Nat.le_add_right _ _
    rw [hbehind, zero_add]
    cases (p.row r).relation with
    | le => rfl
    | ge => rfl
    | eq => rfl
  · rw [add_zero]

/-- The value of a row with its slack. -/
theorem sum_slackedCells {r : p.Row} (hr : (p.row r).coefficients.length = p.variableCount)
    {x : p.Point} {z : Fin (p.variableCount + p.hard.length) → ℝ}
    (hx : ∀ j : Fin p.variableCount, x.get j = z (j.castAdd p.hard.length)) :
    ∑ k, (p.slackedCells r (p.variableCount + p.hard.length)).get k * z k
      = (p.row r).value x.toList
        + (p.row r).relation.slackSign * z ⟨p.slackColumn r, p.slackColumn_lt r⟩ := by
  have hslack : ∑ k : Fin (p.variableCount + p.hard.length),
      (if k.val = p.slackColumn r then (p.row r).relation.slackSign else 0) * z k
        = (p.row r).relation.slackSign * z ⟨p.slackColumn r, p.slackColumn_lt r⟩ := by
    rw [Fintype.sum_eq_single ⟨p.slackColumn r, p.slackColumn_lt r⟩]
    · rw [if_pos rfl]
    · intro k hk
      rw [if_neg fun heq => hk (Fin.ext heq), zero_mul]
  have hvalue : ∑ k : Fin (p.variableCount + p.hard.length),
      (p.row r).coefficients.getD k 0 * z k = (p.row r).value x.toList := by
    unfold HardRow.value
    rw [Fin.sum_univ_add, dot_getD]
    simp only [hx]
    refine add_eq_left.2 (Finset.sum_eq_zero fun j _ => ?_)
    rw [List.getD_eq_default, zero_mul]
    rw [hr]
    exact Nat.le_add_right _ _
  simp only [get_slackedCells hr, add_mul, Finset.sum_add_distrib, hslack, hvalue]

/-- **The system of the hard rows** is solved by what meets each row with its slack. -/
theorem exists_slackSystem?
    (hfull : ∀ row ∈ p.hard, row.coefficients.length = p.variableCount) :
    ∃ system, p.slackSystem? = some system ∧ system.Permuted ∧
      ∀ z, system.IsSolution z ↔ ∀ r : p.Row,
        ∑ k, (p.slackedCells r (p.variableCount + p.hard.length)).get k * z k
          = (p.row r).rhs := by
  have hlength : p.hard.all (fun row =>
      row.coefficients.length ≤ p.variableCount + p.hard.length) = true := by
    refine List.all_eq_true.2 fun row hrow => decide_eq_true ?_
    rw [hfull row hrow]
    exact Nat.le_add_right _ _
  refine ⟨_, if_pos hlength, EquationSystem.permuted_ofCells _ _, fun z => ?_⟩
  rw [EquationSystem.isSolution_ofCells]
  refine forall_congr' fun r => ?_
  unfold Dense.entry
  rw [get_ofFn, get_ofFn]

/-! ### A point with its slacks -/

/-- A point with the slacks that its rows need, on the columns of the system. -/
noncomputable def withSlacks (p : Problem ℝ) (y : p.Point)
    (k : Fin (p.variableCount + p.hard.length)) : ℝ :=
  if h : k.val < p.variableCount then y.get ⟨k.val, h⟩
  else ∑ r : p.Row, if k.val = p.slackColumn r then
    (p.row r).relation.slackSign * ((p.row r).rhs - (p.row r).value y.toList) else 0

theorem withSlacks_castAdd (y : p.Point) (j : Fin p.variableCount) :
    p.withSlacks y (j.castAdd p.hard.length) = y.get j := by
  unfold withSlacks
  exact dif_pos j.isLt

/-- The slack of a row makes up for what its value lacks. -/
theorem slack_withSlacks {r : p.Row} (hr : (p.row r).isEquality = false) (y : p.Point) :
    (p.row r).relation.slackSign * p.withSlacks y ⟨p.slackColumn r, p.slackColumn_lt r⟩
      = (p.row r).rhs - (p.row r).value y.toList := by
  have hbehind : ¬p.slackColumn r < p.variableCount := not_lt.2 (Nat.le_add_right _ _)
  unfold withSlacks
  rw [dif_neg hbehind, Fintype.sum_eq_single r]
  · rw [if_pos rfl, ← mul_assoc, slackSign_mul_self hr, one_mul]
  · intro q hq
    -- Another row has another column, or a slack that does not count.
    cases hequality : (p.row q).isEquality with
    | true => rw [slackSign_eq_zero hequality, zero_mul, ite_self]
    | false =>
      rw [if_neg fun heq => hq (slackColumn_injective hr hequality heq.symm)]

/-- **A point that keeps the equalities solves all rows with its slacks.** -/
theorem sum_withSlacks (hfull : ∀ row ∈ p.hard, row.coefficients.length = p.variableCount)
    {y : p.Point} (hy : ∀ row ∈ p.hard, row.isEquality = true → row.Holds y.toList) (r : p.Row) :
    ∑ k, (p.slackedCells r (p.variableCount + p.hard.length)).get k * p.withSlacks y k
      = (p.row r).rhs := by
  have hmem : p.row r ∈ p.hard := List.get_mem ..
  rw [sum_slackedCells (hfull _ hmem) fun j => (withSlacks_castAdd y j).symm]
  cases hequality : (p.row r).isEquality with
  | false => rw [slack_withSlacks hequality, add_sub_cancel]
  | true =>
    rw [slackSign_eq_zero hequality, zero_mul, add_zero]
    exact (HardRow.holds_iff_of_isEquality hequality).1 (hy _ hmem hequality)

/-! ### The point -/

/-- Every test on the way to the basic point is sharp. -/
def SharpBasicPoint (p : Problem ℝ) : Prop :=
  ∀ system, p.slackSystem? = some system → system.SharpReducing

/-- **Elimination finds a point**, and it keeps the equalities if anything does. -/
theorem exists_basicPoint_of_sharp
    (hfull : ∀ row ∈ p.hard, row.coefficients.length = p.variableCount)
    (hsharp : p.SharpBasicPoint) : ∃ x, p.basicPoint = .ok (some x) ∧
      ((∃ y : p.Point, ∀ row ∈ p.hard, row.isEquality = true → row.Holds y.toList) →
        ∀ row ∈ p.hard, row.isEquality = true → row.Holds x.toList) := by
  obtain ⟨system, hsystem, hpermuted, hvalues⟩ := exists_slackSystem? hfull
  obtain ⟨hsolved, hsolution⟩ :=
    EquationSystem.gaussJordan_of_sharpReducing hpermuted (hsharp system hsystem)
  obtain ⟨reduced, hreduced⟩ : ∃ reduced,
      reduced = system.removeDependentRows.removeUnusedColumns.gaussJordan := ⟨_, rfl⟩
  rw [← hreduced] at hsolved hsolution
  have hreducedPermuted : reduced.1.Permuted :=
    hreduced ▸ (hpermuted.removeDependentRows.dropUnused _ _).gaussJordan
  refine ⟨reduced.1.basicSolution p.variableCount, ?_, ?_⟩
  · unfold basicPoint
    rw [hsystem]
    dsimp only
    rw [← hreduced, if_pos hsolved]
  · rintro ⟨y, hy⟩ row hrow hequality
    have hall := (hvalues _).1 (hsolution _ ((hvalues _).2 (sum_withSlacks hfull hy)))
    obtain ⟨r, rfl⟩ := List.get_of_mem hrow
    have hcut : ∀ j : Fin p.variableCount, (reduced.1.basicSolution p.variableCount).get j
        = (reduced.1.basicSolution _).get (j.castAdd p.hard.length) := fun j =>
      EquationSystem.get_basicSolution_eq hreducedPermuted rfl (by exact (j.castAdd _).isLt)
    have hr := hall r
    rw [sum_slackedCells (hfull _ hrow) hcut, slackSign_eq_zero hequality, zero_mul,
      add_zero] at hr
    exact (HardRow.holds_iff_of_isEquality hequality).2 hr

end Problem

/-- **Elimination in exact arithmetic.**  Where every number that it compares with zero is sharp, it
succeeds if and only if the active rows are independent, and then it returns a reduced form with
the same solutions.  Where the tests on the way to the basic point are sharp too, there is a basic
point, and it keeps the equalities if anything does. -/
theorem elimination_decides :
    (∀ (R C : ℕ) (s : EquationSystem R C ℝ), s.Built → s.SharpJordan →
      (s.gaussJordan.2 = true ↔ LinearIndependent ℝ s.activeCells.entry) ∧
        (s.gaussJordan.2 = true → s.Reduced s.gaussJordan.1)) ∧
    ∀ p : Problem ℝ, (∀ row ∈ p.hard, row.coefficients.length = p.variableCount) →
      p.SharpBasicPoint → ∃ x, p.basicPoint = .ok (some x) ∧
        ((∃ y : p.Point, ∀ row ∈ p.hard, row.isEquality = true → row.Holds y.toList) →
          ∀ row ∈ p.hard, row.isEquality = true → row.Holds x.toList) :=
  ⟨fun _ _ _ hbuilt hsharp => ⟨EquationSystem.gaussJordan_iff hbuilt.permuted hsharp,
      EquationSystem.reduced_gaussJordan hbuilt.permuted hsharp⟩,
    fun _ => Problem.exists_basicPoint_of_sharp⟩

/-! ### Two equalities that depend on each other -/

namespace EquationSystem

variable {R C : ℕ} {s t : EquationSystem R C ℝ}

/-- Where all cells are sharp, so is the search for a pivot. -/
theorem sharpPivot_of_cells (hcells : ∀ r k, Sharp (s.cells.entry r k)) (i : Fin R) (c : Fin C) :
    s.SharpPivot i c :=
  ⟨fun _ _ _ => hcells _ _, fun _ _ _ _ => hcells _ _⟩

/-- Where all cells are sharp, so are the tests for unused columns. -/
theorem sharpDropping_of_cells (hcells : ∀ r k, Sharp (s.cells.entry r k)) (c count : ℕ) :
    s.SharpDropping c count := by
  induction count generalizing s c with
  | zero => trivial
  | succ count ih =>
    exact fun h => ⟨fun _ _ _ => hcells _ _, fun _ => ih hcells _,
      fun _ => ih (s := s.dropColumn _ h) hcells _⟩

theorem cells_dropUnused (s : EquationSystem R C ℝ) (c count : ℕ) :
    (s.dropUnused c count).cells = s.cells := by
  induction count generalizing s c with
  | zero => rfl
  | succ count ih =>
    unfold dropUnused
    split
    · dsimp only
      split
      · exact ih s _
      · exact ih _ _
    · rfl

/-- At most one active row. -/
theorem activeRows_of_rows_le_one (h : s.rows ≤ 1) :
    s.activeRows = [] ∨ ∃ i : Fin R, i.val = 0 ∧ s.activeRows = [i] := by
  have hrows := s.map_val_activeRows
  obtain hzero | hone : s.rows = 0 ∨ s.rows = 1 := by omega
  · rw [hzero] at hrows
    exact .inl (List.map_eq_nil_iff.1 hrows)
  · rw [hone] at hrows
    obtain ⟨i, hi, hval⟩ := List.map_eq_singleton_iff.1 hrows
    exact .inr ⟨i, hval, hi⟩

/-- **One row has only a pivot to search for.** -/
theorem sharpJordan_of_rows_le_one (h : s.rows ≤ 1) (hcells : ∀ r k, Sharp (s.cells.entry r k)) :
    s.SharpJordan := by
  refine ⟨?_, fun t ht => ?_⟩
  · obtain hnone | ⟨i, hi, hone⟩ := activeRows_of_rows_le_one h
    · rw [hnone]
      trivial
    · rw [hone]
      refine fun hlt => ⟨sharpPivot_of_cells hcells _ _, fun t ht => ⟨?_, trivial⟩⟩
      have hothers : t.activeRows.filter (i < ·) = [] := by
        refine List.filter_eq_nil_iff.2 fun r hr hir => ?_
        have hr := mem_activeRows.1 hr
        rw [(sameShape_bringPivot? ht).rows] at hr
        have hir := Fin.lt_def.1 (of_decide_eq_true hir)
        omega
      rw [hothers]
      trivial
  · have htrows : t.rows ≤ 1 := by
      obtain ⟨hshape, -⟩ := lt_of_eliminateDown ht
      rwa [hshape.rows]
    obtain hnone | ⟨i, hi, hone⟩ := activeRows_of_rows_le_one htrows
    · rw [hnone]
      trivial
    · rw [hone]
      refine ⟨fun hlt => ?_, trivial⟩
      have hothers : (List.finRange R).filter (· < i) = [] := by
        refine List.filter_eq_nil_iff.2 fun r _ hri => ?_
        have hri := Fin.lt_def.1 (of_decide_eq_true hri)
        omega
      rw [hothers]
      trivial

end EquationSystem

namespace Linear

variable {m n : ℕ}

/-- A reduction passes over columns of zeros. -/
theorem Reduction.foldl_step_of_zero {s : Reduction m n ℝ} {columns : List (Fin n)}
    (h : ∀ k ∈ columns, ∀ r ∈ s.rest, s.cells.entry r k = 0) :
    s.SharpOver columns ∧ columns.foldl Reduction.step s = s := by
  induction columns with
  | nil => exact ⟨trivial, rfl⟩
  | cons column columns ih =>
    have hzero := h column List.mem_cons_self
    have hstep : s.step column = s := step_of_zero hzero
    obtain ⟨hsharp, hrest⟩ := ih fun k hk => h k (List.mem_cons_of_mem _ hk)
    refine ⟨⟨fun p others hpivot _ => ?_, by rwa [hstep]⟩, by rwa [List.foldl_cons, hstep]⟩
    exact hzero p ((pivot?_perm hpivot).mem_iff.1 List.mem_cons_self)

/-- **Rows with entries in the first column only**: rank detection chooses one of them at most. -/
theorem sharpReduction_of_first {a : Dense m (n + 1) ℝ} (hfirst : ∀ r, Sharp (a.entry r 0))
    (hrest : ∀ r, ∀ k ≠ 0, a.entry r k = 0) :
    SharpReduction a ∧ (independentRows a).length ≤ 1 := by
  obtain ⟨s, hs⟩ : ∃ s, s = (Reduction.ofDense a).step 0 := ⟨_, rfl⟩
  have hstep : s.chosen.length ≤ 1 ∧ ∀ k ≠ 0, ∀ r ∈ s.rest, s.cells.entry r k = 0 := by
    obtain ⟨hsame, -⟩ | ⟨p, others, -, hentry, hchosen, hothers, hcells⟩ :=
      Reduction.step_cases (Reduction.ofDense a) 0
    · rw [hs, hsame]
      exact ⟨Nat.zero_le 1, fun k hk r _ => hrest r k hk⟩
    · rw [hs, hchosen, hothers]
      refine ⟨le_rfl, fun k hk r hr => ?_⟩
      unfold Dense.entry
      rw [hcells r hr, Reduction.get_eliminate hentry fun hlt => absurd hlt (Fin.not_lt_zero k)]
      show a.entry r k + a.entry p k * _ = 0
      rw [hrest r k hk, hrest p k hk, zero_mul, add_zero]
  have hbehind : ∀ k ∈ (List.finRange n).map Fin.succ, ∀ r ∈ s.rest, s.cells.entry r k = 0 := by
    intro k hk
    obtain ⟨j, -, rfl⟩ := List.mem_map.1 hk
    exact hstep.2 _ (Fin.succ_ne_zero j)
  obtain ⟨hsharp, hfoldl⟩ := Reduction.foldl_step_of_zero hbehind
  constructor
  · unfold SharpReduction
    rw [List.finRange_succ]
    exact ⟨fun p _ _ => hfirst p, hs ▸ hsharp⟩
  · have hreduced : reduceRows a = s := by
      unfold reduceRows
      rw [List.finRange_succ, List.foldl_cons, ← hs, hfoldl]
    rw [length_independentRows]
    unfold rank
    rw [hreduced]
    exact hstep.1

end Linear

attribute [local instance] atLeastTwo_two

/-- One equation, whose first unknown does not occur. -/
def leaning : EquationSystem 1 3 ℝ := .ofCells #v[#v[0, 2, 1]] #v[2]

/-- One variable that is one, said twice. -/
def doubled : Problem ℝ where
  variableCount := 1
  hard := [⟨[1], .eq, 1⟩, ⟨[2], .eq, 2⟩]
  soft := []

theorem sharpJordan_leaning : leaning.SharpJordan := by
  refine EquationSystem.sharpJordan_of_rows_le_one le_rfl fun r k => ?_
  fin_cases r
  fin_cases k
  · exact fun _ => rfl
  · exact sharp_of_le (show 1 / 1000000 ≤ |(2 : ℝ)| by norm_num)
  · exact sharp_of_le (show 1 / 1000000 ≤ |(1 : ℝ)| by norm_num)

theorem linearIndependent_leaning : LinearIndependent ℝ leaning.activeCells.entry := by
  refine (linearIndependent_unique_iff (ι := Fin 1)).2 fun hzero => ?_
  have htwo : (2 : ℝ) = 0 := congrFun hzero (1 : Fin 3)
  norm_num at htwo

/-- The rows of the doubled equality, with room for their slacks. -/
def stacked : EquationSystem 2 3 ℝ := .ofCells #v[#v[1, 0, 0], #v[2, 0, 0]] #v[1, 2]

theorem slackSystem?_doubled : doubled.slackSystem? = some stacked := by
  unfold Problem.slackSystem?
  exact if_pos rfl

theorem sharpReducing_stacked : stacked.SharpReducing := by
  have hrest : ∀ r, ∀ k ≠ 0, stacked.cells.entry r k = 0 := by
    intro r k hk
    fin_cases r
    all_goals
      fin_cases k
      · exact absurd rfl hk
      · rfl
      · rfl
  have hfirst : ∀ r, Sharp (stacked.cells.entry r 0) := by
    intro r
    fin_cases r
    · exact sharp_of_le (show 1 / 1000000 ≤ |(1 : ℝ)| by norm_num)
    · exact sharp_of_le (show 1 / 1000000 ≤ |(2 : ℝ)| by norm_num)
  have hsharp : ∀ r k, Sharp (stacked.cells.entry r k) := by
    intro r k
    by_cases hk : k = 0
    · rw [hk]
      exact hfirst r
    · exact fun _ => hrest r k hk
  obtain ⟨a, ha⟩ : ∃ a : Dense 2 3 ℝ, a = stacked.activeCells := ⟨_, rfl⟩
  have hentry : ∀ r k, a.entry r k = stacked.cells.entry r k := fun r k => by
    rw [ha]
    exact (stacked.entry_activeCells r k).trans (EquationSystem.cell_ofCells _ _ r k)
  obtain ⟨hrank, hlength⟩ := sharpReduction_of_first (fun r => (hentry r 0).symm ▸ hfirst r)
    fun r k hk => (hentry r k).trans (hrest r k hk)
  rw [ha] at hrank hlength
  have hdropping : stacked.removeDependentRows.SharpDropping 0
      stacked.removeDependentRows.columns :=
    EquationSystem.sharpDropping_of_cells (s := stacked.removeDependentRows) hsharp _ _
  refine ⟨hrank, hdropping, EquationSystem.sharpJordan_of_rows_le_one ?_ ?_⟩
  · unfold EquationSystem.removeUnusedColumns
    rw [EquationSystem.rows_dropUnused]
    exact hlength
  · unfold EquationSystem.removeUnusedColumns
    rw [EquationSystem.cells_dropUnused]
    exact hsharp

theorem sharpBasicPoint_doubled : doubled.SharpBasicPoint := by
  intro system hsystem
  obtain rfl := Option.some.inj (slackSystem?_doubled.symm.trans hsystem)
  exact sharpReducing_stacked

/-- A system that needs an exchange of columns is reduced, and the point of the doubled equality is
one. -/
theorem elimination_decides_leaning : (leaning.Built ∧ leaning.SharpJordan ∧
      leaning.gaussJordan.2 = true ∧ leaning.Reduced leaning.gaussJordan.1) ∧
    ((∀ row ∈ doubled.hard, row.coefficients.length = doubled.variableCount) ∧
      doubled.SharpBasicPoint ∧ ∃ x, doubled.basicPoint = .ok (some x) ∧
        ∀ row ∈ doubled.hard, row.isEquality = true → row.Holds x.toList) := by
  have hbuilt : leaning.Built := .ofCells _ _
  have hlength : ∀ row ∈ doubled.hard, row.coefficients.length = doubled.variableCount := by
    simp [doubled]
  obtain ⟨hiff, hreduced⟩ := elimination_decides.1 1 3 leaning hbuilt sharpJordan_leaning
  have hsolved := hiff.2 linearIndependent_leaning
  obtain ⟨x, hx, hholds⟩ := elimination_decides.2 doubled hlength sharpBasicPoint_doubled
  refine ⟨⟨hbuilt, sharpJordan_leaning, hsolved, hreduced hsolved⟩, hlength,
    sharpBasicPoint_doubled, x, hx, hholds ⟨#v[1], fun row hrow _ => ?_⟩⟩
  obtain rfl | hrow := List.mem_cons.1 hrow
  · show dot [1] [1] = (1 : ℝ)
    norm_num [dot_eq]
  · obtain rfl := List.mem_singleton.1 hrow
    show dot [2] [1] = (2 : ℝ)
    norm_num [dot_eq]

end ElasticLayout
