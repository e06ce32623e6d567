import ElasticLayout.Proofs.PhaseOne

/-!
# What the costs of a tableau measure

The first costs are the lines with an artificial variable, added up, less the artificial variables.
So at every solution of the lines they say how far the artificial variables are from vanishing, and
a pivot keeps that.  Nothing is asked of the right sides: where the ratio test passes over a line
and its right side falls below zero, the costs measure the same sum as before.

* `Tableau.artificialSum` -- the artificial variables, added up;
* `Tableau.Costed` -- a basic tableau whose costs, zero on the basic columns, measure that sum;
* `Tableau.Costed.pivot` -- a pivot keeps a tableau costed;
* `Tableau.Costed.rhs_objective` -- the value of the objective, read off the basic lines;
* `Problem.objective_tableau?`, `Problem.costed_tableau?` -- the first tableau.
-/

namespace ElasticLayout

open Linear

namespace Tableau

variable {n h width : ℕ} {t : Tableau n h width ℝ} {row : Fin h} {column : Fin width}

/-- The artificial variables, added up. -/
noncomputable def artificialSum (t : Tableau n h width ℝ) (z : Fin width → ℝ) : ℝ :=
  ∑ k, if t.artificialStart ≤ k.val then z k else 0

/-- In the basic solution they are the right sides of the lines in which they are basic. -/
theorem IsBasic.artificialSum_basicValue (ht : t.IsBasic) :
    t.artificialSum (fun k => t.basicValue k)
      = ∑ i, if t.artificialStart ≤ t.basis.get i then (t.lines.get i).rhs else 0 := by
  have hcolumn : ∀ k : Fin width, (if t.artificialStart ≤ k.val then t.basicValue k else 0)
      = ∑ i, if t.basis.get i = k.val then
          (if t.artificialStart ≤ t.basis.get i then (t.lines.get i).rhs else 0) else 0 := by
    intro k
    unfold basicValue
    split
    · rename_i hk
      refine Finset.sum_congr rfl fun i _ => ?_
      split
      · rename_i hi
        rw [hi, if_pos hk]
      · rfl
    · rename_i hk
      refine (Finset.sum_eq_zero fun i _ => ?_).symm
      split
      · rename_i hi
        rw [hi, if_neg hk]
      · rfl
  unfold artificialSum
  simp only [hcolumn]
  rw [Finset.sum_comm]
  refine Finset.sum_congr rfl fun i _ => ?_
  obtain ⟨k, hk, -⟩ := ht i
  rw [Finset.sum_eq_single k, if_pos hk]
  · exact fun l _ hl => if_neg fun hl' => hl (Fin.ext (hl'.symm.trans hk))
  · exact fun hmem => absurd (Finset.mem_univ k) hmem

/-! ### Costed tableaux -/

/-- A basic tableau whose costs, zero on the basic columns, measure how far the artificial variables
are from vanishing. -/
structure Costed (t : Tableau n h width ℝ) : Prop where
  basic : t.IsBasic
  costs : ∀ i (k : Fin width), t.basis.get i = k.val → t.objective.cells.get k = 0
  value : ∀ z, t.Solves z →
    ∑ k, t.objective.cells.get k * z k + t.artificialSum z = t.objective.rhs

namespace Costed

/-- Values spread over the basic columns cost nothing. -/
theorem sum_costs_spread (ht : t.Costed) (b : Fin h → ℝ) :
    ∑ k, t.objective.cells.get k * (∑ j, if t.basis.get j = k.val then b j else 0) = 0 := by
  refine Finset.sum_eq_zero fun k _ => ?_
  by_cases hk : ∃ i, t.basis.get i = k.val
  · obtain ⟨i, hi⟩ := hk
    rw [ht.costs i k hi, zero_mul]
  · rw [Finset.sum_eq_zero fun j _ => if_neg fun hj => hk ⟨j, hj⟩, mul_zero]

/-- The value of the objective is the sum of the artificial variables in the basic solution. -/
theorem artificialSum_eq (ht : t.Costed) :
    t.artificialSum (fun k => t.basicValue k) = t.objective.rhs := by
  have hvalue := ht.value _ ht.basic.solves
  have hcosts : ∑ k, t.objective.cells.get k * t.basicValue k = 0 :=
    ht.sum_costs_spread fun i => (t.lines.get i).rhs
  rwa [hcosts, zero_add] at hvalue

/-- **The value of the objective** is what the basic artificial variables amount to. -/
theorem rhs_objective (ht : t.Costed) : t.objective.rhs
    = ∑ i, if t.artificialStart ≤ t.basis.get i then (t.lines.get i).rhs else 0 := by
  rw [← ht.artificialSum_eq, ht.basic.artificialSum_basicValue]

/-- **A pivot keeps a tableau costed**, whatever its entry is, as long as it is not zero. -/
theorem pivot (ht : t.Costed) (hentry : (t.lines.get row).cells.get column ≠ 0) :
    (t.pivot row column).Costed := by
  obtain ⟨line, hline⟩ : ∃ line, line
      = (t.lines.get row).divide ((t.lines.get row).cells.get column) := ⟨_, rfl⟩
  have hobjective : (t.pivot row column).objective = line.clear column t.objective := by
    rw [hline]
    rfl
  have hone : line.cells.get column = 1 := by
    rw [hline, Line.get_divide, div_self hentry]
  refine ⟨isBasic_pivot ht.basic hentry, fun i k hk => ?_, fun z hz => ?_⟩
  · rw [get_basis_pivot] at hk
    rw [hobjective, Line.get_clear]
    by_cases hi : i = row
    · rw [if_pos hi] at hk
      rw [← Fin.ext hk, hone, mul_one, sub_self]
    · -- The pivot line has no entry in a column that is basic elsewhere.
      rw [if_neg hi] at hk
      obtain ⟨l, hl, hunit⟩ := ht.basic i
      obtain rfl : l = k := Fin.ext (hl.symm.trans hk)
      rw [ht.costs i l hk, hline, Line.get_divide, hunit, if_neg (Ne.symm hi), zero_div, mul_zero,
        sub_zero]
  · have holds : line.Holds z := by
      have hrow := hz row
      rwa [get_lines_pivot, if_pos rfl, ← hline] at hrow
    have hvalue := ht.value z ((solves_pivot_iff hentry).1 hz)
    have hsum : ∑ k, (t.pivot row column).objective.cells.get k * z k
        = ∑ k, t.objective.cells.get k * z k - t.objective.cells.get column * line.rhs := by
      unfold Line.Holds at holds
      rw [hobjective, ← holds, Finset.mul_sum, ← Finset.sum_sub_distrib]
      refine Finset.sum_congr rfl fun k _ => ?_
      rw [Line.get_clear]
      ring
    rw [hsum, hobjective, Line.rhs_clear, ← hvalue]
    show _ + t.artificialSum z = _
    ring

end Costed

end Tableau

/-! ### The first tableau -/

namespace Problem

variable {p : Problem ℝ} {first : Tableau p.variableCount p.hard.length p.tableauWidth ℝ}

theorem foldl_add (rows : List p.Row) (f : p.Row → Line p.tableauWidth ℝ)
    (costs : Line p.tableauWidth ℝ) :
    (∀ k, (rows.foldl (fun costs r => costs.add (f r)) costs).cells.get k
      = costs.cells.get k + (rows.map fun r => (f r).cells.get k).sum) ∧
    (rows.foldl (fun costs r => costs.add (f r)) costs).rhs
      = costs.rhs + (rows.map fun r => (f r).rhs).sum := by
  induction rows generalizing costs with
  | nil => simp
  | cons r rows ih =>
    obtain ⟨hcells, hrhs⟩ := ih (costs.add (f r))
    refine ⟨fun k => ?_, ?_⟩
    · rw [List.foldl_cons, hcells, Line.get_add, List.map_cons, List.sum_cons, add_assoc]
    · rw [List.foldl_cons, hrhs, List.map_cons, List.sum_cons, ← add_assoc]
      rfl

/-- The first costs are the lines that need an artificial variable, added up, less the artificial
variables. -/
theorem objective_tableau? (h : p.tableau? = some first) :
    (∀ k, first.objective.cells.get k = (if p.artificialStart ≤ k.val then -1 else 0)
      + ∑ r, if (p.row r).needsArtificial then (first.lines.get r).cells.get k else 0) ∧
    first.objective.rhs
      = ∑ r, if (p.row r).needsArtificial then (first.lines.get r).rhs else 0 := by
  obtain ⟨-, -, -, hobjective⟩ := tableau?_eq_some h
  obtain ⟨hcells, hrhs⟩ := foldl_add ((List.finRange p.hard.length).filter fun r =>
    (p.row r).needsArtificial) first.lines.get p.artificialCosts
  refine ⟨fun k => ?_, ?_⟩
  · rw [hobjective, hcells, sum_map_filter, Fin.sum_univ_def]
    unfold artificialCosts
    rw [get_ofFn]
  · rw [hobjective, hrhs, sum_map_filter, Fin.sum_univ_def]
    exact zero_add _

/-- **The first tableau is costed.** -/
theorem costed_tableau? (hfits : p.RowsFit) (h : p.tableau? = some first) : first.Costed := by
  obtain ⟨-, hbasis, hstart, -⟩ := tableau?_eq_some h
  obtain ⟨hcosts, hrhs⟩ := objective_tableau? h
  have hbasic := isBasic_tableau? hfits h
  refine ⟨hbasic, fun r k hk => ?_, fun z hz => ?_⟩
  · obtain ⟨l, hl, hunit⟩ := hbasic r
    obtain rfl : l = k := Fin.ext (hl.symm.trans hk)
    have hsum : (∑ i, if (p.row i).needsArtificial then (first.lines.get i).cells.get l else 0)
        = if (p.row r).needsArtificial then 1 else 0 := by
      rw [Finset.sum_eq_single r]
      · rw [hunit, if_pos rfl]
      · intro i _ hi
        rw [hunit, if_neg hi, ite_self]
      · exact fun hmem => absurd (Finset.mem_univ r) hmem
    rw [hcosts, hsum, ← hl, hbasis]
    unfold firstBasic
    cases hneeds : (p.row r).needsArtificial with
    | true => simp [artificialStart_le]
    | false =>
      have hlt := tableauSlack_lt (HardRow.isEquality_of_not_needsArtificial hneeds)
      simp [hlt]
  · have hline : ∀ r, ∑ k, (first.lines.get r).cells.get k * z k = (first.lines.get r).rhs := hz
    have hartificial : ∑ k : Fin p.tableauWidth, (if p.artificialStart ≤ k.val then -1 * z k else 0)
        = -first.artificialSum z := by
      unfold Tableau.artificialSum
      rw [hstart, ← Finset.sum_neg_distrib]
      refine Finset.sum_congr rfl fun k _ => ?_
      split
      · ring
      · exact neg_zero.symm
    simp only [hcosts, add_mul, Finset.sum_add_distrib, Finset.sum_mul, ite_mul, zero_mul]
    rw [hartificial, Finset.sum_comm, hrhs, neg_add_cancel_comm]
    refine Finset.sum_congr rfl fun r _ => ?_
    split
    · exact hline r
    · exact Finset.sum_const_zero

end Problem

end ElasticLayout
