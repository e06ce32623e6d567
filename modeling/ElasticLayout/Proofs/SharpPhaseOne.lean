import ElasticLayout.Proofs.Costs

/-!
# The simplex method without false zeros

A cost, or an entry of the ratio test, that is within the tolerance of zero does not count as
positive.  Where every positive number that is tested is above the tolerance, the basic solutions
stay non-negative and the method cannot run off, so that it ends at its limit or at a point that
keeps all hard rows exactly, if there is such a point.

* `SharpAbove`, `Tableau.SharpPivots` -- the tests of a run of pivots are sharp;
* `Tableau.Priced` -- a basic non-negative tableau whose costs measure the artificial variables;
* `Tableau.ray` -- a column grows, and the basic columns make up for it;
* `Tableau.Priced.pivot`, `Tableau.Priced.exists_pivotRow?` -- one pivot, and that there is one;
* `Tableau.Priced.reduce` -- a run of pivots;
* `Problem.priced_tableau?`, `Problem.solves_columnValue` -- the first tableau, and a feasible point
  in it;
* `HardRow.violation`, `Problem.violation_point_le` -- a basic solution is as good as its artificial
  variables are small;
* `Problem.feasiblePoint_cases`, `Problem.feasiblePoint_of_holds` -- the outcome.
-/

namespace ElasticLayout

open Linear

/-- A positive number is above the tolerance. -/
def SharpAbove (a : ℝ) : Prop := 0 < a → Scalar.tolerance < a

theorem SharpAbove.nonpos {a : ℝ} (h : SharpAbove a) (ha : ¬Scalar.tolerance < a) : a ≤ 0 :=
  not_lt.1 fun hpos => ha (h hpos)

namespace Tableau

variable {n h width : ℕ} {t : Tableau n h width ℝ} {row : Fin h} {column : Fin width}

/-- Every cost is zero, negative or above the tolerance. -/
def SharpCosts (t : Tableau n h width ℝ) : Prop := ∀ k, SharpAbove (t.objective.cells.get k)

/-- Every entry of a column is zero, negative or above the tolerance. -/
def SharpColumn (t : Tableau n h width ℝ) (column : Fin width) : Prop :=
  ∀ i, SharpAbove ((t.lines.get i).cells.get column)

/-- Every test of at most so many pivots is sharp. -/
def SharpPivots : ℕ → Tableau n h width ℝ → Prop
  | 0, t => t.SharpCosts
  | pivots + 1, t => t.SharpCosts ∧ ∀ column, t.pivotColumn? = some column →
    t.SharpColumn column ∧ ∀ row, t.pivotRow? column = some row →
      SharpPivots pivots (t.pivot row column)

theorem SharpPivots.costs {pivots : ℕ} (h : SharpPivots pivots t) : t.SharpCosts := by
  cases pivots with
  | zero => exact h
  | succ pivots => exact h.1

/-! ### The choice of a column -/

/-- One column of the scan of the costs. -/
noncomputable def takeCost (t : Tableau n h width ℝ) (best : ℝ × Option (Fin width))
    (k : Fin width) : ℝ × Option (Fin width) :=
  if best.1 < t.objective.cells.get k then (t.objective.cells.get k, some k) else best

/-- What the scan of the costs finds: the start, or a cost above it; and no cost above that. -/
theorem foldl_takeCost_spec (t : Tableau n h width ℝ) (ks : List (Fin width))
    (best : ℝ × Option (Fin width)) {found : ℝ × Option (Fin width)}
    (hfound : ks.foldl t.takeCost best = found) :
    best.1 ≤ found.1 ∧ (found = best ∨ ∃ k, found = (t.objective.cells.get k, some k) ∧
      best.1 < found.1) ∧ ∀ k ∈ ks, t.objective.cells.get k ≤ found.1 := by
  induction ks generalizing best with
  | nil => exact ⟨hfound ▸ le_rfl, .inl hfound.symm, by simp⟩
  | cons k ks ih =>
    obtain ⟨hle, hcases, hall⟩ := ih _ hfound
    unfold takeCost at hle hcases
    split at hle
    · rename_i hlt
      rw [if_pos hlt] at hcases
      refine ⟨hlt.le.trans hle, .inr ?_, List.forall_mem_cons.2 ⟨hle, hall⟩⟩
      obtain rfl | ⟨l, hl, -⟩ := hcases
      · exact ⟨k, rfl, hlt⟩
      · exact ⟨l, hl, hlt.trans_le hle⟩
    · rename_i hle'
      rw [if_neg hle'] at hcases
      exact ⟨hle, hcases, List.forall_mem_cons.2 ⟨(not_lt.1 hle').trans hle, hall⟩⟩

theorem tolerance_lt_of_pivotColumn? (hcolumn : t.pivotColumn? = some column) :
    Scalar.tolerance < t.objective.cells.get column := by
  obtain ⟨-, hstart | ⟨k, hk, hlt⟩, -⟩ :=
    foldl_takeCost_spec t (List.finRange width) (Scalar.tolerance, none) rfl
  · exact absurd (hcolumn.symm.trans (congrArg Prod.snd hstart)) (by simp)
  · rw [hk] at hlt
    rwa [Option.some.inj (hcolumn.symm.trans (congrArg Prod.snd hk))]

theorem cost_nonpos_of_pivotColumn? (hsharp : t.SharpCosts) (hnone : t.pivotColumn? = none)
    (k : Fin width) : t.objective.cells.get k ≤ 0 := by
  obtain ⟨-, hstart | ⟨l, hl, -⟩, hall⟩ :=
    foldl_takeCost_spec t (List.finRange width) (Scalar.tolerance, none) rfl
  · have hle := hall k (List.mem_finRange k)
    rw [hstart] at hle
    exact (hsharp k).nonpos (not_lt.2 hle)
  · exact absurd (hnone.symm.trans (congrArg Prod.snd hl)) (by simp)

/-! ### The choice of a row -/

theorem compare_eq_none {best : Option (ℝ × Fin h)} {i : Fin h}
    (hnone : t.compare column best i = none) : best = none ∧ ¬t.Compared column i := by
  unfold compare at hnone
  dsimp only at hnone
  split at hnone
  · exact absurd hnone (by simp)
  · rename_i hcompared
    subst hnone
    exact ⟨rfl, fun hi => hcompared ⟨hi.1, hi.2, rfl⟩⟩

theorem foldl_compare_eq_none (is : List (Fin h)) {best : Option (ℝ × Fin h)}
    (hnone : is.foldl (t.compare column) best = none) :
    best = none ∧ ∀ i ∈ is, ¬t.Compared column i := by
  induction is generalizing best with
  | nil => exact ⟨hnone, by simp⟩
  | cons i is ih =>
    obtain ⟨hnext, hrest⟩ := ih hnone
    obtain ⟨hbest, hi⟩ := compare_eq_none hnext
    exact ⟨hbest, List.forall_mem_cons.2 ⟨hi, hrest⟩⟩

/-- The ratio test finds a line if there is one to look at. -/
theorem exists_pivotRow? {i : Fin h} (hi : t.Compared column i) :
    ∃ row, t.pivotRow? column = some row := by
  refine Option.ne_none_iff_exists'.1 fun hnone => ?_
  have hfound : (List.finRange h).foldl (t.compare column) none = none :=
    Option.map_eq_none_iff.1 hnone
  exact (foldl_compare_eq_none _ hfound).2 i (List.mem_finRange i) hi

/-! ### Priced tableaux -/

theorem artificialSum_nonneg {z : Fin width → ℝ} (hz : ∀ k, 0 ≤ z k) : 0 ≤ t.artificialSum z := by
  refine Finset.sum_nonneg fun k _ => ?_
  split
  · exact hz k
  · exact le_rfl

/-- The point in which a column has a value, the basic columns make up for it, and all others are
zero. -/
noncomputable def ray (t : Tableau n h width ℝ) (column : Fin width) (length : ℝ)
    (k : Fin width) : ℝ :=
  (if k = column then length else 0) + ∑ j, if t.basis.get j = k.val
    then (t.lines.get j).rhs - length * (t.lines.get j).cells.get column else 0

theorem sum_ray (c : Fin width → ℝ) (length : ℝ) : ∑ k, c k * t.ray column length k
    = c column * length + ∑ k, c k * ∑ j, if t.basis.get j = k.val
      then (t.lines.get j).rhs - length * (t.lines.get j).cells.get column else 0 := by
  simp only [ray, mul_add, Finset.sum_add_distrib, mul_ite, mul_zero]
  rw [Finset.sum_ite_eq' Finset.univ column, if_pos (Finset.mem_univ column)]

theorem IsBasic.solves_ray (hbasic : t.IsBasic) (column : Fin width) (length : ℝ) :
    t.Solves (t.ray column length) := by
  intro i
  unfold Line.Holds
  rw [sum_ray, hbasic.sum_spread]
  ring

/-- A basic tableau with non-negative right sides whose costs, zero on the basic columns, measure
how far the artificial variables are from vanishing. -/
structure Priced (t : Tableau n h width ℝ) : Prop where
  basic : t.IsBasic
  nonneg : ∀ i, 0 ≤ (t.lines.get i).rhs
  costs : ∀ i (k : Fin width), t.basis.get i = k.val → t.objective.cells.get k = 0
  value : ∀ z, t.Solves z →
    ∑ k, t.objective.cells.get k * z k + t.artificialSum z = t.objective.rhs

namespace Priced

theorem costed (ht : t.Priced) : t.Costed := ⟨ht.basic, ht.costs, ht.value⟩

theorem basicValue_nonneg (ht : t.Priced) (k : ℕ) : 0 ≤ t.basicValue k := by
  refine Finset.sum_nonneg fun i _ => ?_
  split
  · exact ht.nonneg i
  · exact le_rfl

/-- A column without positive entries can grow. -/
theorem ray_nonneg (ht : t.Priced) (hentries : ∀ i, (t.lines.get i).cells.get column ≤ 0)
    {length : ℝ} (hpos : 0 ≤ length) (k : Fin width) : 0 ≤ t.ray column length k := by
  refine add_nonneg ?_ (Finset.sum_nonneg fun j _ => ?_)
  · split
    · exact hpos
    · exact le_rfl
  · split
    · have hproduct := mul_nonpos_of_nonneg_of_nonpos hpos (hentries j)
      have hrhs := ht.nonneg j
      linarith
    · exact le_rfl

/-- **The method cannot run off**: a column with a positive cost has a line to pivot in.  Otherwise
the column could grow without end, and the artificial variables would fall below zero. -/
theorem exists_pivotRow? (ht : t.Priced) (hcolumn : t.pivotColumn? = some column)
    (hsharp : t.SharpColumn column) : ∃ row, t.pivotRow? column = some row := by
  by_contra hnone
  have hcost : 0 < t.objective.cells.get column := by
    have hlt := tolerance_lt_of_pivotColumn? hcolumn
    rw [Scalar.tolerance_eq] at hlt
    linarith
  have hentries : ∀ i, (t.lines.get i).cells.get column ≤ 0 := by
    intro i
    refine (hsharp i).nonpos fun hlarge => hnone ?_
    refine Tableau.exists_pivotRow? (i := i) ⟨hlarge, div_nonneg (ht.nonneg i) ?_⟩
    rw [Scalar.tolerance_eq] at hlarge
    linarith
  -- The column grows so far that it costs more than there is.
  obtain ⟨length, hlength⟩ : ∃ length, length
      = |t.objective.rhs| / t.objective.cells.get column + 1 := ⟨_, rfl⟩
  have hpos : 0 ≤ length := by
    rw [hlength]
    have hquotient := div_nonneg (abs_nonneg t.objective.rhs) hcost.le
    linarith
  have hvalue := ht.value (t.ray column length) (ht.basic.solves_ray column length)
  rw [sum_ray, ht.costed.sum_costs_spread, add_zero, hlength, mul_add, mul_div_cancel₀ _ hcost.ne',
    mul_one, ← hlength] at hvalue
  have hartificial := artificialSum_nonneg (t := t) (ht.ray_nonneg hentries hpos)
  have hrhs := le_abs_self t.objective.rhs
  linarith

/-- **A pivot keeps a tableau priced.** -/
theorem pivot (ht : t.Priced) (hsharp : t.SharpColumn column)
    (hrow : t.pivotRow? column = some row) : (t.pivot row column).Priced := by
  obtain ⟨hbasic, hcosts, hvalue⟩ := ht.costed.pivot (entry_ne_zero_of_pivotRow? hrow)
  refine ⟨hbasic, fun i => ?_, hcosts, hvalue⟩
  refine rhs_nonneg_pivot hrow ?_ (fun j _ => ht.nonneg j) i rfl
  rintro ⟨j, -, hpositive, hsmall, -⟩
  exact not_lt.2 hsmall (hsharp j hpositive)

end Priced

/-- A run of pivots comes to an end at a priced tableau with the same solutions, when no cost is
positive. -/
structure EndsAt (t last : Tableau n h width ℝ) : Prop where
  priced : last.Priced
  costs : ∀ k, last.objective.cells.get k ≤ 0
  start : last.artificialStart = t.artificialStart
  solves : ∀ z, last.Solves z ↔ t.Solves z

/-- **A sharp run of pivots** ends so, unless it reaches its limit. -/
theorem Priced.reduce (ht : t.Priced) (limit : ℕ) {pivots : ℕ} (hsharp : SharpPivots pivots t) :
    t.reduce limit pivots = .error (.iterationLimit limit) ∨
      ∃ last, t.reduce limit pivots = .ok last ∧ t.EndsAt last := by
  induction pivots generalizing t with
  | zero =>
    unfold Tableau.reduce
    cases hcolumn : t.pivotColumn? with
    | none =>
      exact .inr ⟨t, rfl, ht, cost_nonpos_of_pivotColumn? hsharp hcolumn, rfl, fun _ => .rfl⟩
    | some column => exact .inl rfl
  | succ pivots ih =>
    unfold Tableau.reduce
    cases hcolumn : t.pivotColumn? with
    | none =>
      exact .inr ⟨t, rfl, ht, cost_nonpos_of_pivotColumn? hsharp.1 hcolumn, rfl, fun _ => .rfl⟩
    | some column =>
      obtain ⟨hentries, hrest⟩ := hsharp.2 column hcolumn
      obtain ⟨row, hrow⟩ := ht.exists_pivotRow? hcolumn hentries
      dsimp only
      rw [hrow]
      refine (ih (ht.pivot hentries hrow) (hrest row hrow)).imp_right ?_
      rintro ⟨last, hlast, hpriced, hcosts, hstart, hsolves⟩
      exact ⟨last, hlast, hpriced, hcosts, hstart, fun z =>
        (hsolves z).trans (solves_pivot_iff (entry_ne_zero_of_pivotRow? hrow))⟩

/-- The basic solution at the end is a solution of the first tableau. -/
theorem EndsAt.solves_basicValue {last : Tableau n h width ℝ} (h : t.EndsAt last) :
    t.Solves fun k => last.basicValue k := (h.solves _).1 h.priced.basic.solves

/-- **Where no cost is positive, the artificial variables vanish** in the basic solution, if they do
in any non-negative one. -/
theorem EndsAt.artificial_eq_zero {last : Tableau n h width ℝ} (h : t.EndsAt last)
    {z : Fin width → ℝ} (hz : t.Solves z) (hnonneg : ∀ k, 0 ≤ z k)
    (hartificial : ∀ k, t.artificialStart ≤ k.val → z k = 0) {k : ℕ} (hk : t.artificialStart ≤ k) :
    last.basicValue k = 0 := by
  rw [← h.start] at hk hartificial
  have hle : last.objective.rhs ≤ 0 := by
    have hzero : last.artificialSum z = 0 := Finset.sum_eq_zero fun l _ => by
      split
      · exact hartificial l ‹_›
      · rfl
    rw [← h.priced.value z ((h.solves z).2 hz), hzero, add_zero]
    exact Finset.sum_nonpos fun l _ => mul_nonpos_of_nonpos_of_nonneg (h.costs l) (hnonneg l)
  have hsum : last.artificialSum (fun l => last.basicValue l) ≤ 0 :=
    h.priced.costed.artificialSum_eq.trans_le hle
  by_cases hmem : ∃ i, last.basis.get i = k
  · obtain ⟨i, hi⟩ := hmem
    obtain ⟨l, hl, -⟩ := h.priced.basic i
    have hterm : (if last.artificialStart ≤ l.val then last.basicValue l else 0)
        ≤ last.artificialSum fun l => last.basicValue l :=
      Finset.single_le_sum (f := fun l : Fin width =>
        if last.artificialStart ≤ l.val then last.basicValue l else 0) (fun j _ => by
          split
          · exact h.priced.basicValue_nonneg j
          · exact le_rfl) (Finset.mem_univ l)
    rw [← hl, hi, if_pos hk] at hterm
    exact le_antisymm (hterm.trans hsum) (h.priced.basicValue_nonneg k)
  · exact basicValue_eq_zero fun i hi => hmem ⟨i, hi⟩

theorem IsBasic.infeasibility_eq_zero (ht : t.IsBasic)
    (h : ∀ k, t.artificialStart ≤ k → t.basicValue k = 0) : t.infeasibility = 0 := by
  unfold infeasibility
  rw [Scalar.sum_eq, List.sum_eq_zero]
  intro value hvalue
  obtain ⟨i, hi, rfl⟩ := List.mem_map.1 hvalue
  rw [← ht.basicValue_basis, h _ (of_decide_eq_true (List.mem_filter.1 hi).2)]
  exact abs_zero

end Tableau

/-! ### The first tableau -/

theorem Relation.sign_mul_sign (relation : Relation) :
    (relation.sign : ℝ) * relation.sign = 1 := by
  cases relation <;> norm_num [sign]

/-- A row holds if it has no excess, or as an inequality no negative excess. -/
theorem HardRow.holds_iff (row : HardRow ℝ) (x : List ℝ) :
    row.Holds x ↔ if row.isEquality then row.excess x = 0 else 0 ≤ row.excess x := by
  unfold Holds excess signedValue signedRhs isEquality
  cases row.relation with
  | le =>
    show row.value x ≤ row.rhs ↔ 0 ≤ -1 * row.value x - -1 * row.rhs
    constructor <;> intro h <;> linarith
  | ge =>
    show row.rhs ≤ row.value x ↔ 0 ≤ 1 * row.value x - 1 * row.rhs
    constructor <;> intro h <;> linarith
  | eq =>
    show row.value x = row.rhs ↔ 1 * row.value x - 1 * row.rhs = 0
    constructor <;> intro h <;> linarith

namespace HardRow

/-- How far a point is from keeping a row. -/
noncomputable def violation (row : HardRow ℝ) (x : List ℝ) : ℝ :=
  match row.relation with
  | .le => max 0 (row.value x - row.rhs)
  | .ge => max 0 (row.rhs - row.value x)
  | .eq => |row.value x - row.rhs|

theorem violation_le_iff (row : HardRow ℝ) (x : List ℝ) {b : ℝ} (hb : 0 ≤ b) :
    row.violation x ≤ b ↔
      if row.isEquality then |row.excess x| ≤ b else -b ≤ row.excess x := by
  unfold violation excess signedValue signedRhs isEquality
  cases row.relation with
  | le =>
    show max 0 (row.value x - row.rhs) ≤ b ↔ -b ≤ -1 * row.value x - -1 * row.rhs
    rw [max_le_iff]
    exact ⟨fun h => by linarith [h.2], fun h => ⟨hb, by linarith⟩⟩
  | ge =>
    show max 0 (row.rhs - row.value x) ≤ b ↔ -b ≤ 1 * row.value x - 1 * row.rhs
    rw [max_le_iff]
    exact ⟨fun h => by linarith [h.2], fun h => ⟨hb, by linarith⟩⟩
  | eq =>
    show |row.value x - row.rhs| ≤ b ↔ |1 * row.value x - 1 * row.rhs| ≤ b
    rw [one_mul, one_mul]

theorem violation_le_zero_iff (row : HardRow ℝ) (x : List ℝ) :
    row.violation x ≤ 0 ↔ row.Holds x := by
  rw [violation_le_iff row x le_rfl, holds_iff, neg_zero, abs_nonpos_iff]

end HardRow

namespace Problem

variable {p : Problem ℝ} {first : Tableau p.variableCount p.hard.length p.tableauWidth ℝ}

theorem holds_iff {x : p.Point} : p.Holds x ↔ ∀ r, if (p.row r).isEquality
    then (p.row r).excess x.toList = 0 else 0 ≤ (p.row r).excess x.toList := by
  constructor
  · exact fun h r => (HardRow.holds_iff _ _).1 (h _ (List.get_mem p.hard r))
  · intro h row hrow
    obtain ⟨r, rfl⟩ := List.get_of_mem hrow
    exact (HardRow.holds_iff _ _).2 (h r)

/-- **The first tableau is priced.** -/
theorem priced_tableau? (hfits : p.RowsFit) (h : p.tableau? = some first) : first.Priced := by
  obtain ⟨hbasic, hcosts, hvalue⟩ := costed_tableau? hfits h
  refine ⟨hbasic, fun r => ?_, hcosts, hvalue⟩
  rw [(tableau?_eq_some h).1]
  exact (p.row r).flip_mul_rhs_nonneg

/-- The values of the columns at a point: both parts of the variables, and the excess of the
inequalities as slack. -/
noncomputable def columnValue (p : Problem ℝ) (y : p.Point) (k : ℕ) : ℝ :=
  if k < p.variableCount then max (y.toList.getD k 0) 0
  else if k < 2 * p.variableCount then max (-y.toList.getD (k - p.variableCount) 0) 0
  else ∑ r : p.Row, if (p.row r).isEquality = false ∧ p.tableauSlack r = k
    then (p.row r).excess y.toList else 0

theorem columnValue_nonneg {y : p.Point} (hy : p.Holds y) (k : ℕ) : 0 ≤ p.columnValue y k := by
  unfold columnValue
  split
  · exact le_max_right _ _
  · split
    · exact le_max_right _ _
    · refine Finset.sum_nonneg fun r _ => ?_
      split
      · rename_i hr
        have hrow := holds_iff.1 hy r
        rwa [hr.1, if_neg (by simp)] at hrow
      · exact le_rfl

/-- The difference of its parts is the variable. -/
theorem columnValue_sub (y : p.Point) (j : Fin p.variableCount) :
    y.get j = p.columnValue y j - p.columnValue y (p.variableCount + j) := by
  have hj := j.isLt
  have hget : y.toList.getD j 0 = y.get j := by simp [Dense.get_eq_getElem]
  unfold columnValue
  rw [if_pos hj, if_neg (by omega), if_pos (by omega), Nat.add_sub_cancel_left, hget]
  obtain hle | hle := le_total 0 (y.get j)
  · rw [max_eq_left hle, max_eq_right (by linarith), sub_zero]
  · rw [max_eq_right hle, max_eq_left (by linarith), zero_sub, neg_neg]

theorem columnValue_slack {r : p.Row} (hr : (p.row r).isEquality = false) (y : p.Point) :
    p.columnValue y (p.tableauSlack r) = (p.row r).excess y.toList := by
  have hle : 2 * p.variableCount ≤ p.tableauSlack r := Nat.le_add_right ..
  unfold columnValue
  rw [if_neg (by omega), if_neg (by omega), Finset.sum_eq_single r, if_pos ⟨hr, rfl⟩]
  · exact fun i _ hi => if_neg fun hi' => hi (tableauSlack_injective hr hi'.1 hi'.2)
  · exact fun hmem => absurd (Finset.mem_univ r) hmem

theorem columnValue_artificial {k : ℕ} (hk : p.artificialStart ≤ k) (y : p.Point) :
    p.columnValue y k = 0 := by
  have hle : 2 * p.variableCount ≤ p.artificialStart := Nat.le_add_right ..
  unfold columnValue
  rw [if_neg (by omega), if_neg (by omega)]
  refine Finset.sum_eq_zero fun r _ => if_neg fun hr => ?_
  have hlt := tableauSlack_lt hr.1
  omega

/-- **A feasible point solves the first tableau** without artificial variables. -/
theorem solves_columnValue (hfits : p.RowsFit) (h : p.tableau? = some first) {y : p.Point}
    (hy : p.Holds y) : first.Solves fun k => p.columnValue y k := by
  obtain ⟨hlines, -, -, -⟩ := tableau?_eq_some h
  intro r
  rw [hlines, holds_tableauLine_iff hfits (columnValue_sub y)]
  have hrow := holds_iff.1 hy r
  have hartificial : p.artificialValue r (p.columnValue y) = 0 := by
    unfold artificialValue
    rw [columnValue_artificial (artificialStart_le r), ite_self]
  rw [hartificial, add_zero]
  unfold slackValue
  cases hequality : (p.row r).isEquality with
  | true =>
    obtain ⟨hcoefficient, -, hsign⟩ := HardRow.slackCoefficient?_of_isEquality hequality
    rw [hequality, if_pos rfl] at hrow
    have hvalue : (p.row r).relation.sign * (p.row r).value y.toList
        - (p.row r).relation.sign * (p.row r).rhs = 0 := hrow
    rw [hsign, one_mul, one_mul, sub_eq_zero] at hvalue
    rw [hcoefficient, Option.getD_none, zero_mul, add_zero, hvalue]
  | false =>
    rw [(HardRow.slackCoefficient?_of_not_isEquality hequality).1, Option.getD_some,
      columnValue_slack hequality]
    unfold HardRow.excess HardRow.signedValue HardRow.signedRhs
    have hsign := (p.row r).relation.sign_mul_sign
    linear_combination (p.row r).flip * ((p.row r).rhs - (p.row r).value y.toList) * hsign

/-! ### The outcome -/

/-- A non-negative basic solution is as far from keeping the hard rows as its artificial variables
are from vanishing. -/
theorem violation_point_le (hfits : p.RowsFit)
    {last : Tableau p.variableCount p.hard.length p.tableauWidth ℝ}
    (hlines : ∀ r, (p.tableauLine r).Holds fun k => last.basicValue k)
    (hnonneg : ∀ k, 0 ≤ last.basicValue k) {b : ℝ} (hb : 0 ≤ b)
    (hartificial : ∀ k, p.artificialStart ≤ k → last.basicValue k ≤ b) (r : p.Row) :
    (p.row r).violation last.point.toList ≤ b := by
  rw [HardRow.violation_le_iff _ _ hb]
  cases hr : (p.row r).isEquality with
  | true =>
    rw [if_pos rfl, abs_excess_of_isEquality hfits last.get_point (hlines r) hr,
      abs_of_nonneg (hnonneg _)]
    exact hartificial _ (artificialStart_le r)
  | false =>
    have hvalue : p.artificialValue r last.basicValue ≤ b := by
      unfold artificialValue
      split
      · exact hartificial _ (artificialStart_le r)
      · exact hb
    have hslack := hnonneg (p.tableauSlack r)
    rw [if_neg (by simp), excess_of_not_isEquality hfits last.get_point (hlines r) hr]
    linarith

/-- **A sharp run of the simplex method** reaches its limit, or it ends at a tableau by whose
artificial variables it decides. -/
theorem feasiblePoint_cases (hfits : p.RowsFit) {maxIterations : ℕ}
    (hsharp : ∀ first, p.tableau? = some first → Tableau.SharpPivots maxIterations first) :
    p.feasiblePoint maxIterations = .error (.iterationLimit maxIterations) ∨
      ∃ first last, p.tableau? = some first ∧ first.EndsAt last ∧
        p.feasiblePoint maxIterations = if Scalar.tolerance < last.infeasibility
          then .error .noFeasiblePoint else .ok last.point := by
  obtain ⟨first, hfirst⟩ := exists_tableau? hfits
  unfold feasiblePoint
  rw [hfirst]
  dsimp only
  obtain hlimit | ⟨last, hlast, hends⟩ :=
    (priced_tableau? hfits hfirst).reduce maxIterations (hsharp first hfirst)
  · rw [hlimit]
    exact .inl rfl
  · rw [hlast]
    exact .inr ⟨first, last, rfl, hends, rfl⟩

/-- **A sharp run of the simplex method finds a feasible point** if there is one, unless it reaches
its limit. -/
theorem feasiblePoint_of_holds (hfits : p.RowsFit) {y : p.Point} (hy : p.Holds y)
    {maxIterations : ℕ}
    (hsharp : ∀ first, p.tableau? = some first → Tableau.SharpPivots maxIterations first) :
    p.feasiblePoint maxIterations = .error (.iterationLimit maxIterations) ∨
      ∃ x, p.feasiblePoint maxIterations = .ok x ∧ p.Holds x := by
  refine (feasiblePoint_cases hfits hsharp).imp_right ?_
  rintro ⟨first, last, hfirst, hends, houtcome⟩
  obtain ⟨-, -, hstart, -⟩ := tableau?_eq_some hfirst
  have hartificial : ∀ k, p.artificialStart ≤ k → last.basicValue k = 0 := by
    intro k hk
    refine hends.artificial_eq_zero (solves_columnValue hfits hfirst hy)
      (fun k => columnValue_nonneg hy k) (fun k hk => ?_) (hstart.symm ▸ hk)
    exact columnValue_artificial (hstart ▸ hk) y
  refine ⟨last.point, ?_, fun row hrow => ?_⟩
  · have hinfeasibility : last.infeasibility = 0 :=
      hends.priced.basic.infeasibility_eq_zero fun k hk =>
        hartificial k (by rwa [hends.start, hstart] at hk)
    rw [houtcome]
    refine if_neg ?_
    rw [hinfeasibility, Scalar.tolerance_eq]
    norm_num
  · obtain ⟨r, rfl⟩ := List.get_of_mem hrow
    exact (HardRow.violation_le_zero_iff _ _).1 (violation_point_le hfits
      (holds_tableauLine_of_solves hfirst hends.solves_basicValue)
      hends.priced.basicValue_nonneg le_rfl (fun k hk => (hartificial k hk).le) r)

end Problem

end ElasticLayout
