import ElasticLayout.Proofs.RationalSystems
import ElasticLayout.Proofs.SharpPhaseOne

/-!
# Problems with rational numbers

A problem with rational coefficients is started on with rational numbers: its basic point is one of
elimination, and the simplex method compares, multiplies and divides.  Both are the same in exact
arithmetic, so that the start of a given problem is found by computing.

* `HardRow.toReal`, `Problem.toReal` -- a problem among those with real numbers;
* `Problem.feasibleBasicPoint_toReal` -- the basic point;
* `Tableau.toReal`, `Tableau.reduce_toReal`, `Problem.feasiblePoint_toReal` -- the simplex method;
* `Problem.initialPoint_toReal` -- the start.
-/

namespace ElasticLayout

open Linear

theorem Linear.sum_cast (xs : List ℚ) :
    Scalar.sum (xs.map ((↑) : ℚ → ℝ)) = (Scalar.sum xs : ℚ) := by
  have hfold : ∀ (xs : List ℚ) (a : ℚ),
      (xs.map ((↑) : ℚ → ℝ)).foldl (· + ·) (a : ℝ) = (xs.foldl (· + ·) a : ℚ) := by
    intro xs
    induction xs with
    | nil => exact fun _ => rfl
    | cons x xs ih =>
      intro a
      rw [List.map_cons, List.foldl_cons, List.foldl_cons, ← Rat.cast_add, ih]
  have hstart : (-0 : ℝ) = ((-0 : ℚ) : ℝ) := by simp
  unfold Scalar.sum
  rw [hstart]
  exact hfold xs _

theorem Linear.dot_cast (xs ys : List ℚ) :
    dot (xs.map ((↑) : ℚ → ℝ)) (ys.map (↑)) = (dot xs ys : ℚ) := by
  unfold dot
  rw [← sum_cast, List.zipWith_map, List.map_zipWith]
  simp only [Rat.cast_mul]

/-! ### Rows -/

namespace HardRow

/-- A row of rational numbers among the real ones. -/
def toReal (row : HardRow ℚ) : HardRow ℝ where
  coefficients := row.coefficients.map (↑)
  relation := row.relation
  rhs := row.rhs

variable (row : HardRow ℚ)

@[simp] theorem relation_toReal : row.toReal.relation = row.relation := rfl

@[simp] theorem isEquality_toReal : row.toReal.isEquality = row.isEquality := rfl

@[simp] theorem flip_toReal : row.toReal.flip = (row.flip : ℝ) := by
  have hsign : row.toReal.rhs < 0 ↔ row.rhs < 0 := Rat.cast_lt_zero
  unfold flip
  rw [apply_ite ((↑) : ℚ → ℝ), Rat.cast_neg, Rat.cast_one, if_congr hsign rfl rfl]

@[simp] theorem slackCoefficient?_toReal :
    row.toReal.slackCoefficient? = row.slackCoefficient?.map (↑) := by
  unfold slackCoefficient?
  rw [flip_toReal, ← Rat.cast_neg, relation_toReal]
  cases row.relation <;> rfl

@[simp] theorem needsArtificial_toReal : row.toReal.needsArtificial = row.needsArtificial := by
  unfold needsArtificial
  rw [slackCoefficient?_toReal]
  cases row.slackCoefficient? with
  | none => rfl
  | some coefficient =>
    rw [Option.map_some]
    exact congrArg (!·) (decide_eq_decide.2 Rat.cast_pos)

theorem sign_cast (relation : Relation) : (relation.sign : ℝ) = (relation.sign : ℚ) := by
  cases relation <;> simp [Relation.sign]

theorem signedValue_toReal (x : List ℚ) :
    row.toReal.signedValue (x.map (↑)) = (row.signedValue x : ℚ) := by
  unfold signedValue value
  rw [Rat.cast_mul, ← sign_cast, ← dot_cast]
  rfl

theorem signedRhs_toReal : row.toReal.signedRhs = (row.signedRhs : ℚ) := by
  unfold signedRhs
  rw [Rat.cast_mul, ← sign_cast]
  rfl

theorem isSatisfied_toReal (x : List ℚ) (tolerance : ℚ) :
    row.toReal.isSatisfied (x.map (↑)) tolerance = row.isSatisfied x tolerance := by
  unfold isSatisfied
  rw [signedValue_toReal, signedRhs_toReal, ← Rat.cast_sub, relation_toReal]
  cases row.relation with
  | eq =>
    dsimp only
    rw [Scalar.abs_cast]
    exact decide_eq_decide.2 Rat.cast_lt
  | le | ge =>
    dsimp only
    rw [← Rat.cast_neg]
    exact decide_eq_decide.2 Rat.cast_lt

theorem holds_toReal_iff (x : List ℚ) : row.toReal.Holds (x.map (↑)) ↔
    if row.isEquality then row.signedValue x = row.signedRhs
      else row.signedRhs ≤ row.signedValue x := by
  rw [holds_iff]
  unfold excess
  rw [signedValue_toReal, signedRhs_toReal, isEquality_toReal, sub_eq_zero, sub_nonneg]
  split
  · exact Rat.cast_inj
  · exact Rat.cast_le

end HardRow

namespace Problem

/-- A problem with rational numbers among those with real ones. -/
def toReal (p : Problem ℚ) : Problem ℝ where
  variableCount := p.variableCount
  hard := p.hard.map HardRow.toReal
  soft := p.soft.map fun row => ⟨row.coefficients.map (↑), row.rhs, row.weight⟩

variable (p : Problem ℚ)

/-- A point of a problem among those with real coordinates. -/
def realPoint (x : p.Point) : p.toReal.Point := Vector.map (↑) (x : Vector ℚ p.variableCount)

theorem toList_realPoint (x : p.Point) : (p.realPoint x).toList = x.toList.map (↑) :=
  Vector.toList_map

theorem length_hard_toReal : p.toReal.hard.length = p.hard.length := List.length_map _

/-- The row of the same position. -/
theorem row_toReal (r : p.toReal.Row) :
    p.toReal.row r = (p.row (r.cast p.length_hard_toReal)).toReal :=
  List.getElem_map HardRow.toReal

theorem countP_toReal {test : HardRow ℝ → Bool} {test' : HardRow ℚ → Bool}
    (h : ∀ row, test row.toReal = test' row) (r : ℕ) :
    (p.toReal.hard.take r).countP test = (p.hard.take r).countP test' := by
  show ((p.hard.map HardRow.toReal).take r).countP test = _
  rw [← List.map_take, List.countP_map]
  exact congrArg (List.countP · _) (funext h)

@[simp] theorem slackCount_toReal (r : ℕ) : p.toReal.slackCount r = p.slackCount r :=
  p.countP_toReal (fun _ => rfl) r

@[simp] theorem artificialCount_toReal (r : ℕ) :
    p.toReal.artificialCount r = p.artificialCount r :=
  p.countP_toReal HardRow.needsArtificial_toReal r

/-! ### The basic point -/

theorem getD_toReal (row : HardRow ℚ) (k : ℕ) :
    row.toReal.coefficients.getD k 0 = (row.coefficients.getD k 0 : ℚ) := by
  show (row.coefficients.map ((↑) : ℚ → ℝ)).getD k 0 = _
  rw [List.getD_eq_getElem?_getD, List.getD_eq_getElem?_getD, List.getElem?_map]
  cases row.coefficients[k]? with
  | none => exact Rat.cast_zero.symm
  | some c => rfl

theorem get_slackedCells_toReal (r : p.toReal.Row) {width width' : ℕ} (hwidth : width = width')
    (k : Fin width) : (p.toReal.slackedCells r width).get k
      = ((p.slackedCells (r.cast p.length_hard_toReal) width').get (k.cast hwidth) : ℚ) := by
  subst hwidth
  have hcolumn : p.toReal.slackColumn r = p.slackColumn r :=
    congrArg (p.variableCount + ·) (p.slackCount_toReal r)
  unfold slackedCells
  rw [get_ofFn, get_ofFn]
  dsimp only [Fin.val_cast]
  rw [row_toReal, hcolumn, getD_toReal, HardRow.relation_toReal]
  cases (p.row (r.cast p.length_hard_toReal)).relation <;> split_ifs <;> simp

end Problem

/-- The solution that a system of full rank has in its pivot columns. -/
def EquationSystem.basicPart {α : Type} [Scalar α] {R C : ℕ} (s : EquationSystem R C α)
    (length : ℕ) : Option (Vector α length) :=
  let reduced := s.removeDependentRows.removeUnusedColumns.gaussJordan
  if reduced.2 then some (reduced.1.basicSolution length) else none

theorem EquationSystem.basicPart_toReal {R C : ℕ} (s : EquationSystem R C ℚ) (length : ℕ) :
    s.toReal.basicPart length = (s.basicPart length).map (·.map (↑)) := by
  unfold basicPart
  rw [removeDependentRows_toReal, removeUnusedColumns_toReal, gaussJordan_toReal]
  obtain ⟨t, flag⟩ := s.removeDependentRows.removeUnusedColumns.gaussJordan
  cases flag with
  | false => rfl
  | true => exact congrArg some (t.basicSolution_toReal length)

/-- Systems of different shapes, by their entries. -/
theorem EquationSystem.basicPart_ofCells {R R' C C' : ℕ} (hR : R' = R) (hC : C' = C)
    {cells : Dense R C ℚ} {rhs : Vector ℚ R} {cells' : Dense R' C' ℝ} {rhs' : Vector ℝ R'}
    (hcells : ∀ i j, cells'.entry i j = (cells.entry (i.cast hR) (j.cast hC) : ℝ))
    (hrhs : ∀ i, rhs'.get i = (rhs.get (i.cast hR) : ℝ)) (length : ℕ) :
    (ofCells cells' rhs').basicPart length
      = ((ofCells cells rhs).basicPart length).map (·.map (↑)) := by
  subst hR hC
  have hsystem : ofCells cells' rhs' = (ofCells cells rhs).toReal := by
    rw [Dense.toReal_eq_of_entry hcells, show rhs' = rhs.map (↑) from
      vector_ext fun i => (hrhs i).trans (get_map ..).symm]
    rfl
  rw [hsystem, basicPart_toReal]

namespace Problem

variable (p : Problem ℚ)

/-- **The basic point has rational coordinates.** -/
theorem basicPoint_toReal : p.toReal.basicPoint = p.basicPoint.map (Option.map p.realPoint) := by
  have hlengths : (p.toReal.hard.all fun row => row.coefficients.length
      ≤ p.toReal.variableCount + p.toReal.hard.length)
      = p.hard.all fun row => row.coefficients.length ≤ p.variableCount + p.hard.length := by
    rw [length_hard_toReal]
    show (p.hard.map HardRow.toReal).all _ = _
    rw [List.all_map]
    refine congrArg p.hard.all (funext fun row => ?_)
    show decide ((row.coefficients.map _).length ≤ _) = _
    rw [List.length_map]
    rfl
  unfold basicPoint slackSystem?
  dsimp only
  rw [hlengths]
  by_cases h : (p.hard.all fun row =>
      row.coefficients.length ≤ p.variableCount + p.hard.length) = true
  · rw [if_pos h, if_pos h]
    have hwidth : p.toReal.variableCount + p.toReal.hard.length
        = p.variableCount + p.hard.length :=
      congrArg (p.variableCount + ·) p.length_hard_toReal
    refine congrArg Except.ok (EquationSystem.basicPart_ofCells p.length_hard_toReal hwidth
      (fun i j => ?_) (fun i => ?_) _)
    · unfold Dense.entry
      rw [get_ofFn, get_ofFn]
      exact p.get_slackedCells_toReal i _ j
    · rw [get_ofFn, get_ofFn, row_toReal]
      rfl
  · rw [if_neg h, if_neg h]
    rfl

theorem isFeasible_toReal (x : p.Point) :
    p.toReal.isFeasible (p.realPoint x) Scalar.tolerance = p.isFeasible x Scalar.tolerance := by
  unfold isFeasible
  rw [Scalar.tolerance_cast, toList_realPoint]
  show (p.hard.map HardRow.toReal).all _ = _
  rw [List.all_map]
  exact congrArg p.hard.all (funext fun row => row.isSatisfied_toReal ..)

theorem feasibleBasicPoint_toReal :
    p.toReal.feasibleBasicPoint = p.feasibleBasicPoint.map (Option.map p.realPoint) := by
  unfold feasibleBasicPoint
  rw [basicPoint_toReal]
  cases p.basicPoint with
  | error _ => rfl
  | ok basic =>
    refine congrArg Except.ok ?_
    cases basic with
    | none => rfl
    | some x =>
      rw [Option.map_some, Option.filter_some, Option.filter_some, isFeasible_toReal,
        apply_ite (Option.map p.realPoint)]
      rfl

/-- The rows at the same positions bind. -/
theorem bindingRows_toReal (x : p.Point) :
    (p.toReal.bindingRows (p.realPoint x)).map Fin.val = (p.bindingRows x).map Fin.val := by
  have hall : ∀ {m n : ℕ} (h : m = n), (List.finRange n).map (Fin.cast h.symm)
      = List.finRange m := by
    rintro m _ rfl
    exact List.map_id _
  unfold bindingRows
  rw [← hall p.length_hard_toReal, List.filter_map, List.map_map]
  refine congrArg (List.map _) (congrArg (List.filter · _) (funext fun r => ?_))
  dsimp only [Function.comp_apply]
  rw [toList_realPoint, row_toReal, HardRow.signedValue_toReal, HardRow.signedRhs_toReal,
    Scalar.near_cast]
  rfl

end Problem

/-! ### Pivots -/

namespace Line

variable {width : ℕ}

/-- A line of rational numbers among the real ones. -/
def toReal (a : Line width ℚ) : Line width ℝ := ⟨a.cells.map (↑), a.rhs⟩

@[simp] theorem get_toReal (a : Line width ℚ) (k : Fin width) :
    a.toReal.cells.get k = (a.cells.get k : ℝ) := get_map ..

theorem eq_toReal {a : Line width ℝ} {b : Line width ℚ}
    (hcells : ∀ k, a.cells.get k = b.cells.get k) (hrhs : a.rhs = b.rhs) : a = b.toReal := by
  obtain ⟨cells, rhs⟩ := a
  obtain rfl : cells = b.cells.map (↑) := vector_ext fun k => (hcells k).trans (get_map ..).symm
  exact congrArg (Line.mk _) hrhs

theorem add_toReal (a b : Line width ℚ) : a.toReal.add b.toReal = (a.add b).toReal :=
  eq_toReal (fun k => by simp [add, get_zipWith]) (Rat.cast_add ..).symm

theorem divide_toReal (a : Line width ℚ) (divisor : ℚ) :
    a.toReal.divide divisor = (a.divide divisor).toReal :=
  eq_toReal (fun k => by simp [divide]) (Rat.cast_div ..).symm

theorem clear_toReal (column : Fin width) (pivot a : Line width ℚ) :
    clear column pivot.toReal a.toReal = (clear column pivot a).toReal := by
  have hzero := Scalar.beq_cast (a.cells.get column) 0
  rw [Rat.cast_zero] at hzero
  unfold clear
  dsimp only
  rw [get_toReal, hzero]
  split
  · rfl
  · refine eq_toReal (fun k => ?_) (by push_cast; rfl)
    simp [get_zipWith]

end Line

namespace Tableau

variable {n h width : ℕ} (t : Tableau n h width ℚ)

/-- A tableau of rational numbers among the real ones. -/
def toReal : Tableau n h width ℝ :=
  ⟨t.lines.map Line.toReal, t.basis, t.objective.toReal, t.artificialStart⟩

@[simp] theorem get_lines_toReal (i : Fin h) :
    t.toReal.lines.get i = (t.lines.get i).toReal := get_map ..

/-- The same column enters. -/
theorem pivotColumn?_toReal : t.toReal.pivotColumn? = t.pivotColumn? := by
  have hfold : ∀ (ks : List (Fin width)) (best : ℚ × Option (Fin width)),
      ks.foldl (fun (best : ℝ × Option (Fin width)) k =>
          if best.1 < t.toReal.objective.cells.get k then (t.toReal.objective.cells.get k, some k)
          else best) ((best.1 : ℝ), best.2)
        = Prod.map (↑) id (ks.foldl (fun (best : ℚ × Option (Fin width)) k =>
            if best.1 < t.objective.cells.get k then (t.objective.cells.get k, some k)
            else best) best) := by
    intro ks
    induction ks with
    | nil => exact fun _ => rfl
    | cons k ks ih =>
      intro best
      rw [List.foldl_cons, List.foldl_cons, ← ih]
      congr 1
      dsimp only
      rw [show t.toReal.objective.cells.get k = (t.objective.cells.get k : ℝ) from
        Line.get_toReal ..]
      simp only [Rat.cast_lt]
      split <;> rfl
  unfold pivotColumn?
  rw [Scalar.tolerance_cast, hfold _ (Scalar.tolerance, none)]
  rfl

theorem compare_toReal (column : Fin width) (best : Option (ℚ × Fin h)) (i : Fin h) :
    t.toReal.compare column (best.map (Prod.map (↑) id)) i
      = Option.map (Prod.map (↑) id)
        (if Scalar.tolerance < (t.lines.get i).cells.get column ∧
            0 ≤ (t.lines.get i).rhs / (t.lines.get i).cells.get column ∧
            improves ((t.lines.get i).rhs / (t.lines.get i).cells.get column) best
          then some ((t.lines.get i).rhs / (t.lines.get i).cells.get column, i) else best) := by
  have hratio : ((t.lines.get i).rhs : ℝ) / (t.lines.get i).cells.get column
      = ((t.lines.get i).rhs / (t.lines.get i).cells.get column : ℚ) := (Rat.cast_div ..).symm
  obtain ⟨ratio, hratio'⟩ : ∃ ratio,
      ratio = (t.lines.get i).rhs / (t.lines.get i).cells.get column := ⟨_, rfl⟩
  have himproves : improves (ratio : ℝ) (best.map (Prod.map (↑) (id : Fin h → Fin h)))
      = improves ratio best := by
    cases best with
    | none => rfl
    | some b => exact decide_eq_decide.2 Rat.cast_lt
  unfold compare
  rw [get_lines_toReal, Line.get_toReal, Scalar.tolerance_cast, apply_ite (Option.map _)]
  dsimp only [Line.toReal]
  rw [hratio, ← hratio', himproves]
  exact if_congr (and_congr Rat.cast_lt (and_congr Rat.cast_nonneg Iff.rfl)) rfl rfl

/-- The same row leaves. -/
theorem pivotRow?_toReal (column : Fin width) :
    t.toReal.pivotRow? column = t.pivotRow? column := by
  have hfold : ∀ (is : List (Fin h)) (best : Option (ℚ × Fin h)),
      is.foldl (t.toReal.compare column) (best.map (Prod.map (↑) id))
        = Option.map (Prod.map (↑) id) (is.foldl (fun (best : Option (ℚ × Fin h)) i =>
            if Scalar.tolerance < (t.lines.get i).cells.get column ∧
              0 ≤ (t.lines.get i).rhs / (t.lines.get i).cells.get column ∧
              improves ((t.lines.get i).rhs / (t.lines.get i).cells.get column) best
            then some ((t.lines.get i).rhs / (t.lines.get i).cells.get column, i) else best)
          best) := by
    intro is
    induction is with
    | nil => exact fun _ => rfl
    | cons i is ih =>
      intro best
      rw [List.foldl_cons, List.foldl_cons, compare_toReal, ih]
  have hreal : t.toReal.pivotRow? column
      = ((List.finRange h).foldl (t.toReal.compare column) none).map (·.2) := rfl
  have hrow := hfold (List.finRange h) none
  rw [Option.map_none] at hrow
  rw [hreal, hrow, Option.map_map]
  rfl

theorem pivot_toReal (row : Fin h) (column : Fin width) :
    t.toReal.pivot row column = (t.pivot row column).toReal := by
  have hline : (t.toReal.lines.get row).divide ((t.toReal.lines.get row).cells.get column)
      = ((t.lines.get row).divide ((t.lines.get row).cells.get column)).toReal := by
    rw [get_lines_toReal, Line.get_toReal, Line.divide_toReal]
  unfold pivot
  dsimp only
  rw [hline]
  unfold toReal
  dsimp only
  rw [Line.clear_toReal]
  congr 1
  refine vector_ext fun i => ?_
  rw [get_map, get_ofFn, get_ofFn, get_map, Line.clear_toReal, apply_ite Line.toReal]

/-- **A run of pivots computes with rational numbers.** -/
theorem reduce_toReal (limit pivots : ℕ) :
    t.toReal.reduce limit pivots = (t.reduce limit pivots).map toReal := by
  induction pivots generalizing t with
  | zero =>
    unfold reduce
    rw [pivotColumn?_toReal]
    cases t.pivotColumn? <;> rfl
  | succ pivots ih =>
    unfold reduce
    rw [pivotColumn?_toReal]
    cases t.pivotColumn? with
    | none => rfl
    | some column =>
      dsimp only
      rw [pivotRow?_toReal]
      cases t.pivotRow? column with
      | none => rfl
      | some row =>
        dsimp only
        rw [pivot_toReal, ih]

theorem infeasibility_toReal : t.toReal.infeasibility = (t.infeasibility : ℚ) := by
  unfold infeasibility
  rw [← sum_cast, List.map_map]
  refine congrArg Scalar.sum (List.map_congr_left fun i _ => ?_)
  rw [get_lines_toReal]
  exact Scalar.abs_cast _

theorem point_toReal : t.toReal.point = t.point.map (↑) := by
  have hfold : ∀ (j : ℕ) (is : List (Fin h)) (value : ℚ),
      is.foldl (fun value i =>
          if t.toReal.basis.get i = j then value + (t.toReal.lines.get i).rhs
          else if t.toReal.basis.get i = n + j then value - (t.toReal.lines.get i).rhs
          else value) (value : ℝ)
        = (is.foldl (fun value i =>
            if t.basis.get i = j then value + (t.lines.get i).rhs
            else if t.basis.get i = n + j then value - (t.lines.get i).rhs
            else value) value : ℚ) := by
    intro j is
    induction is with
    | nil => exact fun _ => rfl
    | cons i is ih =>
      intro value
      rw [List.foldl_cons, List.foldl_cons, ← ih]
      congr 1
      rw [get_lines_toReal, apply_ite ((↑) : ℚ → ℝ), apply_ite ((↑) : ℚ → ℝ), Rat.cast_add,
        Rat.cast_sub]
      rfl
  refine vector_ext fun j => ?_
  unfold point
  rw [get_map, get_ofFn, get_ofFn, ← hfold, Rat.cast_zero]

end Tableau

/-! ### The first tableau -/

namespace Tableau

variable {n h h' width width' : ℕ}

/-- The tableau of given lines, with the costs of some of the lines added up. -/
def ofLines {α : Type} [Scalar α] (lines : Vector (Line width α) h) (basis : Vector ℕ h)
    (priced : Fin h → Bool) (costs : Line width α) (start : ℕ) : Tableau n h width α where
  lines := lines
  basis := basis
  objective := ((List.finRange h).filter priced).foldl
    (fun costs r => costs.add (lines.get r)) costs
  artificialStart := start

theorem ofLines_toReal (lines : Vector (Line width ℚ) h) (basis : Vector ℕ h)
    (priced : Fin h → Bool) (costs : Line width ℚ) (start : ℕ) :
    (ofLines (lines.map Line.toReal) basis priced costs.toReal start : Tableau n h width ℝ)
      = (ofLines lines basis priced costs start).toReal := by
  have hfold : ∀ (rs : List (Fin h)) (costs : Line width ℚ),
      rs.foldl (fun costs r => costs.add ((lines.map Line.toReal).get r)) costs.toReal
        = (rs.foldl (fun costs r => costs.add (lines.get r)) costs).toReal := by
    intro rs
    induction rs with
    | nil => exact fun _ => rfl
    | cons r rs ih =>
      intro costs
      rw [List.foldl_cons, List.foldl_cons, get_map, Line.add_toReal, ih]
  unfold ofLines toReal
  dsimp only
  rw [hfold]

/-- Tableaus of different shapes, by their entries. -/
theorem sigma_ofLines (hh : h' = h) (hwidth : width' = width) {lines : Vector (Line width ℚ) h}
    {basis : Vector ℕ h} {priced : Fin h → Bool} {costs : Line width ℚ} {start : ℕ}
    {lines' : Vector (Line width' ℝ) h'} {basis' : Vector ℕ h'} {priced' : Fin h' → Bool}
    {costs' : Line width' ℝ} {start' : ℕ}
    (hcells : ∀ i k, (lines'.get i).cells.get k
      = ((lines.get (i.cast hh)).cells.get (k.cast hwidth) : ℝ))
    (hrhs : ∀ i, (lines'.get i).rhs = ((lines.get (i.cast hh)).rhs : ℝ))
    (hbasis : ∀ i, basis'.get i = basis.get (i.cast hh))
    (hpriced : ∀ i, priced' i = priced (i.cast hh))
    (hcosts : ∀ k, costs'.cells.get k = (costs.cells.get (k.cast hwidth) : ℝ))
    (hvalue : costs'.rhs = (costs.rhs : ℝ)) (hstart : start' = start) :
    (⟨h', width', ofLines lines' basis' priced' costs' start'⟩ :
        (h : ℕ) × (width : ℕ) × Tableau n h width ℝ)
      = ⟨h, width, (ofLines lines basis priced costs start).toReal⟩ := by
  subst hh hwidth hstart
  obtain rfl : lines' = lines.map Line.toReal := vector_ext fun i =>
    (Line.eq_toReal (hcells i) (hrhs i)).trans (get_map ..).symm
  obtain rfl : basis' = basis := vector_ext hbasis
  obtain rfl : priced' = priced := funext hpriced
  obtain rfl : costs' = costs.toReal := Line.eq_toReal hcosts hvalue
  rw [ofLines_toReal]

end Tableau

namespace Problem

variable (p : Problem ℚ)

theorem artificialStart_toReal : p.toReal.artificialStart = p.artificialStart := by
  unfold artificialStart
  rw [slackCount_toReal, length_hard_toReal]
  rfl

theorem tableauWidth_toReal : p.toReal.tableauWidth = p.tableauWidth := by
  unfold tableauWidth
  rw [artificialStart_toReal, artificialCount_toReal, length_hard_toReal]

theorem tableauSlack_toReal (r : ℕ) : p.toReal.tableauSlack r = p.tableauSlack r :=
  congrArg (2 * p.variableCount + ·) (p.slackCount_toReal r)

theorem tableauArtificial_toReal (r : ℕ) :
    p.toReal.tableauArtificial r = p.tableauArtificial r := by
  unfold tableauArtificial
  rw [artificialStart_toReal, artificialCount_toReal]

theorem partEntry_toReal (row : HardRow ℚ) (k : ℕ) :
    p.toReal.partEntry row.toReal k = (p.partEntry row k : ℚ) := by
  have hcoefficient : ∀ k : ℕ, row.toReal.coefficients[k]?
      = row.coefficients[k]?.map ((↑) : ℚ → ℝ) := fun k => List.getElem?_map
  have hnegative : (if p.variableCount ≤ k
        then row.coefficients[k - p.variableCount]?.map ((↑) : ℚ → ℝ) else none)
      = (if p.variableCount ≤ k then row.coefficients[k - p.variableCount]? else none).map (↑) := by
    rw [apply_ite (Option.map ((↑) : ℚ → ℝ))]
    rfl
  unfold partEntry
  rw [show p.toReal.variableCount = p.variableCount from rfl]
  dsimp only
  rw [hcoefficient, hcoefficient, hnegative, HardRow.flip_toReal]
  cases row.coefficients[k]? <;>
    cases (if p.variableCount ≤ k then row.coefficients[k - p.variableCount]? else none) <;>
    simp [apply_ite ((↑) : ℚ → ℝ)]

theorem get_tableauLine_toReal (r : p.toReal.Row) (k : Fin p.toReal.tableauWidth) :
    (p.toReal.tableauLine r).cells.get k
      = ((p.tableauLine (r.cast p.length_hard_toReal)).cells.get
          (k.cast p.tableauWidth_toReal) : ℚ) := by
  unfold tableauLine
  dsimp only
  rw [get_ofFn, get_ofFn, row_toReal, HardRow.needsArtificial_toReal, tableauArtificial_toReal,
    HardRow.slackCoefficient?_toReal, tableauSlack_toReal, partEntry_toReal]
  dsimp only [Fin.val_cast]
  cases (p.row (r.cast p.length_hard_toReal)).slackCoefficient? with
  | none => simp [apply_ite ((↑) : ℚ → ℝ)]
  | some coefficient => simp [apply_ite ((↑) : ℚ → ℝ)]

/-- **The first tableau has rational entries.** -/
theorem tableau?_toReal {t : Tableau p.variableCount p.hard.length p.tableauWidth ℚ}
    (ht : p.tableau? = some t)
    {first : Tableau p.toReal.variableCount p.toReal.hard.length p.toReal.tableauWidth ℝ}
    (hfirst : p.toReal.tableau? = some first) :
    (⟨_, _, first⟩ : (h : ℕ) × (width : ℕ) × Tableau p.variableCount h width ℝ)
      = ⟨_, _, t.toReal⟩ := by
  unfold tableau? at ht hfirst
  dsimp only at ht hfirst
  split at ht
  · split at hfirst
    · obtain rfl := Option.some.inj ht
      obtain rfl := Option.some.inj hfirst
      refine Tableau.sigma_ofLines p.length_hard_toReal p.tableauWidth_toReal (fun r k => ?_)
        (fun r => ?_) (fun r => ?_) (fun r => ?_) (fun k => ?_) ?_ p.artificialStart_toReal
      · rw [get_ofFn, get_ofFn]
        exact p.get_tableauLine_toReal r k
      · rw [get_ofFn, get_ofFn]
        unfold tableauLine
        dsimp only
        rw [row_toReal, HardRow.flip_toReal]
        exact (Rat.cast_mul ..).symm
      · rw [get_ofFn, get_ofFn]
        unfold firstBasic
        rw [row_toReal, HardRow.needsArtificial_toReal, tableauArtificial_toReal,
          tableauSlack_toReal]
        rfl
      · rw [row_toReal, HardRow.needsArtificial_toReal]
      · unfold artificialCosts
        dsimp only
        rw [get_ofFn, get_ofFn, artificialStart_toReal, apply_ite ((↑) : ℚ → ℝ)]
        simp
      · exact Rat.cast_zero.symm
    · exact absurd hfirst (by simp)
  · exact absurd ht (by simp)

theorem isSome_tableau?_toReal : p.toReal.tableau?.isSome = p.tableau?.isSome := by
  have hlengths : (p.toReal.hard.all fun row => row.coefficients.isEmpty
      || p.toReal.variableCount + row.coefficients.length ≤ p.toReal.tableauWidth + 1)
      = p.hard.all fun row => row.coefficients.isEmpty
        || p.variableCount + row.coefficients.length ≤ p.tableauWidth + 1 := by
    rw [tableauWidth_toReal]
    show (p.hard.map HardRow.toReal).all _ = _
    rw [List.all_map]
    refine congrArg p.hard.all (funext fun row => ?_)
    show ((row.coefficients.map _).isEmpty || decide (_ + (row.coefficients.map _).length ≤ _)) = _
    rw [List.isEmpty_map, List.length_map]
    rfl
  unfold tableau?
  dsimp only
  rw [hlengths]
  split <;> rfl

/-- **The point that the simplex method finds has rational coordinates.** -/
theorem feasiblePoint_toReal (maxIterations : ℕ) :
    p.toReal.feasiblePoint maxIterations = (p.feasiblePoint maxIterations).map p.realPoint := by
  have hsome := p.isSome_tableau?_toReal
  unfold feasiblePoint
  cases ht : p.tableau? with
  | none =>
    rw [ht, Option.isSome_none, Option.isSome_eq_false_iff, Option.isNone_iff_eq_none] at hsome
    rw [hsome]
    rfl
  | some t =>
    rw [ht, Option.isSome_some, Option.isSome_iff_exists] at hsome
    obtain ⟨first, hfirst⟩ := hsome
    have hpoint := congrArg (fun s : (h : ℕ) × (width : ℕ) × Tableau p.variableCount h width ℝ =>
      (s.2.2.reduce maxIterations maxIterations).bind fun last =>
        if Scalar.tolerance < last.infeasibility then .error .noFeasiblePoint
        else .ok last.point) (p.tableau?_toReal ht hfirst)
    rw [hfirst]
    refine hpoint.trans ?_
    dsimp only
    rw [Tableau.reduce_toReal]
    cases t.reduce maxIterations maxIterations with
    | error _ => rfl
    | ok last =>
      show (if Scalar.tolerance < last.toReal.infeasibility then _ else _)
        = Except.map _ (if Scalar.tolerance < last.infeasibility then _ else _)
      rw [Tableau.infeasibility_toReal, Scalar.tolerance_cast, Tableau.point_toReal]
      by_cases hfar : Scalar.tolerance < last.infeasibility
      · rw [if_pos (Rat.cast_lt.2 hfar), if_pos hfar]
        rfl
      · rw [if_neg (Rat.cast_lt.not.2 hfar), if_neg hfar]
        rfl

/-- **The start has rational coordinates.** -/
theorem initialPoint_toReal (maxIterations : ℕ) :
    p.toReal.initialPoint maxIterations = (p.initialPoint maxIterations).map p.realPoint := by
  unfold initialPoint
  rw [feasibleBasicPoint_toReal]
  cases p.feasibleBasicPoint with
  | error _ => rfl
  | ok basic =>
    cases basic with
    | none => exact p.feasiblePoint_toReal maxIterations
    | some x => rfl

end Problem

end ElasticLayout
