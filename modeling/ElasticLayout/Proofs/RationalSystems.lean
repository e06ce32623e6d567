import ElasticLayout.Proofs.RowOperations

/-!
# Systems of rational numbers

Elimination adds, multiplies, divides and compares.  The rational numbers are closed under that, and
every comparison comes out as it does for the real numbers, so that a system of rational numbers is
reduced in exact arithmetic by computing with rational numbers.

* `Scalar.near_cast`, `Linear.pivot?_cast` -- tests and choices;
* `Linear.Dense.toReal`, `Linear.independentRows_toReal` -- rank detection;
* `EquationSystem.toReal`, `EquationSystem.gaussJordan_toReal` -- elimination;
* `EquationSystem.basicSolution_toReal` -- the solution.
-/

namespace ElasticLayout

instance : Scalar ℚ where
  decLt := fun a b => inferInstanceAs (Decidable (a < b))
  decLe := fun a b => inferInstanceAs (Decidable (a ≤ b))
  beq := fun a b => decide (a = b)
  abs := fun a => |a|
  -- This root is exact for squares only; elimination and the simplex method take none.
  sqrt := Rat.sqrt
  isNaN := fun _ => false
  isFinite := fun _ => true
  nan := 0
  huge := 1.7976931348623157e308

namespace Scalar

variable (a b : ℚ)

@[simp] theorem abs_cast : Scalar.abs (a : ℝ) = (Scalar.abs a : ℚ) := (Rat.cast_abs a).symm

@[simp] theorem tolerance_cast : (Scalar.tolerance : ℝ) = (Scalar.tolerance : ℚ) := by
  show (1e-6 : ℝ) = ((1e-6 : ℚ) : ℝ)
  norm_num

/-- Comparisons come out the same. -/
@[simp] theorem near_cast : Scalar.near (a : ℝ) b = Scalar.near a b := by
  unfold near
  rw [← Rat.cast_sub, abs_cast, tolerance_cast]
  exact decide_eq_decide.2 Rat.cast_lt

@[simp] theorem beq_cast : ((a : ℝ) == b) = (a == b) := by
  rw [Bool.eq_iff_iff, beq_iff]
  show _ ↔ decide (a = b) = true
  rw [decide_eq_true_iff, Rat.cast_inj]

end Scalar

namespace Linear

variable {k m n : ℕ}

/-! ### Rank detection -/

theorem firstLargest_cast (xs : List ℚ) :
    firstLargest (xs.map ((↑) : ℚ → ℝ)) = firstLargest xs := by
  have hgo : ∀ (xs : List ℚ) (largest : ℚ) (index next : ℕ),
      firstLargest.go (largest : ℝ) index next (xs.map ((↑) : ℚ → ℝ))
        = firstLargest.go largest index next xs := by
    intro xs
    induction xs with
    | nil => exact fun _ _ _ => rfl
    | cons x xs ih =>
      intro largest index next
      simp only [List.map_cons, firstLargest.go, Rat.cast_lt, ih]
  cases xs with
  | nil => rfl
  | cons x xs => exact hgo xs x 0 1

/-- Partial pivoting makes the same choice. -/
theorem pivot?_cast {β : Type} (entry : β → ℚ) (rows : List β) :
    pivot? (fun row => (entry row : ℝ)) rows = pivot? entry rows := by
  unfold pivot?
  rw [← firstLargest_cast, List.map_map]
  simp only [Scalar.abs_cast, Function.comp_def]

/-- An array of rational numbers among the real ones. -/
def Dense.toReal (a : Dense m n ℚ) : Dense m n ℝ := a.map fun row => row.map (↑)

@[simp] theorem Dense.get_toReal (a : Dense m n ℚ) (i : Fin m) :
    a.toReal.get i = (a.get i).map (↑) := get_map ..

@[simp] theorem Dense.entry_toReal (a : Dense m n ℚ) (i : Fin m) (j : Fin n) :
    a.toReal.entry i j = (a.entry i j : ℝ) := by
  unfold Dense.entry
  rw [get_toReal, get_map]

theorem Dense.toReal_eq_of_entry {a : Dense m n ℚ} {b : Dense m n ℝ}
    (h : ∀ i j, b.entry i j = a.entry i j) : b = a.toReal :=
  vector_ext fun i => vector_ext fun j => (h i j).trans (a.entry_toReal i j).symm

namespace Reduction

/-- A reduction of rational numbers among the real ones. -/
def toReal (s : Reduction m n ℚ) : Reduction m n ℝ := ⟨s.cells.toReal, s.chosen, s.rest⟩

theorem eliminate_cast (column : Fin n) (pivot row : Vector ℚ n) :
    eliminate column (pivot.map ((↑) : ℚ → ℝ)) (row.map (↑))
      = (eliminate column pivot row).map (↑) := by
  refine vector_ext fun k => ?_
  unfold eliminate
  simp only [get_map, get_ofFn]
  split_ifs <;> push_cast <;> rfl

theorem step_toReal (s : Reduction m n ℚ) (column : Fin n) :
    s.toReal.step column = (s.step column).toReal := by
  unfold step toReal
  simp only [Dense.entry_toReal, pivot?_cast]
  cases pivot? (fun r => s.cells.entry r column) s.rest with
  | none => rfl
  | some found =>
    obtain ⟨p, others⟩ := found
    simp only [Scalar.abs_cast]
    have hnear := Scalar.near_cast (Scalar.abs (s.cells.entry p column)) 0
    rw [Rat.cast_zero] at hnear
    rw [hnear]
    split
    · rfl
    · congr 1
      refine vector_ext fun r => ?_
      simp only [Dense.get_toReal, get_ofFn]
      split
      · exact eliminate_cast ..
      · rfl

end Reduction

theorem independentRows_toReal (a : Dense m n ℚ) :
    independentRows a.toReal = independentRows a := by
  have hreduce : ∀ columns : List (Fin n), ∀ s : Reduction m n ℚ,
      columns.foldl Reduction.step s.toReal = (columns.foldl Reduction.step s).toReal := by
    intro columns
    induction columns with
    | nil => exact fun _ => rfl
    | cons column columns ih =>
      intro s
      rw [List.foldl_cons, List.foldl_cons, Reduction.step_toReal, ih]
  have hchosen : (reduceRows a.toReal).chosen = (reduceRows a).chosen :=
    congrArg Reduction.chosen (hreduce _ (.ofDense a))
  unfold independentRows independenceMask
  rw [hchosen]

end Linear

open Linear

/-! ### Elimination -/

namespace EquationSystem

variable {R C : ℕ}

/-- A system of rational numbers among the real ones. -/
def toReal (s : EquationSystem R C ℚ) : EquationSystem R C ℝ :=
  { s with cells := s.cells.toReal, rhs := s.rhs.map (↑) }

variable (s : EquationSystem R C ℚ)

@[simp] theorem cell_toReal (r : Fin R) (c : Fin C) : s.toReal.cell r c = (s.cell r c : ℝ) :=
  Dense.entry_toReal ..

@[simp] theorem row_toReal (r : Fin R) : s.toReal.cells.get (s.toReal.rowOrder.get r)
    = (s.cells.get (s.rowOrder.get r)).map (↑) := Dense.get_toReal ..

@[simp] theorem rhs_toReal (r : Fin R) : s.toReal.rhs.get r = (s.rhs.get r : ℝ) := get_map ..

theorem liveFrom_toReal (c : Fin C) : s.toReal.liveFrom c = s.liveFrom c := rfl

theorem setRow_toReal (a : Dense R C ℚ) (i : Fin R) (row : Vector ℚ C) :
    a.toReal.setRow i (row.map (↑)) = (a.setRow i row).toReal := by
  refine vector_ext fun k => ?_
  rw [Dense.get_setRow, Dense.get_toReal, Dense.get_toReal, Dense.get_setRow]
  split <;> rfl

/-- What an operation writes to one row. -/
theorem write_toReal {row : Vector ℝ C} {row' : Vector ℚ C} {b : ℝ} {b' : ℚ} (r q : Fin R)
    (hrow : row = row'.map (↑)) (hb : b = b') :
    ({ s.toReal with
        cells := s.toReal.cells.setRow q row
        rhs := s.toReal.rhs.set r.val b r.isLt } : EquationSystem R C ℝ)
      = toReal { s with cells := s.cells.setRow q row', rhs := s.rhs.set r.val b' r.isLt } := by
  subst hrow hb
  unfold toReal
  dsimp only
  rw [setRow_toReal, ← Vector.map_set]

theorem normalize_toReal (i : Fin R) (c : Fin C) :
    s.toReal.normalize i c = (s.normalize i c).toReal := by
  have hone := Scalar.beq_cast (s.cell i c) 1
  rw [Rat.cast_one] at hone
  unfold normalize
  dsimp only
  rw [cell_toReal, hone, row_toReal, rhs_toReal, liveFrom_toReal]
  split
  · rfl
  · refine write_toReal s i _ (vector_ext fun k => ?_) (Rat.cast_div (s.rhs.get i) _).symm
    simp only [get_ofFn, get_map]
    split_ifs <;> push_cast <;> rfl

theorem eliminateRow_toReal (i : Fin R) (c : Fin C) (r : Fin R) :
    eliminateRow i c s.toReal r = (eliminateRow i c s r).toReal := by
  have hnear := Scalar.near_cast (-s.cell r c) 0
  rw [Rat.cast_neg, Rat.cast_zero] at hnear
  unfold eliminateRow
  dsimp only
  rw [cell_toReal, hnear, row_toReal, row_toReal, rhs_toReal, rhs_toReal, liveFrom_toReal]
  split
  · rfl
  · refine write_toReal s r _ (vector_ext fun k => ?_) (by push_cast; rfl)
    simp only [get_ofFn, get_map]
    split_ifs <;> push_cast <;> rfl

theorem eliminateColumn_toReal (i : Fin R) (c : Fin C) (others : List (Fin R)) :
    s.toReal.eliminateColumn i c others = (s.eliminateColumn i c others).toReal := by
  unfold eliminateColumn
  rw [normalize_toReal]
  generalize s.normalize i c = t
  induction others generalizing t with
  | nil => rfl
  | cons r others ih => rw [List.foldl_cons, List.foldl_cons, eliminateRow_toReal, ih]

theorem swapRows_toReal (i j : Fin R) : s.toReal.swapRows i j = (s.swapRows i j).toReal := by
  have hrhs : (s.rhs.map ((↑) : ℚ → ℝ)).swap i.val j.val i.isLt j.isLt
      = (s.rhs.swap i.val j.val i.isLt j.isLt).map (↑) := by
    refine vector_ext fun k => ?_
    rw [get_swap, get_map, get_map, get_swap]
  unfold swapRows toReal
  dsimp only
  rw [hrhs]

/-- A cell counts as zero or not. -/
theorem near_cell_toReal (r : Fin R) (c : Fin C) :
    Scalar.near (s.toReal.cell r c) 0 = Scalar.near (s.cell r c) 0 := by
  rw [cell_toReal, ← Scalar.near_cast, Rat.cast_zero]

theorem bringPivot?_toReal (i : Fin R) (c : Fin C) :
    s.toReal.bringPivot? i c = (s.bringPivot? i c).map toReal := by
  unfold bringPivot?
  simp only [near_cell_toReal]
  rw [show s.toReal.activeRows = s.activeRows from rfl,
    show s.toReal.activeColumns = s.activeColumns from rfl]
  cases s.activeRows.find? fun r => i ≤ r && !Scalar.near (s.cell r c) 0 with
  | some r =>
    dsimp only
    rw [Option.map_some, apply_ite toReal, swapRows_toReal]
  | none =>
    dsimp only
    rw [Option.map_map]
    rfl

theorem eliminateDown_toReal (is : List (Fin R)) :
    s.toReal.eliminateDown is = Prod.map toReal id (s.eliminateDown is) := by
  induction is generalizing s with
  | nil => rfl
  | cons i is ih =>
    by_cases h : i.val < s.columns
    · have hpivot := s.bringPivot?_toReal i (Fin.castLE s.columns_le ⟨i.val, h⟩)
      unfold eliminateDown
      rw [dif_pos h, dif_pos (show i.val < s.toReal.columns from h)]
      dsimp only
      rw [show Fin.castLE s.toReal.columns_le ⟨i.val, h⟩ = Fin.castLE s.columns_le ⟨i.val, h⟩
        from rfl, hpivot]
      cases s.bringPivot? i (Fin.castLE s.columns_le ⟨i.val, h⟩) with
      | none => rfl
      | some t =>
        dsimp only [Option.map_some]
        rw [eliminateColumn_toReal]
        exact ih _
    · unfold eliminateDown
      rw [dif_neg h, dif_neg (show ¬i.val < s.toReal.columns from h)]
      rfl

theorem eliminateUp_toReal (i : Fin R) : s.toReal.eliminateUp i = (s.eliminateUp i).toReal := by
  unfold eliminateUp
  split
  · exact eliminateColumn_toReal ..
  · rfl

/-- **Elimination computes with rational numbers.** -/
theorem gaussJordan_toReal : s.toReal.gaussJordan = Prod.map toReal id s.gaussJordan := by
  have hup : ∀ (is : List (Fin R)) (t : EquationSystem R C ℚ),
      is.foldl eliminateUp t.toReal = (is.foldl eliminateUp t).toReal := by
    intro is
    induction is with
    | nil => exact fun _ => rfl
    | cons i is ih =>
      intro t
      rw [List.foldl_cons, List.foldl_cons, eliminateUp_toReal, ih]
  unfold gaussJordan gaussianElimination
  rw [show s.toReal.activeRows = s.activeRows from rfl, eliminateDown_toReal]
  obtain ⟨t, flag⟩ := s.eliminateDown s.activeRows
  cases flag with
  | false => rfl
  | true => exact congrArg (·, true) (hup _ t)

/-! ### Shrinking -/

theorem ofFn_toReal {m : ℕ} (v : Vector ℚ R) (source : Fin m → Fin R) :
    Vector.ofFn (fun r => (v.map ((↑) : ℚ → ℝ)).get (source r))
      = (Vector.ofFn fun r => v.get (source r)).map (↑) := by
  refine vector_ext fun r => ?_
  simp only [get_ofFn, get_map]

theorem activeCells_toReal : s.toReal.activeCells = s.activeCells.toReal := by
  refine Dense.toReal_eq_of_entry (m := s.rows) (n := s.columns) fun i j => ?_
  have hcell : s.activeCells.entry i j
      = s.cell (i.castLE s.rows_le) (j.castLE s.columns_le) := Dense.entry_ofFn ..
  rw [hcell, ← cell_toReal]
  exact Dense.entry_ofFn ..

theorem removeDependentRows_toReal :
    s.toReal.removeDependentRows = s.removeDependentRows.toReal := by
  have hkept : independentRows s.toReal.activeCells = independentRows s.activeCells := by
    rw [activeCells_toReal]
    exact independentRows_toReal _
  unfold removeDependentRows
  simp only [hkept]
  unfold toReal
  dsimp only
  congr 1
  exact ofFn_toReal ..

theorem isUsed_toReal (c : Fin C) : s.toReal.isUsed c = s.isUsed c := by
  unfold isUsed
  simp only [near_cell_toReal]
  rfl

theorem dropUnused_toReal (c count : ℕ) :
    s.toReal.dropUnused c count = (s.dropUnused c count).toReal := by
  induction count generalizing s c with
  | zero => rfl
  | succ count ih =>
    unfold dropUnused
    by_cases h : c < s.columns
    · rw [dif_pos h, dif_pos (show c < s.toReal.columns from h)]
      by_cases hused : s.isUsed (Fin.castLE s.columns_le ⟨c, h⟩) = true
      · exact (if_pos ((s.isUsed_toReal _).trans hused)).trans
          ((ih s _).trans (congrArg toReal (if_pos hused).symm))
      · exact (if_neg fun hreal => hused ((s.isUsed_toReal _).symm.trans hreal)).trans
          ((ih (s.dropColumn _ h) _).trans (congrArg toReal (if_neg hused).symm))
    · rw [dif_neg h, dif_neg (show ¬c < s.toReal.columns from h)]

theorem removeUnusedColumns_toReal :
    s.toReal.removeUnusedColumns = s.removeUnusedColumns.toReal :=
  dropUnused_toReal s 0 s.columns

/-! ### The solution -/

/-- **The basic solution is a vector of rational numbers.** -/
theorem basicSolution_toReal (length : ℕ) :
    s.toReal.basicSolution length = (s.basicSolution length).map (↑) := by
  have hwrites : ∀ (is : List (Fin R)) (v : Vector ℚ length),
      is.foldl (fun solution i => if h : i.val < C then
          solution.setIfInBounds (s.toReal.columnOrder.get ⟨i.val, h⟩).val (s.toReal.rhs.get i)
        else solution) (v.map (↑))
      = (is.foldl (fun solution i => if h : i.val < C then
          solution.setIfInBounds (s.columnOrder.get ⟨i.val, h⟩).val (s.rhs.get i)
        else solution) v).map ((↑) : ℚ → ℝ) := by
    intro is
    induction is with
    | nil => exact fun _ => rfl
    | cons i is ih =>
      intro v
      rw [List.foldl_cons, List.foldl_cons, ← ih]
      congr 1
      split
      · rw [rhs_toReal, Vector.map_setIfInBounds]
        rfl
      · rfl
  have hstart : (Vector.replicate length (0 : ℝ)) = (Vector.replicate length (0 : ℚ)).map (↑) := by
    rw [Vector.map_replicate, Rat.cast_zero]
  unfold basicSolution
  rw [hstart]
  exact hwrites _ _

end EquationSystem

end ElasticLayout
