import Mathlib
import ElasticLayout.Problem.PhaseOne
import ElasticLayout.Proofs.ExactObjective

/-!
# Tableaux in exact arithmetic

A pivot keeps the solutions of a tableau and keeps the basic columns unit columns, so that the last
tableau gives a solution of the first.  It also keeps right sides non-negative, except in the lines
that the ratio test passes over because their entry is within the tolerance.

* `Line.Holds`, `Tableau.Solves` -- solutions;
* `Tableau.IsBasic`, `Tableau.basicValue` -- unit columns and the solution they give;
* `Tableau.solves_pivot_iff`, `Tableau.isBasic_pivot` -- what a pivot keeps;
* `Tableau.pivotRow?_spec` -- what the ratio test guarantees;
* `Tableau.PassesOver` -- a basic variable falls below zero unseen;
* `Tableau.reduce_ok` -- what a run of pivots keeps.
-/

namespace ElasticLayout

open Linear

variable {n h width : ℕ}

/-! ### Lines -/

namespace Line

/-- The line holds at values of the columns. -/
def Holds (a : Line width ℝ) (z : Fin width → ℝ) : Prop := ∑ k, a.cells.get k * z k = a.rhs

theorem get_add (a b : Line width ℝ) (k : Fin width) :
    (a.add b).cells.get k = a.cells.get k + b.cells.get k := by
  simp [add, Dense.get_eq_getElem]

@[simp] theorem get_divide (a : Line width ℝ) (divisor : ℝ) (k : Fin width) :
    (a.divide divisor).cells.get k = a.cells.get k / divisor := by
  simp [divide, Dense.get_eq_getElem]

@[simp] theorem rhs_divide (a : Line width ℝ) (divisor : ℝ) :
    (a.divide divisor).rhs = a.rhs / divisor := rfl

@[simp] theorem get_clear (column : Fin width) (pivot a : Line width ℝ) (k : Fin width) :
    (clear column pivot a).cells.get k
      = a.cells.get k - a.cells.get column * pivot.cells.get k := by
  unfold clear
  dsimp only
  split
  · rename_i hzero
    rw [Scalar.beq_iff.1 hzero, zero_mul, sub_zero]
  · simp [Dense.get_eq_getElem]

@[simp] theorem rhs_clear (column : Fin width) (pivot a : Line width ℝ) :
    (clear column pivot a).rhs = a.rhs - a.cells.get column * pivot.rhs := by
  unfold clear
  dsimp only
  split
  · rename_i hzero
    rw [Scalar.beq_iff.1 hzero, zero_mul, sub_zero]
  · rfl

theorem holds_divide_iff {a : Line width ℝ} {divisor : ℝ} (hne : divisor ≠ 0)
    {z : Fin width → ℝ} : (a.divide divisor).Holds z ↔ a.Holds z := by
  unfold Holds
  simp only [get_divide, rhs_divide, div_mul_eq_mul_div]
  rw [← Finset.sum_div, div_left_inj' hne]

theorem holds_clear_iff {column : Fin width} {pivot a : Line width ℝ} {z : Fin width → ℝ}
    (hpivot : pivot.Holds z) : (clear column pivot a).Holds z ↔ a.Holds z := by
  unfold Holds at hpivot ⊢
  simp only [get_clear, rhs_clear, sub_mul, Finset.sum_sub_distrib, mul_assoc]
  rw [← Finset.mul_sum, hpivot, sub_left_inj]

end Line

namespace Tableau

variable {t : Tableau n h width ℝ} {row : Fin h} {column : Fin width}

/-! ### Pivots -/

theorem get_lines_pivot (t : Tableau n h width ℝ) (row : Fin h) (column : Fin width) (i : Fin h) :
    (t.pivot row column).lines.get i = if i = row
      then (t.lines.get row).divide ((t.lines.get row).cells.get column)
      else ((t.lines.get row).divide ((t.lines.get row).cells.get column)).clear column
        (t.lines.get i) := by
  simp [pivot, Dense.get_eq_getElem]

theorem get_basis_pivot (t : Tableau n h width ℝ) (row : Fin h) (column : Fin width) (i : Fin h) :
    (t.pivot row column).basis.get i = if i = row then column.val else t.basis.get i := by
  simp only [pivot, Dense.get_eq_getElem, Vector.getElem_set, Fin.ext_iff, eq_comm]

/-- The values solve all lines. -/
def Solves (t : Tableau n h width ℝ) (z : Fin width → ℝ) : Prop := ∀ i, (t.lines.get i).Holds z

/-- **A pivot keeps the solutions.** -/
theorem solves_pivot_iff (hentry : (t.lines.get row).cells.get column ≠ 0) {z : Fin width → ℝ} :
    (t.pivot row column).Solves z ↔ t.Solves z := by
  -- Both tableaux have the pivot line, up to a factor.
  have hrow : ((t.pivot row column).lines.get row).Holds z ↔ (t.lines.get row).Holds z := by
    rw [get_lines_pivot, if_pos rfl, Line.holds_divide_iff hentry]
  have hother : (t.lines.get row).Holds z → ∀ i, i ≠ row →
      (((t.pivot row column).lines.get i).Holds z ↔ (t.lines.get i).Holds z) := by
    intro hz i hi
    rw [get_lines_pivot, if_neg hi]
    exact Line.holds_clear_iff ((Line.holds_divide_iff hentry).2 hz)
  constructor
  · intro hz i
    by_cases hi : i = row
    · exact hi ▸ hrow.1 (hz row)
    · exact (hother (hrow.1 (hz row)) i hi).1 (hz i)
  · intro hz i
    by_cases hi : i = row
    · exact hi ▸ hrow.2 (hz row)
    · exact (hother (hz row) i hi).2 (hz i)

/-! ### Basic columns -/

/-- The basic columns are unit columns. -/
def IsBasic (t : Tableau n h width ℝ) : Prop :=
  ∀ j, ∃ k : Fin width, t.basis.get j = k.val ∧
    ∀ i, (t.lines.get i).cells.get k = if i = j then 1 else 0

/-- The value of a column in the basic solution. -/
noncomputable def basicValue (t : Tableau n h width ℝ) (k : ℕ) : ℝ :=
  ∑ i, if t.basis.get i = k then (t.lines.get i).rhs else 0

theorem IsBasic.basis_injective (ht : t.IsBasic) {i j : Fin h}
    (hij : t.basis.get i = t.basis.get j) : i = j := by
  obtain ⟨k, hk, hunit⟩ := ht i
  obtain ⟨l, hl, hunit'⟩ := ht j
  obtain rfl : k = l := Fin.ext (hk.symm.trans (hij.trans hl))
  by_contra hne
  have hone := hunit i
  rw [if_pos rfl, hunit' i, if_neg hne] at hone
  exact absurd hone zero_ne_one

theorem IsBasic.basicValue_basis (ht : t.IsBasic) (i : Fin h) :
    t.basicValue (t.basis.get i) = (t.lines.get i).rhs := by
  have hif : ∀ j, (if t.basis.get j = t.basis.get i then (t.lines.get j).rhs else 0)
      = if j = i then (t.lines.get j).rhs else 0 := fun j =>
    if_congr ⟨ht.basis_injective, fun hj => hj ▸ rfl⟩ rfl rfl
  unfold basicValue
  simp only [hif]
  rw [Finset.sum_ite_eq' Finset.univ i fun j => (t.lines.get j).rhs, if_pos (Finset.mem_univ i)]

theorem basicValue_eq_zero {k : ℕ} (hk : ∀ i, t.basis.get i ≠ k) : t.basicValue k = 0 :=
  Finset.sum_eq_zero fun i _ => if_neg (hk i)

/-- Values spread over the basic columns come back as the values of the lines. -/
theorem IsBasic.sum_spread (ht : t.IsBasic) (b : Fin h → ℝ) (i : Fin h) :
    ∑ k, (t.lines.get i).cells.get k * (∑ j, if t.basis.get j = k.val then b j else 0) = b i := by
  simp only [Finset.mul_sum, mul_ite, mul_zero]
  rw [Finset.sum_comm]
  have hcolumn : ∀ j, (∑ k : Fin width, if t.basis.get j = k.val
      then (t.lines.get i).cells.get k * b j else 0) = if j = i then b j else 0 := by
    intro j
    obtain ⟨k, hk, hunit⟩ := ht j
    rw [Finset.sum_eq_single k, if_pos hk, hunit i]
    · by_cases hij : i = j
      · rw [if_pos hij, if_pos hij.symm, one_mul]
      · rw [if_neg hij, if_neg (Ne.symm hij), zero_mul]
    · intro l _ hlk
      exact if_neg fun hl => hlk (Fin.ext (hl.symm.trans hk))
    · intro hmem
      exact absurd (Finset.mem_univ k) hmem
  simp only [hcolumn]
  rw [Finset.sum_ite_eq' Finset.univ i b, if_pos (Finset.mem_univ i)]

/-- **The basic solution solves the tableau.** -/
theorem IsBasic.solves (ht : t.IsBasic) : t.Solves fun k => t.basicValue k :=
  ht.sum_spread fun i => (t.lines.get i).rhs

/-- **A pivot keeps the basic columns unit columns.** -/
theorem isBasic_pivot (ht : t.IsBasic) (hentry : (t.lines.get row).cells.get column ≠ 0) :
    (t.pivot row column).IsBasic := by
  intro j
  by_cases hj : j = row
  · refine ⟨column, by rw [get_basis_pivot, if_pos hj], fun i => ?_⟩
    rw [get_lines_pivot]
    by_cases hi : i = row
    · rw [if_pos hi, if_pos (hi.trans hj.symm), Line.get_divide, div_self hentry]
    · rw [if_neg hi, if_neg (fun hij => hi (hij.trans hj)), Line.get_clear, Line.get_divide,
        div_self hentry, mul_one, sub_self]
  · obtain ⟨k, hk, hunit⟩ := ht j
    have hrow : (t.lines.get row).cells.get k = 0 := by rw [hunit, if_neg (Ne.symm hj)]
    refine ⟨k, by rw [get_basis_pivot, if_neg hj, hk], fun i => ?_⟩
    rw [get_lines_pivot]
    by_cases hi : i = row
    · rw [if_pos hi, Line.get_divide, hrow, zero_div, if_neg (fun hij => hj (hij.symm.trans hi))]
    · rw [if_neg hi, Line.get_clear, Line.get_divide, hrow, zero_div, mul_zero, sub_zero, hunit]

theorem get_point (t : Tableau n h width ℝ) (j : Fin n) :
    t.point.get j = t.basicValue j - t.basicValue (n + j) := by
  have hne : ∀ i, t.basis.get i = j.val → ¬t.basis.get i = n + j.val := by
    intro i hi
    omega
  have hfold : ∀ (is : List (Fin h)) (value : ℝ), is.foldl
      (fun value i =>
        if t.basis.get i = j.val then value + (t.lines.get i).rhs
        else if t.basis.get i = n + j.val then value - (t.lines.get i).rhs
        else value) value
      = value + (is.map fun i => (if t.basis.get i = j.val then (t.lines.get i).rhs else 0)
        - if t.basis.get i = n + j.val then (t.lines.get i).rhs else 0).sum := by
    intro is
    induction is with
    | nil => simp
    | cons i is ih =>
      intro value
      rw [List.foldl_cons, ih, List.map_cons, List.sum_cons, ← add_assoc]
      congr 1
      by_cases hi : t.basis.get i = j.val
      · rw [if_pos hi, if_pos hi, if_neg (hne i hi), sub_zero]
      · by_cases hi' : t.basis.get i = n + j.val
        · rw [if_neg hi, if_pos hi', if_neg hi, if_pos hi', zero_sub, sub_eq_add_neg]
        · rw [if_neg hi, if_neg hi', if_neg hi, if_neg hi', sub_zero, add_zero]
  unfold point basicValue
  rw [← Finset.sum_sub_distrib, Fin.sum_univ_def, Dense.get_eq_getElem, Vector.getElem_ofFn]
  exact (hfold _ 0).trans (zero_add _)

/-! ### The ratio test -/

/-- The ratio of a line to its entry in a column. -/
noncomputable def ratio (t : Tableau n h width ℝ) (column : Fin width) (i : Fin h) : ℝ :=
  (t.lines.get i).rhs / (t.lines.get i).cells.get column

/-- The ratio test looks at a line. -/
def Compared (t : Tableau n h width ℝ) (column : Fin width) (i : Fin h) : Prop :=
  Scalar.tolerance < (t.lines.get i).cells.get column ∧ 0 ≤ t.ratio column i

/-- What the ratio test has found among the lines it has seen. -/
structure Found (t : Tableau n h width ℝ) (column : Fin width) (best : ℝ × Fin h) : Prop where
  compared : t.Compared column best.2
  ratio_eq : best.1 = t.ratio column best.2

/-- One line of the ratio test. -/
noncomputable def compare (t : Tableau n h width ℝ) (column : Fin width)
    (best : Option (ℝ × Fin h)) (i : Fin h) : Option (ℝ × Fin h) :=
  let entry : ℝ := (t.lines.get i).cells.get column
  let ratio := (t.lines.get i).rhs / entry
  if Scalar.tolerance < entry ∧ 0 ≤ ratio ∧ improves ratio best then some (ratio, i) else best

theorem compare_spec {best : Option (ℝ × Fin h)} (hbest : ∀ b, best = some b → t.Found column b)
    (i : Fin h) : (∀ b, t.compare column best i = some b → t.Found column b) ∧
      (∀ b, best = some b → ∃ b', t.compare column best i = some b' ∧ b'.1 ≤ b.1) ∧
      (t.Compared column i → ∃ b', t.compare column best i = some b' ∧
        b'.1 ≤ t.ratio column i) := by
  unfold compare
  dsimp only
  split
  · rename_i hcompared
    refine ⟨fun b hb => ?_, fun b hb => ⟨_, rfl, ?_⟩, fun _ => ⟨_, rfl, le_rfl⟩⟩
    · obtain rfl := Option.some.inj hb
      exact ⟨⟨hcompared.1, hcompared.2.1⟩, rfl⟩
    · obtain rfl := hb
      exact le_of_lt (of_decide_eq_true hcompared.2.2)
  · rename_i hcompared
    refine ⟨hbest, fun b hb => ⟨b, hb, le_rfl⟩, fun hi => ?_⟩
    cases best with
    | none => exact absurd ⟨hi.1, hi.2, rfl⟩ hcompared
    | some b =>
      refine ⟨b, rfl, not_lt.1 fun hlt => hcompared ⟨hi.1, hi.2, ?_⟩⟩
      exact decide_eq_true hlt

theorem foldl_compare_spec (is : List (Fin h)) {best : Option (ℝ × Fin h)}
    (hbest : ∀ b, best = some b → t.Found column b) {found : ℝ × Fin h}
    (hfound : is.foldl (t.compare column) best = some found) :
    t.Found column found ∧ (∀ b, best = some b → found.1 ≤ b.1) ∧
      ∀ i ∈ is, t.Compared column i → found.1 ≤ t.ratio column i := by
  induction is generalizing best with
  | nil => exact ⟨hbest found hfound, fun b hb => (Option.some.inj (hfound.symm.trans hb) ▸ le_rfl),
      by simp⟩
  | cons i is ih =>
    obtain ⟨hnext, hless, hhere⟩ := compare_spec hbest i
    obtain ⟨hspec, hle, hrest⟩ := ih hnext hfound
    refine ⟨hspec, fun b hb => ?_, fun j hj hcompared => ?_⟩
    · obtain ⟨b', hb', hbb'⟩ := hless b hb
      exact (hle b' hb').trans hbb'
    · obtain rfl | hj := List.mem_cons.1 hj
      · obtain ⟨b', hb', hle'⟩ := hhere hcompared
        exact (hle b' hb').trans hle'
      · exact hrest j hj hcompared

/-- **The ratio test** chooses among the lines it looks at one with the least ratio. -/
theorem pivotRow?_spec (hrow : t.pivotRow? column = some row) :
    t.Compared column row ∧ ∀ i, t.Compared column i → t.ratio column row ≤ t.ratio column i := by
  obtain ⟨⟨v, i⟩, hfound, rfl⟩ := Option.map_eq_some_iff.1 hrow
  obtain ⟨hspec, -, hleast⟩ := foldl_compare_spec (List.finRange h) (by simp) hfound
  refine ⟨hspec.compared, fun j hj => ?_⟩
  rw [← hspec.ratio_eq]
  exact hleast j (List.mem_finRange j) hj

theorem entry_ne_zero_of_pivotRow? (hrow : t.pivotRow? column = some row) :
    (t.lines.get row).cells.get column ≠ 0 := by
  have hpos := (pivotRow?_spec hrow).1.1
  rw [Scalar.tolerance_eq] at hpos
  linarith

/-- The basic variable of a column falls below zero in a pivot: its line is passed over, because its
entry is within the tolerance. -/
def DropsAt (t : Tableau n h width ℝ) (row : Fin h) (column : Fin width) (k : ℕ) : Prop :=
  ∃ i, t.basis.get i = k ∧ 0 < (t.lines.get i).cells.get column ∧
    (t.lines.get i).cells.get column ≤ Scalar.tolerance ∧
    ((t.pivot row column).lines.get i).rhs < 0

/-- Some pivot of the run from a tableau drops the basic variable of a column. -/
inductive PassesOver (k : ℕ) : Tableau n h width ℝ → Prop where
  | now {t : Tableau n h width ℝ} {column : Fin width} {row : Fin h} :
    t.pivotColumn? = some column → t.pivotRow? column = some row → t.DropsAt row column k →
    PassesOver k t
  | later {t : Tableau n h width ℝ} {column : Fin width} {row : Fin h} :
    t.pivotColumn? = some column → t.pivotRow? column = some row →
    PassesOver k (t.pivot row column) → PassesOver k t

/-- A pivot that does not drop a basic variable keeps it non-negative. -/
theorem rhs_nonneg_pivot {k : ℕ} (hrow : t.pivotRow? column = some row)
    (hdrops : ¬t.DropsAt row column k) (hk : ∀ i, t.basis.get i = k → 0 ≤ (t.lines.get i).rhs)
    (i : Fin h) (hi : (t.pivot row column).basis.get i = k) :
    0 ≤ ((t.pivot row column).lines.get i).rhs := by
  obtain ⟨⟨hentry, hratio⟩, hleast⟩ := pivotRow?_spec hrow
  rw [get_basis_pivot] at hi
  by_cases hrow' : i = row
  · rw [get_lines_pivot, if_pos hrow']
    exact hratio
  rw [if_neg hrow'] at hi
  have hrhs := hk i hi
  have hpivot : ((t.pivot row column).lines.get i).rhs
      = (t.lines.get i).rhs - (t.lines.get i).cells.get column * t.ratio column row := by
    rw [get_lines_pivot, if_neg hrow', Line.rhs_clear]
    rfl
  by_contra hneg
  have hneg := not_le.1 hneg
  refine hdrops ⟨i, hi, ?_, ?_, hneg⟩
  · rw [hpivot] at hneg
    by_contra hentry'
    have hrise := mul_nonpos_of_nonpos_of_nonneg (not_lt.1 hentry') hratio
    rw [ratio] at hneg
    linarith
  · by_contra hlarge
    have hlarge := not_le.1 hlarge
    have hpos : 0 < (t.lines.get i).cells.get column := by
      refine lt_trans ?_ hlarge
      rw [Scalar.tolerance_eq]
      norm_num
    have hle := hleast i ⟨hlarge, div_nonneg hrhs hpos.le⟩
    rw [ratio, ratio, le_div_iff₀ hpos] at hle
    rw [hpivot, ratio] at hneg
    linarith

/-- **What a run of pivots keeps**: the last tableau is basic, has no solutions that the first has
not, and keeps the basic variables non-negative that it does not pass over. -/
theorem reduce_ok {limit pivots : ℕ} {last : Tableau n h width ℝ}
    (hrun : t.reduce limit pivots = .ok last) (ht : t.IsBasic) :
    last.IsBasic ∧ last.artificialStart = t.artificialStart ∧ (∀ z, last.Solves z → t.Solves z) ∧
      ∀ k, ¬t.PassesOver k → (∀ i, t.basis.get i = k → 0 ≤ (t.lines.get i).rhs) →
        ∀ i, last.basis.get i = k → 0 ≤ (last.lines.get i).rhs := by
  induction pivots generalizing t with
  | zero =>
    unfold reduce at hrun
    split at hrun
    · obtain rfl := Except.ok.inj hrun
      exact ⟨ht, rfl, fun _ => id, fun _ _ => id⟩
    · exact absurd hrun (by simp)
  | succ pivots ih =>
    unfold reduce at hrun
    split at hrun
    · obtain rfl := Except.ok.inj hrun
      exact ⟨ht, rfl, fun _ => id, fun _ _ => id⟩
    · rename_i column hcolumn
      split at hrun
      · exact absurd hrun (by simp)
      · rename_i row hrow
        have hentry := entry_ne_zero_of_pivotRow? hrow
        obtain ⟨hbasic, hstart, hsolves, hkept⟩ := ih hrun (isBasic_pivot ht hentry)
        refine ⟨hbasic, hstart, fun z hz => (solves_pivot_iff hentry).1 (hsolves z hz), ?_⟩
        intro k hk hnonneg
        exact hkept k (fun hlater => hk (.later hcolumn hrow hlater))
          (rhs_nonneg_pivot hrow (fun hnow => hk (.now hcolumn hrow hnow)) hnonneg)

/-- The infeasibility bounds the value of every artificial variable. -/
theorem IsBasic.abs_basicValue_le (ht : t.IsBasic) {k : ℕ} (hk : t.artificialStart ≤ k) :
    |t.basicValue k| ≤ t.infeasibility := by
  have hinfeasibility : t.infeasibility
      = ∑ i, if t.artificialStart ≤ t.basis.get i then |(t.lines.get i).rhs| else 0 := by
    unfold infeasibility
    rw [Scalar.sum_eq, sum_map_filter, Fin.sum_univ_def]
    simp only [decide_eq_true_eq]
    rfl
  have hnonneg : ∀ i,
      0 ≤ if t.artificialStart ≤ t.basis.get i then |(t.lines.get i).rhs| else 0 := by
    intro i
    split
    · exact abs_nonneg _
    · exact le_rfl
  rw [hinfeasibility]
  by_cases hbasic : ∃ i, t.basis.get i = k
  · obtain ⟨i, rfl⟩ := hbasic
    rw [ht.basicValue_basis]
    have hle := Finset.single_le_sum (fun i _ => hnonneg i) (Finset.mem_univ i)
    rwa [if_pos hk] at hle
  · rw [basicValue_eq_zero fun i hi => hbasic ⟨i, hi⟩, abs_zero]
    exact Finset.sum_nonneg fun i _ => hnonneg i

end Tableau

end ElasticLayout
