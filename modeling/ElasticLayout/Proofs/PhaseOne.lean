import Mathlib
import ElasticLayout.Proofs.Numbering
import ElasticLayout.Proofs.Search
import ElasticLayout.Proofs.Simplex

/-!
# What the simplex method says about the hard rows

The first tableau says of each hard row that its slack makes up for what it is above its bound, but
for its artificial variable.  So a row holds at the outcome unless its slack was passed over on the
way, or its artificial variable is left at the tolerance.

* `Problem.isBasic_tableau?` -- the first tableau is basic;
* `Problem.holds_tableauLine_iff` -- a line in terms of its row;
* `Problem.feasiblePoint_ok` -- where a point that is returned comes from;
* `Problem.StartOverlooks` -- what the simplex method may leave behind;
* `Problem.isSatisfied_feasiblePoint` -- nothing else is.
-/

namespace ElasticLayout

open Linear

namespace HardRow

theorem flip_mul_flip (row : HardRow ℝ) : row.flip * row.flip = 1 := by
  unfold flip
  split <;> norm_num

theorem flip_mul_rhs_nonneg (row : HardRow ℝ) : 0 ≤ row.flip * row.rhs := by
  unfold flip
  split
  · rename_i hneg
    rw [neg_one_mul]
    exact neg_nonneg.2 (le_of_lt hneg)
  · rename_i hnonneg
    rw [one_mul]
    exact not_lt.1 hnonneg

theorem slackCoefficient?_of_isEquality {row : HardRow ℝ} (h : row.isEquality = true) :
    row.slackCoefficient? = none ∧ row.needsArtificial = true ∧ row.relation.sign = (1 : ℝ) := by
  have hrelation : row.relation = .eq := by simpa [isEquality] using h
  unfold needsArtificial slackCoefficient?
  rw [hrelation]
  exact ⟨rfl, rfl, rfl⟩

theorem isEquality_of_not_needsArtificial {row : HardRow ℝ} (h : row.needsArtificial = false) :
    row.isEquality = false := by
  refine Bool.eq_false_iff.2 fun hequality => ?_
  rw [(slackCoefficient?_of_isEquality hequality).2.1] at h
  exact absurd h (by simp)

/-- The slack of an inequality has coefficient one if it can start in the basis, or else minus
one. -/
theorem slackCoefficient?_of_not_isEquality {row : HardRow ℝ} (h : row.isEquality = false) :
    row.slackCoefficient? = some (-row.relation.sign * row.flip) ∧
      -row.relation.sign * row.flip = if row.needsArtificial then -1 else 1 := by
  have hcoefficient : row.slackCoefficient? = some (-row.relation.sign * row.flip) := by
    unfold slackCoefficient? Relation.sign
    unfold isEquality at h
    cases hrelation : row.relation with
    | le => simp
    | ge => simp
    | eq => exact absurd h (by simp [hrelation])
  refine ⟨hcoefficient, ?_⟩
  have hunit : -row.relation.sign * row.flip = 1 ∨ -row.relation.sign * row.flip = -1 := by
    have hflip : row.flip = 1 ∨ row.flip = -1 := by
      unfold flip
      split
      · exact .inr rfl
      · exact .inl rfl
    have hsign : row.relation.sign = (1 : ℝ) ∨ row.relation.sign = (-1 : ℝ) := by
      cases row.relation with
      | le => exact .inr rfl
      | ge => exact .inl rfl
      | eq => exact .inl rfl
    obtain hflip | hflip := hflip <;> obtain hsign | hsign := hsign <;> rw [hflip, hsign] <;>
      norm_num
  unfold needsArtificial
  rw [hcoefficient]
  obtain hone | hone := hunit
  · rw [hone]
    simp
  · rw [hone]
    simp

end HardRow

namespace Problem

variable {p : Problem ℝ} {r i : p.Row}

/-! ### The first tableau -/

/-- The entries that the coefficients of a row give to its line; those that it lacks are zero. -/
theorem partEntry_eq (hfits : p.RowsFit) (r : p.Row) (k : ℕ) :
    p.partEntry (p.row r) k = (p.row r).flip *
      ((p.row r).coefficients.getD k 0 - if p.variableCount ≤ k
        then (p.row r).coefficients.getD (k - p.variableCount) 0 else 0) := by
  have hlength := hfits.length_row r
  unfold partEntry
  dsimp only
  by_cases hk : p.variableCount ≤ k
  · rw [if_pos hk, if_pos hk, List.getElem?_eq_none (by omega), List.getD_eq_default _ _ (by omega)]
    cases hcell : (p.row r).coefficients[k - p.variableCount]? with
    | none => simp [List.getD_eq_getElem?_getD, hcell]
    | some c => simp [List.getD_eq_getElem?_getD, hcell]
  · rw [if_neg hk, if_neg hk, sub_zero]
    cases hcell : (p.row r).coefficients[k]? with
    | none => simp [List.getD_eq_getElem?_getD, hcell]
    | some c => simp [List.getD_eq_getElem?_getD, hcell]

theorem partEntry_of_le (hfits : p.RowsFit) (r : p.Row) {k : ℕ} (hk : 2 * p.variableCount ≤ k) :
    p.partEntry (p.row r) k = 0 := by
  have hlength := hfits.length_row r
  rw [partEntry_eq hfits, if_pos (by omega), List.getD_eq_default _ _ (by omega),
    List.getD_eq_default _ _ (by omega), sub_zero, mul_zero]

/-- What the entries of both parts of the variables amount to. -/
theorem sum_partEntry (hfits : p.RowsFit) (r : p.Row) {z : ℕ → ℝ} {x : p.Point}
    (hx : ∀ j, x.get j = z j - z (p.variableCount + j)) {w : ℕ} (hw : 2 * p.variableCount ≤ w) :
    ∑ k : Fin w, p.partEntry (p.row r) k * z k = (p.row r).flip * (p.row r).value x.toList := by
  have hlength := hfits.length_row r
  obtain ⟨rest, rfl⟩ : ∃ rest, w = p.variableCount + (p.variableCount + rest) :=
    ⟨w - 2 * p.variableCount, by omega⟩
  have hpositive : ∀ j < p.variableCount, p.partEntry (p.row r) j * z j
      = (p.row r).flip * ((p.row r).coefficients.getD j 0 * z j) := by
    intro j hj
    rw [partEntry_eq hfits, if_neg (by omega), sub_zero, mul_assoc]
  have hnegative : ∀ j, p.partEntry (p.row r) (p.variableCount + j) * z (p.variableCount + j)
      = (p.row r).flip * -((p.row r).coefficients.getD j 0 * z (p.variableCount + j)) := by
    intro j
    rw [partEntry_eq hfits, if_pos (Nat.le_add_right ..), List.getD_eq_default _ _ (by omega),
      Nat.add_sub_cancel_left]
    ring
  have hrest : ∀ j, p.partEntry (p.row r) (p.variableCount + (p.variableCount + j)) = 0 :=
    fun j => partEntry_of_le hfits r (by omega)
  unfold HardRow.value
  rw [dot_getD, ← Finset.sum_range fun k => p.partEntry (p.row r) k * z k, Finset.sum_range_add,
    Finset.sum_range_add,
    Finset.sum_congr rfl fun j hj => hpositive j (Finset.mem_range.1 hj),
    Finset.sum_congr rfl fun j _ => hnegative j]
  simp only [hrest, zero_mul, Finset.sum_const_zero, add_zero]
  rw [← Finset.mul_sum, ← Finset.mul_sum, ← mul_add, ← Finset.sum_add_distrib, Finset.sum_range]
  congr 1
  refine Finset.sum_congr rfl fun j _ => ?_
  rw [hx]
  ring

/-- The artificial variable of a row at values of the columns; none counts as zero. -/
noncomputable def artificialValue (p : Problem ℝ) (r : p.Row) (z : ℕ → ℝ) : ℝ :=
  if (p.row r).needsArtificial then z (p.tableauArtificial r) else 0

/-- The slack of a row at values of the columns, as the row counts it; none counts as zero. -/
noncomputable def slackValue (p : Problem ℝ) (r : p.Row) (z : ℕ → ℝ) : ℝ :=
  (p.row r).slackCoefficient?.getD 0 * z (p.tableauSlack r)

theorem get_tableauLine (hfits : p.RowsFit) (r : p.Row) (k : Fin p.tableauWidth) :
    (p.tableauLine r).cells.get k = p.partEntry (p.row r) k
      + (if k.val = p.tableauSlack r then (p.row r).slackCoefficient?.getD 0 else 0)
      + if k.val = p.tableauArtificial r
        then (if (p.row r).needsArtificial then 1 else 0) else 0 := by
  have hstart : 2 * p.variableCount ≤ p.artificialStart := Nat.le_add_right ..
  have hartificial := artificialStart_le (p := p) r
  have hslack : 2 * p.variableCount ≤ p.tableauSlack r := Nat.le_add_right ..
  unfold tableauLine
  dsimp only
  rw [get_ofFn]
  split
  · rename_i hk
    obtain ⟨hneeds, hk⟩ := hk
    rw [partEntry_of_le hfits r (by omega), if_pos hk, if_pos hneeds]
    cases hequality : (p.row r).isEquality with
    | true =>
      rw [(HardRow.slackCoefficient?_of_isEquality hequality).1, Option.getD_none, ite_self]
      norm_num
    | false =>
      have hlt := tableauSlack_lt hequality
      rw [if_neg (by omega)]
      norm_num
  · rename_i hk
    have hnone : (if k.val = p.tableauArtificial r
        then (if (p.row r).needsArtificial then (1 : ℝ) else 0) else 0) = 0 := by
      by_cases hk' : k.val = p.tableauArtificial r
      · rw [if_pos hk', if_neg fun hneeds => hk ⟨hneeds, hk'⟩]
      · rw [if_neg hk']
    rw [hnone, add_zero]
    cases hcoefficient : (p.row r).slackCoefficient? with
    | none =>
      dsimp only
      rw [Option.getD_none, ite_self, add_zero]
    | some coefficient =>
      dsimp only
      rw [Option.getD_some]
      by_cases hk' : k.val = p.tableauSlack r
      · rw [if_pos hk', if_pos hk', partEntry_of_le hfits r (by omega), zero_add]
      · rw [if_neg hk', if_neg hk', add_zero]

/-- A column that does not exist matters only if it has an entry. -/
theorem sum_ite_column {w k₀ : ℕ} {entry : ℝ} (hentry : entry ≠ 0 → k₀ < w) (z : ℕ → ℝ) :
    (∑ k : Fin w, (if k.val = k₀ then entry else 0) * z k) = entry * z k₀ := by
  by_cases hzero : entry = 0
  · simp [hzero]
  · rw [Finset.sum_eq_single ⟨k₀, hentry hzero⟩]
    · rw [if_pos rfl]
    · intro k _ hk
      rw [if_neg fun hk' => hk (Fin.ext hk'), zero_mul]
    · intro hmem
      exact absurd (Finset.mem_univ _) hmem

/-- **A line says of its row** that the slack and the artificial variable make up for what the left
side lacks. -/
theorem holds_tableauLine_iff (hfits : p.RowsFit) {z : ℕ → ℝ} {x : p.Point}
    (hx : ∀ j, x.get j = z j - z (p.variableCount + j)) {r : p.Row} :
    ((p.tableauLine r).Holds fun k => z k) ↔
      (p.row r).flip * (p.row r).value x.toList + p.slackValue r z + p.artificialValue r z
        = (p.row r).flip * (p.row r).rhs := by
  have hwidth : p.artificialStart ≤ p.tableauWidth := Nat.le_add_right ..
  have hstart : 2 * p.variableCount ≤ p.artificialStart := Nat.le_add_right ..
  have hslack : (p.row r).slackCoefficient?.getD 0 ≠ 0 → p.tableauSlack r < p.tableauWidth := by
    intro hne
    cases hequality : (p.row r).isEquality with
    | true =>
      rw [(HardRow.slackCoefficient?_of_isEquality hequality).1] at hne
      exact absurd rfl hne
    | false => exact (tableauSlack_lt hequality).trans_le hwidth
  have hartificial : (if (p.row r).needsArtificial then (1 : ℝ) else 0) ≠ 0 →
      p.tableauArtificial r < p.tableauWidth := by
    intro hne
    refine tableauArtificial_lt ?_
    by_contra hneeds
    exact hne (if_neg hneeds)
  have hvalue : p.artificialValue r z
      = (if (p.row r).needsArtificial then (1 : ℝ) else 0) * z (p.tableauArtificial r) := by
    unfold artificialValue
    split
    · rw [one_mul]
    · rw [zero_mul]
  unfold Line.Holds
  simp only [get_tableauLine hfits, add_mul, Finset.sum_add_distrib]
  rw [sum_partEntry hfits r hx (hstart.trans hwidth), sum_ite_column hslack z,
    sum_ite_column hartificial z, ← hvalue]
  rfl

/-- The excess of an inequality is its slack, less its artificial variable. -/
theorem excess_of_not_isEquality (hfits : p.RowsFit) {z : ℕ → ℝ} {x : p.Point}
    (hx : ∀ j, x.get j = z j - z (p.variableCount + j)) {r : p.Row}
    (hline : (p.tableauLine r).Holds fun k => z k) (hr : (p.row r).isEquality = false) :
    (p.row r).excess x.toList = z (p.tableauSlack r) - p.artificialValue r z := by
  have hrow := (holds_tableauLine_iff hfits hx).1 hline
  obtain ⟨hcoefficient, hunit⟩ := HardRow.slackCoefficient?_of_not_isEquality hr
  have hflip := (p.row r).flip_mul_flip
  unfold slackValue at hrow
  rw [hcoefficient, Option.getD_some] at hrow
  unfold HardRow.excess HardRow.signedValue HardRow.signedRhs
  generalize ((p.row r).relation.sign : ℝ) = sign at hrow hunit ⊢
  generalize (p.row r).flip = flip at hrow hunit hflip
  generalize (p.row r).value x.toList = value at hrow ⊢
  unfold artificialValue at hrow ⊢
  split
  · rename_i hneeds
    rw [if_pos hneeds] at hrow hunit
    linear_combination (sign * flip) * hrow - sign * (value - (p.row r).rhs) * hflip
      + (z (p.tableauArtificial r) - (sign * flip + 1) * z (p.tableauSlack r)) * hunit
  · rename_i hneeds
    rw [if_neg hneeds] at hrow hunit
    linear_combination (sign * flip) * hrow - sign * (value - (p.row r).rhs) * hflip
      - (sign * flip - 1) * z (p.tableauSlack r) * hunit

/-- The excess of an equality is its artificial variable, up to the sign. -/
theorem abs_excess_of_isEquality (hfits : p.RowsFit) {z : ℕ → ℝ} {x : p.Point}
    (hx : ∀ j, x.get j = z j - z (p.variableCount + j)) {r : p.Row}
    (hline : (p.tableauLine r).Holds fun k => z k) (hr : (p.row r).isEquality = true) :
    |(p.row r).excess x.toList| = |z (p.tableauArtificial r)| := by
  have hrow := (holds_tableauLine_iff hfits hx).1 hline
  obtain ⟨hcoefficient, hneeds, hsign⟩ := HardRow.slackCoefficient?_of_isEquality hr
  have hflip := (p.row r).flip_mul_flip
  unfold slackValue artificialValue at hrow
  rw [hcoefficient, Option.getD_none, zero_mul, add_zero, if_pos hneeds] at hrow
  have hexcess : (p.row r).excess x.toList = -((p.row r).flip * z (p.tableauArtificial r)) := by
    unfold HardRow.excess HardRow.signedValue HardRow.signedRhs
    rw [hsign, one_mul, one_mul]
    linear_combination (p.row r).flip * hrow
      - ((p.row r).value x.toList - (p.row r).rhs) * hflip
  have habs : |(p.row r).flip| = 1 := by
    unfold HardRow.flip
    split
    · rw [abs_neg, abs_one]
    · exact abs_one
  rw [hexcess, abs_neg, abs_mul, habs, one_mul]

/-! ### The first tableau -/

theorem tableau?_eq_some {first : Tableau p.variableCount p.hard.length p.tableauWidth ℝ}
    (h : p.tableau? = some first) : (∀ r, first.lines.get r = p.tableauLine r) ∧
      (∀ r, first.basis.get r = p.firstBasic r) ∧ first.artificialStart = p.artificialStart ∧
      first.objective = ((List.finRange p.hard.length).filter fun r =>
        (p.row r).needsArtificial).foldl (fun costs r => costs.add (first.lines.get r))
          p.artificialCosts := by
  unfold tableau? at h
  dsimp only at h
  split at h
  · obtain rfl := Option.some.inj h
    exact ⟨fun r => by simp [Dense.get_eq_getElem], fun r => by simp [Dense.get_eq_getElem], rfl,
      rfl⟩
  · exact absurd h (by simp)

theorem exists_tableau? (hfits : p.RowsFit) : ∃ first, p.tableau? = some first := by
  have hstart : 2 * p.variableCount ≤ p.artificialStart := Nat.le_add_right ..
  have hwidth : p.artificialStart ≤ p.tableauWidth := Nat.le_add_right ..
  refine ⟨_, if_pos (List.all_eq_true.2 fun row hrow => ?_)⟩
  have hlength := hfits.hard row hrow
  rw [Bool.or_eq_true, decide_eq_true_iff]
  exact .inr (by omega)

/-- **The first tableau is basic.** -/
theorem isBasic_tableau? (hfits : p.RowsFit)
    {first : Tableau p.variableCount p.hard.length p.tableauWidth ℝ}
    (h : p.tableau? = some first) : first.IsBasic := by
  obtain ⟨hlines, hbasis, -, -⟩ := tableau?_eq_some h
  have hstart : 2 * p.variableCount ≤ p.artificialStart := Nat.le_add_right ..
  have hwidth : p.artificialStart ≤ p.tableauWidth := Nat.le_add_right ..
  intro r
  simp only [hlines, hbasis, get_tableauLine hfits]
  unfold firstBasic
  cases hneeds : (p.row r).needsArtificial with
  | true =>
    have hlow := artificialStart_le (p := p) r
    refine ⟨⟨p.tableauArtificial r, tableauArtificial_lt hneeds⟩, rfl, fun i => ?_⟩
    dsimp only
    have hslack : (if p.tableauArtificial r = p.tableauSlack i
        then (p.row i).slackCoefficient?.getD 0 else 0) = 0 := by
      cases hequality : (p.row i).isEquality with
      | true =>
        rw [(HardRow.slackCoefficient?_of_isEquality hequality).1, Option.getD_none, ite_self]
      | false =>
        have hlt := tableauSlack_lt hequality
        exact if_neg (by omega)
    rw [partEntry_of_le hfits i (by omega), hslack, add_zero, zero_add]
    by_cases hi : i = r
    · rw [hi, if_pos rfl, if_pos hneeds, if_pos rfl]
    · rw [if_neg hi]
      split
      · rename_i hcolumn
        exact if_neg fun hneeds' =>
          hi (tableauArtificial_injective hneeds hneeds' hcolumn.symm)
      · rfl
  | false =>
    have hequality := HardRow.isEquality_of_not_needsArtificial hneeds
    have hlt := tableauSlack_lt hequality
    have hlow : 2 * p.variableCount ≤ p.tableauSlack r := Nat.le_add_right ..
    refine ⟨⟨p.tableauSlack r, hlt.trans_le hwidth⟩, rfl, fun i => ?_⟩
    dsimp only
    have hartificial : ¬p.tableauSlack r = p.tableauArtificial i := by
      have hle := artificialStart_le (p := p) i
      omega
    rw [partEntry_of_le hfits i hlow, if_neg hartificial, add_zero, zero_add]
    by_cases hi : i = r
    · obtain ⟨hcoefficient, hunit⟩ := HardRow.slackCoefficient?_of_not_isEquality hequality
      rw [hi, if_pos rfl, if_pos rfl, hcoefficient, Option.getD_some, hunit,
        if_neg (by simp [hneeds])]
    · rw [if_neg hi]
      split
      · rename_i hcolumn
        cases hequality' : (p.row i).isEquality with
        | true => rw [(HardRow.slackCoefficient?_of_isEquality hequality').1, Option.getD_none]
        | false => exact absurd (tableauSlack_injective hequality hequality' hcolumn.symm) hi
      · rfl

/-! ### Rows left behind -/

/-- The simplex method overlooks a row if a pivot drops its slack below zero unseen, or if its
artificial variable is left at the tolerance. -/
inductive StartOverlooks (p : Problem ℝ) (maxIterations : ℕ) (r : p.Row) : Prop where
  | passedOver {first : Tableau p.variableCount p.hard.length p.tableauWidth ℝ} :
    p.tableau? = some first → (p.row r).isEquality = false →
    first.PassesOver (p.tableauSlack r) → StartOverlooks p maxIterations r
  | left {first last : Tableau p.variableCount p.hard.length p.tableauWidth ℝ} :
    p.tableau? = some first → first.reduce maxIterations maxIterations = .ok last →
    (p.row r).needsArtificial = true →
    |last.basicValue (p.tableauArtificial r)| = Scalar.tolerance →
    StartOverlooks p maxIterations r

/-- **A point that is returned** is that of the tableau a run ends at, whose infeasibility is within
the tolerance. -/
theorem feasiblePoint_ok {maxIterations : ℕ} {x : p.Point}
    (h : p.feasiblePoint maxIterations = .ok x) :
    ∃ first last, p.tableau? = some first ∧ first.reduce maxIterations maxIterations = .ok last ∧
      last.infeasibility ≤ Scalar.tolerance ∧ last.point = x := by
  unfold feasiblePoint at h
  split at h
  · exact absurd h (by simp)
  rename_i first hfirst
  obtain ⟨last, hlast, h⟩ := bind_ok h
  split at h
  · exact absurd h (by simp)
  · rename_i hsmall
    exact ⟨first, last, hfirst, hlast, not_lt.1 hsmall, Except.ok.inj h⟩

/-- A solution of the first tableau solves the line of every row. -/
theorem holds_tableauLine_of_solves
    {first : Tableau p.variableCount p.hard.length p.tableauWidth ℝ} (h : p.tableau? = some first)
    {z : Fin p.tableauWidth → ℝ} (hz : first.Solves z) (r : p.Row) : (p.tableauLine r).Holds z := by
  rw [← (tableau?_eq_some h).1]
  exact hz r

/-- **The simplex method meets every row that it does not overlook.** -/
theorem isSatisfied_feasiblePoint (hfits : p.RowsFit) {maxIterations : ℕ} {x : p.Point}
    (h : p.feasiblePoint maxIterations = .ok x) (hseen : ¬p.StartOverlooks maxIterations r) :
    (p.row r).isSatisfied x.toList Scalar.tolerance = true := by
  obtain ⟨first, last, hfirst, hlast, hsmall, rfl⟩ := feasiblePoint_ok h
  obtain ⟨hlines, -, hstart, -⟩ := tableau?_eq_some hfirst
  obtain ⟨hbasic, hstart', hsolves, hkept⟩ :=
    Tableau.reduce_ok hlast (isBasic_tableau? hfits hfirst)
  -- The basic solution of the last tableau solves the line of the row in the first.
  have hline : (p.tableauLine r).Holds fun k => last.basicValue k :=
    holds_tableauLine_of_solves hfirst (hsolves _ hbasic.solves) r
  have hpoint := last.get_point
  -- The artificial variable is within the tolerance.
  have hartificial : (p.row r).needsArtificial = true →
      |last.basicValue (p.tableauArtificial r)| < 1 / 1000000 := by
    intro hneeds
    have hle : |last.basicValue (p.tableauArtificial r)| ≤ last.infeasibility :=
      hbasic.abs_basicValue_le (by rw [hstart', hstart]; exact artificialStart_le r)
    rw [← Scalar.tolerance_eq]
    refine lt_of_le_of_ne (hle.trans hsmall) fun heq => ?_
    exact hseen (.left hfirst hlast hneeds heq)
  rw [HardRow.isSatisfied_iff]
  cases hr : (p.row r).isEquality with
  | true =>
    rw [if_pos rfl, abs_excess_of_isEquality hfits hpoint hline hr]
    exact hartificial (HardRow.slackCoefficient?_of_isEquality hr).2.1
  | false =>
    rw [if_neg (by simp), excess_of_not_isEquality hfits hpoint hline hr]
    -- The slack is not negative.
    have hslack : 0 ≤ last.basicValue (p.tableauSlack r) := by
      have hnonneg := hkept _ (fun hpassed => hseen (.passedOver hfirst hr hpassed))
        fun i _ => by
          rw [hlines]
          exact (p.row i).flip_mul_rhs_nonneg
      by_cases hmem : ∃ i, last.basis.get i = p.tableauSlack r
      · obtain ⟨i, hi⟩ := hmem
        rw [← hi, hbasic.basicValue_basis]
        exact hnonneg i hi
      · rw [Tableau.basicValue_eq_zero fun i hi => hmem ⟨i, hi⟩]
    have hartificial' : p.artificialValue r last.basicValue < 1 / 1000000 := by
      unfold artificialValue
      split
      · rename_i hneeds
        exact lt_of_le_of_lt (le_abs_self _) (hartificial hneeds)
      · norm_num
    linarith

end Problem

end ElasticLayout
