import Mathlib
import ElasticLayout.Problem.ActiveSet
import ElasticLayout.Proofs.ExactObjective

/-!
# Null spaces by reflection

In exact arithmetic the trailing columns of the orthogonal factor are orthogonal to the columns that
were factored.  So a step of the search keeps the values of the rows that it was computed for.

* `Reflector.overlap`, `Reflector.Reflects` -- what the reflection of a column consists of;
* `Reflector.ofColumn?_spec` -- a reflection annihilates its column below the pivot;
* `Reflector.eq_zero_of_applyRow` -- and it maps nothing else to zero;
* `pull` -- a vector in the coordinates of an orthogonal factor;
* `pull_factorColumns` -- a factored column has no coordinates behind its pivot;
* `eq_zero_of_pull_factor` -- only zero has no coordinates at all;
* `descent_orthogonal` -- the step of the search is orthogonal to the rows of the array.
-/

namespace ElasticLayout

namespace Linear

variable {m n k : ℕ}

/-! ### One reflection -/

namespace Reflector

/-- The inner product of the normal and a vector, from the pivot on. -/
noncomputable def overlap (r : Reflector m ℝ) (v : Vector ℝ m) : ℝ :=
  ∑ i, if r.pivot ≤ i then r.normal.get i * v.get i else 0

theorem sum_trailing (pivot : Fin m) (f : Fin m → ℝ) :
    (trailing pivot).foldl (fun s i => s + f i) 0 = ∑ i, if pivot ≤ i then f i else 0 := by
  rw [foldl_add_eq_sum, zero_add, trailing, sum_map_filter, Fin.sum_univ_def]
  simp only [decide_eq_true_eq]

theorem get_applyColumn (r : Reflector m ℝ) (v : Vector ℝ m) (i : Fin m) :
    (r.applyColumn v).get i = if r.pivot ≤ i
      then v.get i + r.normal.get i * (r.overlap v * r.columnFactor) else v.get i := by
  unfold applyColumn overlap
  rw [get_ofFn, sum_trailing]

theorem get_applyRow (r : Reflector m ℝ) (v : Vector ℝ m) (i : Fin m) :
    (r.applyRow v).get i = if r.pivot ≤ i
      then v.get i + r.normal.get i * (r.overlap v * r.rowFactor) else v.get i := by
  unfold applyRow overlap
  rw [get_ofFn, sum_trailing, mul_comm (r.normal.get i)]
  simp only [mul_comm (v.get _)]

theorem sum_le_eq_add_sum_lt (pivot : Fin m) (f : Fin m → ℝ) :
    (∑ i, if pivot ≤ i then f i else 0) = f pivot + ∑ i, if pivot < i then f i else 0 := by
  have hsplit : ∀ i, (if pivot ≤ i then f i else 0)
      = (if i = pivot then f i else 0) + if pivot < i then f i else 0 := by
    intro i
    obtain hlt | heq | hgt := lt_trichotomy i pivot
    · rw [if_neg hlt.not_ge, if_neg hlt.ne, if_neg hlt.asymm, add_zero]
    · rw [if_pos heq.ge, if_pos heq, if_neg heq.not_gt, add_zero]
    · rw [if_pos hgt.le, if_neg hgt.ne', if_pos hgt, zero_add]
  simp only [hsplit]
  rw [Finset.sum_add_distrib, Finset.sum_ite_eq' Finset.univ pivot f, if_pos (Finset.mem_univ _)]

/-- The squares of a column behind a position, added up. -/
noncomputable def below (pivot : Fin m) (column : Vector ℝ m) : ℝ :=
  ∑ i, if pivot < i then column.get i * column.get i else 0

theorem below_nonneg (pivot : Fin m) (column : Vector ℝ m) : 0 ≤ below pivot column := by
  refine Finset.sum_nonneg fun i _ => ?_
  split
  · exact mul_self_nonneg _
  · exact le_rfl

theorem sum_filter_below (pivot : Fin m) (column : Vector ℝ m) :
    Scalar.sum (((List.finRange m).filter (pivot < ·)).map fun i => column.get i * column.get i)
      = below pivot column := by
  rw [Scalar.sum_eq, sum_map_filter, below, Fin.sum_univ_def]
  simp only [decide_eq_true_eq]

/-- What the reflection of a column consists of.  Its diagonal entry has the length of the column
from the pivot on, and not the sign of the pivot cell. -/
structure Reflects (r : Reflector m ℝ) (pivot : Fin m) (column : Vector ℝ m) : Prop where
  pivot_eq : r.pivot = pivot
  normal : ∀ i, r.normal.get i = if i = pivot then column.get pivot - r.diagonal else column.get i
  sq_diagonal : r.diagonal * r.diagonal = below pivot column + column.get pivot * column.get pivot
  sq_pos : 0 < r.diagonal * r.diagonal
  diagonal_mul_nonpos : r.diagonal * column.get pivot ≤ 0
  columnFactor : r.columnFactor = 1 / (r.diagonal * column.get pivot
    - (below pivot column + column.get pivot * column.get pivot))
  rowFactor : r.rowFactor = -2 / (below pivot column
    + (column.get pivot - r.diagonal) * (column.get pivot - r.diagonal))

theorem reflects_of_ofColumn? {pivot : Fin m} {column : Vector ℝ m} {r : Reflector m ℝ}
    (h : ofColumn? pivot column = some r) : r.Reflects pivot column := by
  obtain ⟨x, hx⟩ : ∃ x, x = column.get pivot := ⟨_, rfl⟩
  unfold ofColumn? at h
  dsimp only at h
  rw [sum_filter_below, ← hx] at h
  split at h
  · exact absurd h (by simp)
  rename_i hnorm
  obtain ⟨norm, hnorm₀⟩ : ∃ norm : ℝ, norm = Scalar.sqrt (below pivot column + x * x) := ⟨_, rfl⟩
  rw [← hnorm₀] at h hnorm
  have hsq : norm * norm = below pivot column + x * x := by
    rw [hnorm₀]
    exact Real.mul_self_sqrt (add_nonneg (below_nonneg _ _) (mul_self_nonneg x))
  have hpos : 0 < norm := by
    have hle : 0 ≤ norm := by
      rw [hnorm₀]
      exact Real.sqrt_nonneg _
    rw [Scalar.near_iff, sub_zero, abs_of_nonneg hle] at hnorm
    linarith
  have hr := Option.some.inj h
  have hdiagonal : r.diagonal = if x < 0 then norm else -norm := by rw [← hr]
  have hdd : r.diagonal * r.diagonal = norm * norm := by
    rw [hdiagonal]
    split <;> ring
  refine ⟨by rw [← hr], fun i => ?_, ?_, ?_, ?_, ?_, ?_⟩
  · rw [← hr, ← hx]
    simp only [Dense.get_eq_getElem, Vector.getElem_set, Fin.ext_iff, eq_comm]
  · rw [hdd, hsq, hx]
  · rw [hdd]
    exact mul_pos hpos hpos
  · rw [hdiagonal, ← hx]
    split
    · exact mul_nonpos_of_nonneg_of_nonpos hpos.le (by linarith)
    · exact mul_nonpos_of_nonpos_of_nonneg (by linarith) (by linarith)
  · rw [← hr, ← hx]
  · rw [← hr, ← hx, show (-2.0 : ℝ) = -2 by norm_num]

namespace Reflects

variable {r : Reflector m ℝ} {pivot : Fin m} {column : Vector ℝ m}

/-- The inner product of the normal and the column is not zero. -/
theorem depth_pos (h : r.Reflects pivot column) :
    0 < below pivot column + column.get pivot * column.get pivot
      - r.diagonal * column.get pivot := by
  have := h.sq_diagonal
  have := h.sq_pos
  have := h.diagonal_mul_nonpos
  linarith

theorem rowFactor_eq (h : r.Reflects pivot column) : r.rowFactor = r.columnFactor := by
  have hdepth := h.depth_pos
  have hsq := h.sq_diagonal
  have hsquare : (column.get pivot - r.diagonal) * (column.get pivot - r.diagonal)
      = column.get pivot * column.get pivot - 2 * (r.diagonal * column.get pivot)
        + r.diagonal * r.diagonal := by ring
  rw [h.rowFactor, h.columnFactor, hsquare,
    div_eq_div_iff (by linarith) (by linarith)]
  linarith

/-- The inner product of the normal and a vector that agrees with the column behind the pivot. -/
theorem overlap_eq (h : r.Reflects pivot column) {v : Vector ℝ m}
    (hv : ∀ i, pivot < i → v.get i = column.get i) :
    r.overlap v = (column.get pivot - r.diagonal) * v.get pivot + below pivot column := by
  unfold overlap
  rw [h.pivot_eq, sum_le_eq_add_sum_lt, h.normal, if_pos rfl, below]
  refine congrArg _ (Finset.sum_congr rfl fun i _ => ?_)
  split
  · rw [h.normal, if_neg (ne_of_gt ‹_›), hv i ‹_›]
  · rfl

theorem overlap_column (h : r.Reflects pivot column) :
    r.overlap column * r.columnFactor = -1 := by
  have hdepth := h.depth_pos
  rw [h.overlap_eq fun _ _ => rfl, h.columnFactor, mul_one_div, div_eq_iff (by linarith)]
  ring

/-- A reflection maps its column to the diagonal entry at the pivot. -/
theorem get_applyColumn_pivot (h : r.Reflects pivot column) :
    (r.applyColumn column).get pivot = r.diagonal := by
  rw [get_applyColumn, h.pivot_eq, if_pos le_rfl, h.overlap_column, h.normal, if_pos rfl]
  ring

theorem overlap_normal (h : r.Reflects pivot column) :
    r.overlap r.normal * r.columnFactor = -2 := by
  have hdepth := h.depth_pos
  have hsq := h.sq_diagonal
  have hnormal : r.overlap r.normal = (column.get pivot - r.diagonal)
      * (column.get pivot - r.diagonal) + below pivot column := by
    rw [h.overlap_eq fun i hi => by rw [h.normal, if_neg hi.ne'], h.normal, if_pos rfl]
  rw [hnormal, h.columnFactor, mul_one_div, div_eq_iff (by linarith)]
  linarith

end Reflects

/-- **A reflection annihilates its column below the pivot**, and it reflects rows as it reflects
columns. -/
theorem ofColumn?_spec {pivot : Fin m} {column : Vector ℝ m} {r : Reflector m ℝ}
    (h : ofColumn? pivot column = some r) :
    r.pivot = pivot ∧ (∀ v, r.applyRow v = r.applyColumn v) ∧
      ∀ i, pivot < i → (r.applyColumn column).get i = 0 := by
  have h := reflects_of_ofColumn? h
  refine ⟨h.pivot_eq, fun v => vector_ext fun i => ?_, fun i hi => ?_⟩
  · rw [get_applyRow, get_applyColumn, h.rowFactor_eq]
  · rw [get_applyColumn, h.pivot_eq, if_pos hi.le, h.overlap_column, h.normal, if_neg hi.ne',
      mul_neg_one, add_neg_cancel]

/-- **A reflection loses nothing** from its pivot on: what it maps to zero there is zero there. -/
theorem eq_zero_of_applyRow_from {pivot : Fin m} {column : Vector ℝ m} {r : Reflector m ℝ}
    (h : ofColumn? pivot column = some r) {v : Vector ℝ m}
    (hv : ∀ i, r.pivot ≤ i → (r.applyRow v).get i = 0) (i : Fin m) (hi : r.pivot ≤ i) :
    v.get i = 0 := by
  have h := reflects_of_ofColumn? h
  have hcells : ∀ j, r.pivot ≤ j →
      v.get j = -(r.overlap v * r.columnFactor) * r.normal.get j := by
    intro j hj
    have hzero := hv j hj
    rw [get_applyRow, if_pos hj, h.rowFactor_eq] at hzero
    linarith
  -- A multiple of the normal is mapped to its opposite.
  have hself : r.overlap v = -(r.overlap v * r.columnFactor) * r.overlap r.normal := by
    conv_lhs => unfold overlap
    unfold overlap
    rw [Finset.mul_sum]
    refine Finset.sum_congr rfl fun j _ => ?_
    split
    · rw [hcells j ‹_›]
      unfold overlap
      ring
    · rw [mul_zero]
  have hoverlap : r.overlap v = 0 := by
    have hdouble : r.overlap v = 2 * r.overlap v := by
      calc r.overlap v = -(r.overlap v * r.columnFactor) * r.overlap r.normal := hself
        _ = -(r.overlap v * (r.overlap r.normal * r.columnFactor)) := by ring
        _ = 2 * r.overlap v := by rw [h.overlap_normal]; ring
    linarith
  have hzero := hv i hi
  rw [get_applyRow, hoverlap, zero_mul, mul_zero, add_zero, ite_self] at hzero
  exact hzero

theorem eq_zero_of_applyRow {pivot : Fin m} {column : Vector ℝ m} {r : Reflector m ℝ}
    (h : ofColumn? pivot column = some r) {v : Vector ℝ m}
    (hv : ∀ i, (r.applyRow v).get i = 0) (i : Fin m) : v.get i = 0 := by
  by_cases hi : r.pivot ≤ i
  · exact eq_zero_of_applyRow_from h (fun j _ => hv j) i hi
  · -- A reflection leaves the cells before its pivot alone.
    have hzero := hv i
    rwa [get_applyRow, if_neg hi] at hzero

end Reflector

/-! ### The factorization -/

/-- A vector in the coordinates of an orthogonal factor: its inner products with the columns. -/
noncomputable def pull (q : Dense m m ℝ) (w : Vector ℝ m) : Vector ℝ m :=
  Vector.ofFn fun l => ∑ j, w.get j * q.entry j l

theorem get_pull (q : Dense m m ℝ) (w : Vector ℝ m) (l : Fin m) :
    (pull q w).get l = ∑ j, w.get j * q.entry j l :=
  get_ofFn _ l

theorem pull_identity (w : Vector ℝ m) : pull Dense.identity w = w := by
  refine vector_ext fun l => ?_
  simp [get_pull, Dense.identity]

/-- Reflecting the rows of the factor reflects the coordinates. -/
theorem pull_map_applyRow (r : Reflector m ℝ) (q : Dense m m ℝ) (w : Vector ℝ m) :
    pull (q.map r.applyRow) w = r.applyRow (pull q w) := by
  have hentry : ∀ j l, Dense.entry (q.map r.applyRow) j l = (r.applyRow (q.get j)).get l := by
    intro j l
    simp [Dense.entry, Dense.get_eq_getElem]
  have hoverlap : r.overlap (pull q w) = ∑ j, w.get j * r.overlap (q.get j) := by
    unfold Reflector.overlap
    simp only [Finset.mul_sum]
    rw [Finset.sum_comm]
    refine Finset.sum_congr rfl fun i _ => ?_
    split
    · rw [get_pull, Finset.mul_sum]
      refine Finset.sum_congr rfl fun j _ => ?_
      show _ = w.get j * (_ * q.entry j i)
      ring
    · simp
  refine vector_ext fun l => ?_
  rw [get_pull, Reflector.get_applyRow, hoverlap, get_pull]
  simp only [hentry, Reflector.get_applyRow]
  split
  · simp only [mul_add, Finset.sum_add_distrib, Finset.sum_mul, Finset.mul_sum]
    congr 1
    refine Finset.sum_congr rfl fun j _ => ?_
    ring
  · rfl

/-- **Induction over a factorization**: there is no column, or a reflector for the first column and
a factorization of what it makes of the others. -/
theorem factorColumns_induction {motive : (q : Dense m m ℝ) → (pivots : List (Fin m)) →
      (columns : List (Vector ℝ m)) → (f : Factors m ℝ) →
      factorColumns q pivots columns = .ok f → Prop}
    (nil : ∀ q pivots h, motive q pivots [] ⟨q, []⟩ h)
    (cons : ∀ q pivot pivots column columns r g h, Reflector.ofColumn? pivot column = some r →
      ∀ hg : factorColumns (q.map r.applyRow) pivots (columns.map r.applyColumn) = .ok g,
        motive _ _ _ g hg → motive q (pivot :: pivots) (column :: columns)
          { g with diagonal := r.diagonal :: g.diagonal } h)
    {q : Dense m m ℝ} {pivots : List (Fin m)} {columns : List (Vector ℝ m)} {f : Factors m ℝ}
    (h : factorColumns q pivots columns = .ok f) : motive q pivots columns f h := by
  induction pivots generalizing q columns f with
  | nil =>
    cases columns with
    | nil =>
      obtain rfl := Except.ok.inj h
      exact nil q [] h
    | cons column columns => exact absurd h (by simp [factorColumns])
  | cons pivot pivots ih =>
    cases columns with
    | nil =>
      obtain rfl := Except.ok.inj h
      exact nil q _ h
    | cons column columns =>
      have hfactor := h
      unfold factorColumns at hfactor
      split at hfactor
      · exact absurd hfactor (by simp)
      · rename_i r hr
        obtain ⟨g, hg, hfactor⟩ := bind_ok hfactor
        obtain rfl := Except.ok.inj hfactor
        exact cons q pivot pivots column columns r g h hr hg (ih hg)

/-- Coordinates that vanish behind an earlier pivot keep vanishing there. -/
theorem pull_factorColumns_eq_zero {q : Dense m m ℝ} {pivots : List (Fin m)}
    {columns : List (Vector ℝ m)} {f : Factors m ℝ} (h : factorColumns q pivots columns = .ok f)
    {w : Vector ℝ m} {i : Fin m} (hpivots : ∀ p ∈ pivots, i < p)
    (hw : ∀ l, i < l → (pull q w).get l = 0) (l : Fin m) (hl : i < l) :
    (pull f.q w).get l = 0 := by
  induction h using factorColumns_induction generalizing l with
  | nil q pivots => exact hw l hl
  | cons q pivot pivots column columns r g _ hr _ ih =>
    refine ih (fun p hp => hpivots p (List.mem_cons_of_mem _ hp)) (fun l hl => ?_) l hl
    have hpivot : i < r.pivot := by
      rw [(Reflector.ofColumn?_spec hr).1]
      exact hpivots _ List.mem_cons_self
    -- The normal meets only coordinates that vanish.
    have hoverlap : r.overlap (pull q w) = 0 := by
      refine Finset.sum_eq_zero fun j _ => ?_
      split
      · rw [hw j (hpivot.trans_le ‹_›), mul_zero]
      · rfl
    rw [pull_map_applyRow, Reflector.get_applyRow, hoverlap, hw l hl]
    simp

/-- **A factored column has no coordinates behind its pivot.** -/
theorem pull_factorColumns {q : Dense m m ℝ} {pivots : List (Fin m)} {columns : List (Vector ℝ m)}
    {f : Factors m ℝ} (h : factorColumns q pivots columns = .ok f)
    (hsorted : pivots.Pairwise (· < ·))
    {w : Vector ℝ m} {i : ℕ} {p : Fin m} (hp : pivots[i]? = some p)
    (hw : columns[i]? = some (pull q w)) (l : Fin m) (hl : p < l) : (pull f.q w).get l = 0 := by
  induction h using factorColumns_induction generalizing i with
  | nil q pivots => exact absurd hw (by simp)
  | cons q pivot pivots column columns r g _ hr hg ih =>
    obtain ⟨hfirst, hsorted⟩ := List.pairwise_cons.1 hsorted
    obtain ⟨-, hrow, hbelow⟩ := Reflector.ofColumn?_spec hr
    cases i with
    | zero =>
      obtain rfl := Option.some.inj hp
      obtain rfl := Option.some.inj hw
      refine pull_factorColumns_eq_zero hg hfirst (fun l hl => ?_) l hl
      rw [pull_map_applyRow, hrow, hbelow l hl]
    | succ i =>
      refine ih hsorted hp ?_
      rw [List.getElem?_cons_succ] at hw
      rw [List.getElem?_map, hw, pull_map_applyRow, hrow]
      rfl

/-- **A factorization loses nothing**: coordinates that vanish at its end vanished at its start. -/
theorem eq_zero_of_pull_factorColumns {q : Dense m m ℝ} {pivots : List (Fin m)}
    {columns : List (Vector ℝ m)} {f : Factors m ℝ} (h : factorColumns q pivots columns = .ok f)
    {w : Vector ℝ m} (hw : ∀ l, (pull f.q w).get l = 0) (l : Fin m) : (pull q w).get l = 0 := by
  induction h using factorColumns_induction generalizing l with
  | nil q pivots => exact hw l
  | cons q pivot pivots column columns r g _ hr _ ih =>
    refine Reflector.eq_zero_of_applyRow hr (fun i => ?_) l
    rw [← pull_map_applyRow]
    exact ih hw i

/-- A vector whose coordinates in the factor all vanish is zero. -/
theorem eq_zero_of_pull_factor {a : Dense m n ℝ} {f : Factors m ℝ} (h : factor a = .ok f)
    {w : Vector ℝ m} (hw : ∀ l, (pull f.q w).get l = 0) (j : Fin m) : w.get j = 0 := by
  unfold factor at h
  split at h
  · exact absurd h (by simp)
  · rw [← pull_identity w]
    exact eq_zero_of_pull_factorColumns h hw j

/-- The trailing columns of the factor are orthogonal to what was factored. -/
theorem sum_mul_factor_eq_zero {a : Dense m n ℝ} {f : Factors m ℝ} (h : factor a = .ok f)
    (i : Fin n) (l : Fin m) (hl : i.val < l.val) : ∑ j, a.entry j i * f.q.entry j l = 0 := by
  unfold factor at h
  split at h
  · exact absurd h (by simp)
  · rename_i hmn
    have hi : i.val < m := by omega
    have hcolumn : a.transpose.toList[i.val]? = some (pull Dense.identity (a.transpose.get i)) := by
      rw [pull_identity]
      simp [Dense.get_eq_getElem]
    have hpull := pull_factorColumns h (List.pairwise_lt_finRange m)
      (p := ⟨i.val, hi⟩) (by simp [hi]) hcolumn l hl
    rw [get_pull] at hpull
    rw [← hpull]
    refine Finset.sum_congr rfl fun j _ => ?_
    rw [← Dense.entry_transpose]
    rfl

end Linear

open Linear

/-- **The step of the search is orthogonal to the rows that it keeps.** -/
theorem descent_orthogonal {k n : ℕ} {f : Objective n ℝ} {a : Dense k n ℝ}
    {gradient step : Vector ℝ n} (h : descent f a gradient = .ok step) (i : Fin k) :
    ∑ j, a.entry i j * step.get j = 0 := by
  unfold descent at h
  split at h
  · obtain rfl := Except.ok.inj h
    simp [Dense.get_eq_getElem]
  · obtain ⟨factors, hfactors, h⟩ := bind_ok h
    obtain ⟨coordinates, -, h⟩ := bind_ok h
    obtain rfl := Except.ok.inj h
    simp only [Dense.get_mulVec, Dense.entry_columnsFrom, Finset.mul_sum]
    rw [Finset.sum_comm]
    refine Finset.sum_eq_zero fun l _ => ?_
    simp only [← mul_assoc]
    rw [← Finset.sum_mul]
    have hzero := sum_mul_factor_eq_zero hfactors i ⟨k + l.val, by omega⟩
      (show i.val < k + l.val by omega)
    simp only [Dense.entry_transpose] at hzero
    rw [hzero, zero_mul]

end ElasticLayout
