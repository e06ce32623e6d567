import ElasticLayout.Proofs.Multipliers
import ElasticLayout.Proofs.SharpRank

/-!
# Systems that are solved

Elimination gives up where a pivot counts as zero, and so does the reduction of columns where the
length of what is left of a column does.  Where what counts as zero is zero, neither gives up on
what has a unique solution, so that a step and multipliers exist.

* `SharpSystem`, `exists_solve` -- a square array that annihilates only zero is solved;
* `SharpFactor`, `exists_factor` -- the transpose of independent rows is factored;
* `SharpDescent`, `exists_descent` -- a strictly convex objective has a step;
* `SharpMultipliers`, `exists_multipliers` -- independent rows have multipliers.
-/

namespace ElasticLayout

open Matrix

namespace Linear

variable {k m n : ℕ}

/-! ### Square systems -/

/-- Every pivot of the elimination of equations is sharp. -/
def SharpEquations : ℕ → List (Equation ℝ) → Prop
  | 0, _ => True
  | n + 1, equations => ∀ pivot others, pivot? Equation.lead equations = some (pivot, others) →
    Sharp pivot.lead ∧ SharpEquations n (others.map pivot.reduce)

/-- Every pivot of the solution of a square system is sharp. -/
def SharpSystem (a : Dense n n ℝ) (b : Vector ℝ n) : Prop :=
  SharpEquations n ((List.finRange n).map fun i => ⟨(a.get i).toList, b.get i⟩)

theorem dot_replicate_zero (xs : List ℝ) (n : ℕ) : dot xs (List.replicate n 0) = 0 := by
  rw [dot_eq]
  induction n generalizing xs with
  | zero => simp
  | succ n ih =>
    cases xs with
    | nil => simp
    | cons x xs => rw [List.replicate_succ, List.zipWith_cons_cons, List.sum_cons, ih, mul_zero,
        add_zero]

/-- The equations, with zero on the right side, have no solution but zero. -/
def AnnihilateOnlyZero (n : ℕ) (equations : List (Equation ℝ)) : Prop :=
  ∀ ys : List ℝ, ys.length = n → (∀ e ∈ equations, dot e.coefficients ys = 0) → ∀ y ∈ ys, y = 0

namespace AnnihilateOnlyZero

variable {equations others : List (Equation ℝ)} {pivot : Equation ℝ}

/-- The first unknown cannot be free, so partial pivoting finds an equation that mentions it. -/
theorem lead_ne_zero (h : AnnihilateOnlyZero (n + 1) equations) (hsquare : Square (n + 1) equations)
    (hpivot : pivot? Equation.lead equations = some (pivot, others)) : pivot.lead ≠ 0 := by
  intro hzero
  refine one_ne_zero (h (1 :: List.replicate n 0) (by simp) (fun e he => ?_) 1 List.mem_cons_self)
  rw [Equation.dot_cons_eq (hsquare.coefficients e he), eq_zero_of_pivot? _ hpivot hzero he,
    zero_mul, dot_replicate_zero, add_zero]

/-- Elimination keeps that the equations annihilate only zero. -/
theorem reduce (h : AnnihilateOnlyZero (n + 1) equations) (hsquare : Square (n + 1) equations)
    (hpivot : pivot? Equation.lead equations = some (pivot, others)) :
    AnnihilateOnlyZero n (others.map pivot.reduce) := by
  have hlead := h.lead_ne_zero hsquare hpivot
  have hlength := hsquare.length_of_pivot hpivot
  intro ys hys hreduced y hy
  -- The first unknown is chosen so that the pivot equation holds.
  refine h (-dot pivot.tail ys / pivot.lead :: ys) (by simp [hys]) (fun e he => ?_) y
    (List.mem_cons_of_mem _ hy)
  obtain rfl | he := List.mem_cons.1 ((pivot?_perm hpivot).mem_iff.2 he)
  · rw [Equation.dot_cons_eq (hlength e List.mem_cons_self), mul_div_cancel₀ _ hlead,
      neg_add_cancel]
  · have hzero := hreduced _ (List.mem_map_of_mem he)
    have hother := hlength e (List.mem_cons_of_mem _ he)
    rw [Equation.dot_coefficients_reduce hother (hlength pivot List.mem_cons_self)] at hzero
    rw [Equation.dot_cons_eq hother, ← hzero]
    ring

end AnnihilateOnlyZero

/-- **Equations that annihilate only zero are solved.**  The induction is on the number of
unknowns. -/
theorem exists_solveEquations {equations : List (Equation ℝ)} (hsquare : Square n equations)
    (hsharp : SharpEquations n equations) (h : AnnihilateOnlyZero n equations) :
    ∃ x, solveEquations n equations = .ok x := by
  induction n generalizing equations with
  | zero => exact ⟨_, rfl⟩
  | succ n ih =>
    have hne : equations ≠ [] := by
      rw [← List.length_pos_iff, hsquare.length]
      exact Nat.succ_pos n
    obtain ⟨⟨pivot, others⟩, hpivot⟩ := exists_pivot? hne Equation.lead
    obtain ⟨hlead, hrest⟩ := hsharp pivot others hpivot
    obtain ⟨values, hvalues⟩ := ih (hsquare.reduce hpivot) hrest (h.reduce hsquare hpivot)
    have hfar : ¬Scalar.near (Scalar.abs pivot.lead) 0 = true := fun hnear =>
      h.lead_ne_zero hsquare hpivot (hlead.eq_zero_of_abs hnear)
    unfold solveEquations
    rw [hpivot]
    dsimp only
    rw [if_neg hfar, hvalues]
    exact ⟨_, rfl⟩

/-- **A square array that annihilates only zero is solved.** -/
theorem exists_solve {a : Dense n n ℝ} {b : Vector ℝ n} (hsharp : SharpSystem a b)
    (h : ∀ v, a.matrix *ᵥ v = 0 → v = 0) : ∃ x, solve a b = .ok x := by
  refine exists_solveEquations (square_rows a b) hsharp fun ys hys hall y hy => ?_
  obtain ⟨j, hj, rfl⟩ := List.mem_iff_getElem.1 hy
  refine congrFun (h (fun j => ys[j.val]) (funext fun i => ?_)) ⟨j, hys ▸ hj⟩
  have hi := hall _ (List.mem_map_of_mem (List.mem_finRange i))
  rw [dot_eq_sum Vector.length_toList hys] at hi
  exact hi

/-! ### Combinations of columns -/

/-- The combination of columns with given coefficients. -/
noncomputable def combination (cs : List ℝ) (columns : List (Vector ℝ m)) : Vector ℝ m :=
  Vector.ofFn fun i => (List.zipWith (fun c v => c * v.get i) cs columns).sum

theorem get_combination_cons (c : ℝ) (cs : List ℝ) (v : Vector ℝ m) (columns : List (Vector ℝ m))
    (i : Fin m) : (combination (c :: cs) (v :: columns)).get i
      = c * v.get i + (combination cs columns).get i := by
  unfold combination
  rw [get_ofFn, get_ofFn, List.zipWith_cons_cons, List.sum_cons]

/-- The columns combine to zero at the positions in one way only. -/
def IndependentOn (positions : List (Fin m)) (columns : List (Vector ℝ m)) : Prop :=
  ∀ cs : List ℝ, cs.length = columns.length →
    (∀ i ∈ positions, (combination cs columns).get i = 0) → ∀ c ∈ cs, c = 0

/-- A column that is independent of the others has an entry. -/
theorem IndependentOn.exists_ne_zero {positions : List (Fin m)} {column : Vector ℝ m}
    {columns : List (Vector ℝ m)} (h : IndependentOn positions (column :: columns)) :
    ∃ i ∈ positions, column.get i ≠ 0 := by
  by_contra hzero
  push Not at hzero
  refine one_ne_zero (h (1 :: List.replicate columns.length 0) (by simp) (fun i hi => ?_) 1
    List.mem_cons_self)
  have hrest : ∀ vs : List (Vector ℝ m),
      (combination (List.replicate vs.length 0) vs).get i = 0 := by
    intro vs
    induction vs with
    | nil => simp [combination]
    | cons v vs ih => rw [List.length_cons, List.replicate_succ, get_combination_cons, ih, zero_mul,
        add_zero]
  rw [get_combination_cons, hzero i hi, hrest, mul_zero, add_zero]

namespace Reflector

/-- A reflection of columns is linear. -/
theorem get_applyColumn_move (r : Reflector m ℝ) {u v w : Vector ℝ m} {c : ℝ}
    (hu : ∀ j, u.get j = c * v.get j + w.get j) (i : Fin m) :
    (r.applyColumn u).get i = c * (r.applyColumn v).get i + (r.applyColumn w).get i := by
  have hoverlap : r.overlap u = c * r.overlap v + r.overlap w := by
    unfold overlap
    rw [Finset.mul_sum, ← Finset.sum_add_distrib]
    refine Finset.sum_congr rfl fun j _ => ?_
    split
    · rw [hu]
      ring
    · rw [mul_zero, add_zero]
  simp only [get_applyColumn, hoverlap, hu]
  split
  · ring
  · rfl

theorem get_applyColumn_combination (r : Reflector m ℝ) (cs : List ℝ)
    (columns : List (Vector ℝ m)) (i : Fin m) :
    (r.applyColumn (combination cs columns)).get i
      = (combination cs (columns.map r.applyColumn)).get i := by
  have hempty : ∀ v : Vector ℝ m, (∀ j, v.get j = 0) → (r.applyColumn v).get i = 0 := by
    intro v hv
    have hmove := r.get_applyColumn_move (u := v) (v := v) (w := v) (c := 0)
      (fun j => by rw [hv, zero_mul, add_zero]) i
    rw [get_applyColumn, show r.overlap v = 0 from Finset.sum_eq_zero fun j _ => by simp [hv], hv]
    simp
  induction columns generalizing cs with
  | nil =>
    rw [hempty _ fun j => by simp [combination]]
    simp [combination]
  | cons column columns ih =>
    cases cs with
    | nil =>
      rw [hempty _ fun j => by simp [combination]]
      simp [combination]
    | cons c cs =>
      rw [List.map_cons, get_combination_cons, ← ih,
        r.get_applyColumn_move (get_combination_cons c cs column columns)]

/-- A column has a reflection if and only if it is long enough from the pivot on. -/
theorem exists_ofColumn?_iff {pivot : Fin m} {column : Vector ℝ m} :
    (∃ r, ofColumn? pivot column = some r) ↔
    1 / 1000000 ≤ √(below pivot column + column.get pivot * column.get pivot) := by
  have hnear : Scalar.near (Scalar.sqrt (below pivot column
      + column.get pivot * column.get pivot)) 0 = true ↔
      √(below pivot column + column.get pivot * column.get pivot) < 1 / 1000000 := by
    rw [Scalar.near_iff, sub_zero]
    exact (abs_of_nonneg (Real.sqrt_nonneg _)) ▸ Iff.rfl
  rw [← not_lt, ← hnear]
  unfold ofColumn?
  dsimp only
  rw [sum_filter_below]
  split
  · rename_i hshort
    exact iff_of_false (by simp) (not_not.2 hshort)
  · rename_i hlong
    exact iff_of_true ⟨_, rfl⟩ hlong

/-- A column with an entry from the pivot on has a reflection. -/
theorem exists_ofColumn? {pivot : Fin m} {column : Vector ℝ m}
    (hsharp : Sharp (√(below pivot column + column.get pivot * column.get pivot)))
    (hne : ∃ i, pivot ≤ i ∧ column.get i ≠ 0) : ∃ r, ofColumn? pivot column = some r := by
  have hpos : 0 < below pivot column + column.get pivot * column.get pivot := by
    obtain ⟨i, hi, hentry⟩ := hne
    have hsum : below pivot column + column.get pivot * column.get pivot
        = ∑ i, if pivot ≤ i then column.get i * column.get i else 0 := by
      rw [sum_le_eq_add_sum_lt, add_comm, below]
    rw [hsum]
    refine Finset.sum_pos' (fun j _ => ?_) ⟨i, Finset.mem_univ i, ?_⟩
    · split
      · exact mul_self_nonneg _
      · exact le_rfl
    · rw [if_pos hi]
      exact mul_self_pos.2 hentry
  refine exists_ofColumn?_iff.2 (not_lt.1 fun hshort => (Real.sqrt_pos.2 hpos).ne' (hsharp ?_))
  rw [Scalar.near_iff, sub_zero, abs_of_nonneg (Real.sqrt_nonneg _)]
  exact hshort

/-- **A reflection keeps the other columns independent** behind its pivot. -/
theorem independentOn_map {pivot : Fin m} {pivots : List (Fin m)} {column : Vector ℝ m}
    {columns : List (Vector ℝ m)} {r : Reflector m ℝ} (hr : ofColumn? pivot column = some r)
    (hpivots : ∀ i, i ∈ pivots ↔ pivot < i)
    (h : IndependentOn (pivot :: pivots) (column :: columns)) :
    IndependentOn pivots (columns.map r.applyColumn) := by
  obtain ⟨hpivot, hrow, hbelow⟩ := ofColumn?_spec hr
  have hreflects := reflects_of_ofColumn? hr
  have hdiagonal : r.diagonal ≠ 0 := fun hzero => by
    have hpos := hreflects.sq_pos
    rw [hzero, zero_mul] at hpos
    exact lt_irrefl _ hpos
  intro cs hlength hzero c hc
  rw [List.length_map] at hlength
  -- The first coefficient makes the combination of the reflected columns vanish at the pivot too.
  obtain ⟨first, hfirst⟩ : ∃ first, first
      = -(r.applyColumn (combination cs columns)).get pivot / r.diagonal := ⟨_, rfl⟩
  have hall : ∀ i, r.pivot ≤ i →
      (r.applyRow (combination (first :: cs) (column :: columns))).get i = 0 := by
    intro i hi
    rw [hrow, r.get_applyColumn_move (get_combination_cons first cs column columns)]
    rw [hpivot] at hi
    obtain rfl | hlt := hi.eq_or_lt
    · rw [hreflects.get_applyColumn_pivot, hfirst, div_mul_cancel₀ _ hdiagonal, neg_add_cancel]
    · rw [hbelow i hlt, get_applyColumn_combination, hzero i ((hpivots i).2 hlt), mul_zero,
        add_zero]
  refine h (first :: cs) (by simp [hlength]) (fun i hi => ?_) c (List.mem_cons_of_mem _ hc)
  refine eq_zero_of_applyRow_from hr hall i ?_
  rw [hpivot]
  obtain rfl | hi := List.mem_cons.1 hi
  · exact le_rfl
  · exact ((hpivots i).1 hi).le

end Reflector

/-! ### Factorizations -/

/-- The length of what is left of every column is sharp. -/
def SharpColumns : List (Fin m) → List (Vector ℝ m) → Prop
  | pivot :: pivots, column :: columns =>
    Sharp (√(Reflector.below pivot column + column.get pivot * column.get pivot)) ∧
      ∀ r, Reflector.ofColumn? pivot column = some r →
        SharpColumns pivots (columns.map r.applyColumn)
  | _, _ => True

/-- Every length that the factorization of an array tests is sharp. -/
def SharpFactor (a : Dense m n ℝ) : Prop := SharpColumns (List.finRange m) a.transpose.toList

/-- **Independent columns are reduced one after the other.**  The pivots are all positions from the
first one on. -/
theorem exists_factorColumns (q : Dense m m ℝ) {pivots : List (Fin m)} {columns : List (Vector ℝ m)}
    (hsorted : pivots.Pairwise (· < ·)) (hclosed : ∀ i ∈ pivots, ∀ j, i ≤ j → j ∈ pivots)
    (hsharp : SharpColumns pivots columns) (h : IndependentOn pivots columns) :
    ∃ f, factorColumns q pivots columns = .ok f := by
  induction pivots generalizing q columns with
  | nil =>
    cases columns with
    | nil => exact ⟨_, rfl⟩
    | cons column columns =>
      obtain ⟨i, hi, -⟩ := h.exists_ne_zero
      exact absurd hi List.not_mem_nil
  | cons pivot pivots ih =>
    cases columns with
    | nil => exact ⟨_, rfl⟩
    | cons column columns =>
      obtain ⟨hfirst, hsorted⟩ := List.pairwise_cons.1 hsorted
      have hpivots : ∀ i, i ∈ pivots ↔ pivot < i := fun i => ⟨hfirst i, fun hi =>
        (List.mem_cons.1 (hclosed pivot List.mem_cons_self i hi.le)).resolve_left hi.ne'⟩
      obtain ⟨r, hr⟩ : ∃ r, Reflector.ofColumn? pivot column = some r := by
        refine Reflector.exists_ofColumn? hsharp.1 ?_
        obtain ⟨i, hi, hentry⟩ := h.exists_ne_zero
        refine ⟨i, ?_, hentry⟩
        obtain rfl | hi := List.mem_cons.1 hi
        · exact le_rfl
        · exact (hfirst i hi).le
      obtain ⟨f, hf⟩ := ih (q.map r.applyRow) hsorted
        (fun i hi j hij => (hpivots j).2 (((hpivots i).1 hi).trans_le hij)) (hsharp.2 r hr)
        (Reflector.independentOn_map hr hpivots h)
      unfold factorColumns
      rw [hr]
      dsimp only
      rw [hf]
      exact ⟨_, rfl⟩

/-- The rows of an array combine to zero in one way only. -/
def Dense.IndependentRows (a : Dense k n ℝ) : Prop :=
  ∀ c : Fin k → ℝ, (∀ j, ∑ i, a.entry i j * c i = 0) → ∀ i, c i = 0

theorem Dense.IndependentRows.transpose {a : Dense k n ℝ} (h : a.IndependentRows) {v : Fin k → ℝ}
    (hv : a.transpose.matrix *ᵥ v = 0) : v = 0 := by
  refine funext (h v fun j => ?_)
  have hj : (a.transpose.matrix *ᵥ v) j = 0 := congrFun hv j
  simpa only [Dense.matrix_mulVec, Dense.entry_transpose] using hj

/-- An array that annihilates only zero is not wider than it is high. -/
theorem le_of_mulVec_injective {a : Matrix (Fin m) (Fin n) ℝ} (h : ∀ v, a *ᵥ v = 0 → v = 0) :
    n ≤ m := by
  have hinjective : Function.Injective a.mulVecLin :=
    (injective_iff_map_eq_zero _).2 fun v hv => h v hv
  simpa using LinearMap.finrank_le_finrank_of_injective hinjective

theorem Dense.transpose_transpose (a : Dense k n ℝ) : a.transpose.transpose = a := by
  refine vector_ext fun i => vector_ext fun j => ?_
  show a.transpose.transpose.entry i j = a.entry i j
  rw [Dense.entry_transpose, Dense.entry_transpose]

theorem get_combination_toList (a : Dense k n ℝ) {cs : List ℝ} (hlength : cs.length = k)
    (j : Fin n) : (combination cs a.toList).get j = ∑ i : Fin k, a.entry i j * cs[i.val] := by
  unfold combination
  rw [get_ofFn, Fin.sum_univ_def]
  congr 1
  apply List.ext_getElem
  · simp [hlength]
  · intro l h₁ h₂
    rw [List.getElem_zipWith, List.getElem_map, List.getElem_finRange, mul_comm]
    rfl

/-- **The transpose of independent rows is factored.** -/
theorem exists_factor {a : Dense k n ℝ} (hsharp : SharpFactor a.transpose)
    (h : a.IndependentRows) : ∃ f, factor a.transpose = .ok f := by
  unfold factor
  rw [if_neg (not_lt.2 (le_of_mulVec_injective fun v => h.transpose))]
  refine exists_factorColumns _ (List.pairwise_lt_finRange n)
    (fun _ _ j _ => List.mem_finRange j) hsharp fun cs hlength hzero c hc => ?_
  rw [Dense.transpose_transpose, Vector.length_toList] at hlength
  obtain ⟨i, hi, rfl⟩ := List.mem_iff_getElem.1 hc
  refine h (fun i => cs[i.val]) (fun j => ?_) ⟨i, hlength ▸ hi⟩
  rw [← get_combination_toList a hlength, ← hzero j (List.mem_finRange j),
    Dense.transpose_transpose]

end Linear

open Linear

variable {k n : ℕ} {f : Objective n ℝ} {a : Dense k n ℝ} {gradient : Vector ℝ n}

/-! ### Steps and multipliers -/

theorem Linear.Dense.matrix_mul {l m : ℕ} (a : Dense l m ℝ) (b : Dense m n ℝ) :
    (a.mul b).matrix = a.matrix * b.matrix := by
  ext i j
  exact Dense.entry_mul a b i j

theorem Linear.Dense.matrix_transpose (a : Dense k n ℝ) : a.transpose.matrix = a.matrixᵀ := by
  ext i j
  exact Dense.entry_transpose a j i

/-- Every test in the computation of a step is sharp. -/
def SharpDescent (f : Objective n ℝ) (a : Dense k n ℝ) (gradient : Vector ℝ n) : Prop :=
  k ≠ n → SharpFactor a.transpose ∧ ∀ factors, factor a.transpose = .ok factors →
    SharpSystem ((factors.q.columnsFrom k).transpose.mul
      (f.quadratic.mul (factors.q.columnsFrom k)))
      (((factors.q.columnsFrom k).transpose.mulVec gradient).map (-·))

/-- **A strictly convex objective has a step on the null space of independent rows.** -/
theorem exists_descent (hsharp : SharpDescent f a gradient) (h : a.IndependentRows)
    (hconvex : ∀ v, v ⬝ᵥ (f.quadratic.matrix *ᵥ v) = 0 → v = 0) :
    ∃ step, descent f a gradient = .ok step := by
  unfold descent
  split
  · exact ⟨_, rfl⟩
  rename_i hk
  obtain ⟨hfactor, hsystem⟩ := hsharp hk
  obtain ⟨factors, hfactors⟩ := exists_factor hfactor h
  obtain ⟨z, hz⟩ : ∃ z, z = factors.q.columnsFrom k := ⟨_, rfl⟩
  have hinjective : ∀ c, z.matrix *ᵥ c = 0 → c = 0 := by
    intro c hc
    funext l
    have hcolumns := eq_zero_of_columnsFrom (k := k) hfactors (c := Vector.ofFn c) fun j => by
      rw [← hz, Dense.get_mulVec]
      simp only [get_ofFn]
      exact congrFun hc j
    simpa using hcolumns l
  have hsolvable : ∀ c, (z.transpose.mul (f.quadratic.mul z)).matrix *ᵥ c = 0 → c = 0 := by
    intro c hc
    refine hinjective c (hconvex _ ?_)
    calc (z.matrix *ᵥ c) ⬝ᵥ (f.quadratic.matrix *ᵥ (z.matrix *ᵥ c))
        = c ⬝ᵥ ((z.transpose.mul (f.quadratic.mul z)).matrix *ᵥ c) := by
          rw [Dense.matrix_mul, Dense.matrix_mul, Dense.matrix_transpose, ← mulVec_mulVec,
            ← mulVec_mulVec, dotProduct_mulVec c, vecMul_transpose]
      _ = 0 := by rw [hc, dotProduct_zero]
  obtain ⟨coordinates, hcoordinates⟩ := exists_solve (hsystem factors hfactors) (hz ▸ hsolvable)
  rw [hfactors]
  dsimp only [bind, Except.bind]
  rw [hcoordinates]
  exact ⟨_, rfl⟩

/-- Every test in the computation of multipliers is sharp. -/
def SharpMultipliers (a : Dense k n ℝ) (gradient : Vector ℝ n) : Prop :=
  SharpReduction a.transpose ∧ ∀ h : k = (independentRows a.transpose).length,
    SharpSystem
      (Vector.ofFn fun i => a.transpose.get ((independentRows a.transpose).get (i.cast h)))
      (Vector.ofFn fun i => gradient.get ((independentRows a.transpose).get (i.cast h)))

/-- **Independent rows have multipliers.** -/
theorem exists_multipliers (hsharp : SharpMultipliers a gradient) (h : a.IndependentRows) :
    ∃ prices, multipliers a gradient = .ok prices := by
  obtain ⟨hrank, hsystem⟩ := hsharp
  have hlength := (length_independentRows_eq hrank fun v => h.transpose).symm
  unfold multipliers
  dsimp only
  rw [dif_pos hlength]
  refine exists_solve (hsystem hlength) fun v hv => h.transpose ?_
  refine eq_zero_of_independentRows hrank fun r hr => ?_
  obtain ⟨i, rfl⟩ := List.get_of_mem hr
  have hi : (Dense.matrix _ *ᵥ v) (i.cast hlength.symm) = 0 := congrFun hv _
  rw [Dense.matrix_mulVec] at hi ⊢
  rw [← hi]
  unfold Dense.entry
  rw [get_ofFn]
  rfl

/-- Without kept rows the null space is everything. -/
theorem entry_reduced_of_none (a : Dense n n ℝ) (i j : Fin (n - 0)) :
    (((Dense.identity : Dense n n ℝ).columnsFrom 0).transpose.mul
      (a.mul ((Dense.identity : Dense n n ℝ).columnsFrom 0))).entry i j = a.entry i j := by
  have hcell : ∀ (l : Fin n) (j : Fin (n - 0)),
      ((Dense.identity : Dense n n ℝ).columnsFrom 0).entry l j = if l = j then 1 else 0 := by
    intro l j
    have hj : (⟨0 + j.val, by omega⟩ : Fin n) = j := Fin.ext (Nat.zero_add _)
    rw [Dense.entry_columnsFrom, hj]
    exact Dense.entry_ofFn ..
  simp only [Dense.entry_mul, Dense.entry_transpose, hcell, mul_ite, mul_one, mul_zero, ite_mul,
    one_mul, zero_mul]
  exact (Finset.sum_ite_eq' Finset.univ _ _).trans ((if_pos (Finset.mem_univ _)).trans
    ((Finset.sum_ite_eq' Finset.univ _ _).trans (if_pos (Finset.mem_univ _))))

/-! ### One unknown -/

theorem sharpReduction_of_one (hn : n = 1) {a : Dense k n ℝ} (ha : ∀ i j, Sharp (a.entry i j)) :
    SharpReduction a := by
  subst hn
  exact ⟨fun i _ _ => ha i 0, trivial⟩

theorem sharpSystem_of_one (hn : n = 1) {a : Dense n n ℝ} (ha : ∀ i j, Sharp (a.entry i j))
    (b : Vector ℝ n) : SharpSystem a b := by
  subst hn
  intro pivot others hpivot
  refine ⟨?_, trivial⟩
  obtain ⟨i, -, rfl⟩ := List.mem_map.1 ((pivot?_perm hpivot).mem_iff.1 List.mem_cons_self)
  rw [Equation.lead_row]
  exact ha i 0

theorem independentRows_of_one (hk : k = 1) (hn : n = 1) {a : Dense k n ℝ}
    (ha : ∀ i j, a.entry i j = 1) : a.IndependentRows := by
  subst hk hn
  intro c hc i
  have hzero := hc 0
  simp only [ha, one_mul, Fin.sum_univ_one] at hzero
  rwa [Subsingleton.elim i 0]

theorem sharpMultipliers_of_one (hk : k = 1) {a : Dense k n ℝ}
    (ha : ∀ i j, Sharp (a.entry i j)) (gradient : Vector ℝ n) : SharpMultipliers a gradient := by
  refine ⟨sharpReduction_of_one hk fun i j => ?_, fun hlength => ?_⟩
  · rw [Dense.entry_transpose]
    exact ha j i
  · refine sharpSystem_of_one hk (fun i j => ?_) _
    have hentry := ha j ((independentRows a.transpose).get (i.cast hlength))
    rw [← Dense.entry_transpose] at hentry
    simpa [Dense.entry, Dense.get_eq_getElem] using hentry

end ElasticLayout
