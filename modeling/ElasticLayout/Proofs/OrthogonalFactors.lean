import ElasticLayout.Proofs.SharpSystems

/-!
# Orthogonal factors in exact arithmetic

Each reflection keeps inner products, so that the factor that they are accumulated into is
orthogonal.  In its coordinates the columns that were factored make up an upper triangular array:
a reflection brings its column to the diagonal entry, and the later ones leave that entry alone.
The columns of the factor behind the diagonal are what is orthogonal to the columns of the array.

* `Reflector.sum_applyRow_mul` -- a reflection keeps inner products;
* `mem_orthogonalGroup_factor` -- the factor is orthogonal;
* `transpose_mul_eq_zero`, `diagonal_eq_ofFn` -- the triangular part;
* `Factors.Decomposes`, `decomposes_of_factor` -- what a factorization says of its array;
* `LongColumns`, `exists_factorColumns_iff` -- when there is one;
* `factor_decides` -- both together;
* `slanted`, `factor_decides_slanted` -- two columns in three dimensions.
-/

namespace ElasticLayout.Linear

open Matrix

variable {k m n : ℕ}

/-! ### One reflection -/

namespace Reflector

variable {pivot : Fin m} {column : Vector ℝ m} {r : Reflector m ℝ}

/-- A sum over the positions from the pivot on, with a factor taken out. -/
theorem sum_normal_mul (r : Reflector m ℝ) (v : Vector ℝ m) (c : ℝ) :
    ∑ i, (if r.pivot ≤ i then r.normal.get i * v.get i * c else 0) = r.overlap v * c := by
  unfold overlap
  rw [Finset.sum_mul]
  refine Finset.sum_congr rfl fun i _ => ?_
  split
  · rfl
  · rw [zero_mul]

/-- **A reflection keeps inner products.** -/
theorem sum_applyRow_mul (h : r.Reflects pivot column) (v w : Vector ℝ m) :
    ∑ i, (r.applyRow v).get i * (r.applyRow w).get i = ∑ i, v.get i * w.get i := by
  have hcells : ∀ i, (r.applyRow v).get i * (r.applyRow w).get i = v.get i * w.get i
      + (if r.pivot ≤ i then r.normal.get i * v.get i * (r.overlap w * r.rowFactor) else 0)
      + (if r.pivot ≤ i then r.normal.get i * w.get i * (r.overlap v * r.rowFactor) else 0)
      + (if r.pivot ≤ i then r.normal.get i * r.normal.get i
          * (r.overlap v * r.rowFactor * (r.overlap w * r.rowFactor)) else 0) := by
    intro i
    rw [get_applyRow, get_applyRow]
    split
    · ring
    · ring
  -- The normal is mapped to its opposite, so that the terms beyond the first one cancel.
  have hnormal : r.overlap r.normal * r.rowFactor = -2 := by
    rw [h.rowFactor_eq, h.overlap_normal]
  simp only [hcells, Finset.sum_add_distrib, sum_normal_mul]
  calc ∑ i, v.get i * w.get i + r.overlap v * (r.overlap w * r.rowFactor)
        + r.overlap w * (r.overlap v * r.rowFactor)
        + r.overlap r.normal * (r.overlap v * r.rowFactor * (r.overlap w * r.rowFactor))
      = ∑ i, v.get i * w.get i + r.overlap v * r.overlap w * r.rowFactor
        * (2 + r.overlap r.normal * r.rowFactor) := by ring
    _ = ∑ i, v.get i * w.get i := by rw [hnormal]; ring

/-- The diagonal entry is as long as the column is from the pivot on. -/
theorem le_abs_diagonal (h : ofColumn? pivot column = some r) : 1 / 1000000 ≤ |r.diagonal| := by
  have hlong := exists_ofColumn?_iff.1 ⟨r, h⟩
  rwa [← (reflects_of_ofColumn? h).sq_diagonal, Real.sqrt_mul_self_eq_abs] at hlong

end Reflector

/-! ### The factor -/

/-- Reflecting the rows of an orthogonal array leaves it orthogonal. -/
theorem mem_orthogonalGroup_map_applyRow {pivot : Fin m} {column : Vector ℝ m}
    {r : Reflector m ℝ} (h : r.Reflects pivot column) {q : Dense m m ℝ}
    (hq : q.matrix ∈ orthogonalGroup (Fin m) ℝ) :
    Dense.matrix (q.map r.applyRow) ∈ orthogonalGroup (Fin m) ℝ := by
  rw [mem_orthogonalGroup_iff] at hq ⊢
  rw [← hq]
  ext i j
  have hentry : ∀ i l, Dense.entry (q.map r.applyRow) i l = (r.applyRow (q.get i)).get l := by
    intro i l
    simp [Dense.entry, Dense.get_eq_getElem]
  have hproduct := Reflector.sum_applyRow_mul h (q.get i) (q.get j)
  simp only [← hentry] at hproduct
  exact hproduct

theorem mem_orthogonalGroup_factorColumns {q : Dense m m ℝ} {pivots : List (Fin m)}
    {columns : List (Vector ℝ m)} {f : Factors m ℝ} (h : factorColumns q pivots columns = .ok f)
    (hq : q.matrix ∈ orthogonalGroup (Fin m) ℝ) : f.q.matrix ∈ orthogonalGroup (Fin m) ℝ := by
  induction h using factorColumns_induction with
  | nil q pivots => exact hq
  | cons q pivot pivots column columns r g _ hr _ ih =>
    exact ih (mem_orthogonalGroup_map_applyRow (Reflector.reflects_of_ofColumn? hr) hq)

/-- **The factor is orthogonal.** -/
theorem mem_orthogonalGroup_factor {a : Dense m n ℝ} {f : Factors m ℝ} (h : factor a = .ok f) :
    f.q.matrix ∈ orthogonalGroup (Fin m) ℝ := by
  unfold factor at h
  split at h
  · exact absurd h (by simp)
  · refine mem_orthogonalGroup_factorColumns h ?_
    have hidentity : (Dense.identity : Dense m m ℝ).matrix = 1 := by
      ext i j
      show Dense.identity.entry i j = _
      rw [Dense.identity, Dense.entry_ofFn, one_apply]
    rw [hidentity]
    exact one_mem _

/-! ### The triangular part -/

/-- Coordinates before all pivots that are left do not change. -/
theorem get_pull_factorColumns_of_lt {q : Dense m m ℝ} {pivots : List (Fin m)}
    {columns : List (Vector ℝ m)} {f : Factors m ℝ} (h : factorColumns q pivots columns = .ok f)
    {w : Vector ℝ m} {i : Fin m} (hpivots : ∀ p ∈ pivots, i < p) :
    (pull f.q w).get i = (pull q w).get i := by
  induction h using factorColumns_induction with
  | nil q pivots => rfl
  | cons q pivot pivots column columns r g _ hr _ ih =>
    have hpivot : ¬r.pivot ≤ i := by
      rw [(Reflector.ofColumn?_spec hr).1, not_le]
      exact hpivots _ List.mem_cons_self
    rw [ih fun p hp => hpivots p (List.mem_cons_of_mem _ hp), pull_map_applyRow,
      Reflector.get_applyRow, if_neg hpivot]

/-- **The coordinate of a factored column at its pivot is the diagonal entry.** -/
theorem diagonal_factorColumns {q : Dense m m ℝ} {pivots : List (Fin m)}
    {columns : List (Vector ℝ m)} {f : Factors m ℝ} (h : factorColumns q pivots columns = .ok f)
    (hsorted : pivots.Pairwise (· < ·)) {w : Vector ℝ m} {i : ℕ} {p : Fin m}
    (hp : pivots[i]? = some p) (hw : columns[i]? = some (pull q w)) :
    f.diagonal[i]? = some ((pull f.q w).get p) := by
  induction h using factorColumns_induction generalizing i with
  | nil q pivots => exact absurd hw (by simp)
  | cons q pivot pivots column columns r g _ hr hg ih =>
    obtain ⟨hfirst, hsorted⟩ := List.pairwise_cons.1 hsorted
    obtain ⟨-, hrow, -⟩ := Reflector.ofColumn?_spec hr
    cases i with
    | zero =>
      obtain rfl := Option.some.inj hp
      obtain rfl := Option.some.inj hw
      rw [get_pull_factorColumns_of_lt hg hfirst, pull_map_applyRow, hrow,
        (Reflector.reflects_of_ofColumn? hr).get_applyColumn_pivot]
      rfl
    | succ i =>
      refine ih hsorted hp ?_
      rw [List.getElem?_cons_succ] at hw
      rw [List.getElem?_map, hw, pull_map_applyRow, hrow]
      rfl

theorem length_diagonal_factorColumns {q : Dense m m ℝ} {pivots : List (Fin m)}
    {columns : List (Vector ℝ m)} {f : Factors m ℝ}
    (h : factorColumns q pivots columns = .ok f) : f.diagonal.length = columns.length := by
  induction h using factorColumns_induction with
  | nil q pivots => rfl
  | cons q pivot pivots column columns r g _ _ _ ih => simp [ih]

/-- **The diagonal entries are as long as the columns met.** -/
theorem le_abs_diagonal_factorColumns {q : Dense m m ℝ} {pivots : List (Fin m)}
    {columns : List (Vector ℝ m)} {f : Factors m ℝ}
    (h : factorColumns q pivots columns = .ok f) {d : ℝ} (hd : d ∈ f.diagonal) :
    1 / 1000000 ≤ |d| := by
  induction h using factorColumns_induction with
  | nil q pivots => exact absurd hd List.not_mem_nil
  | cons q pivot pivots column columns r g _ hr _ ih =>
    obtain rfl | hd := List.mem_cons.1 hd
    · exact Reflector.le_abs_diagonal hr
    · exact ih hd

theorem le_abs_diagonal_factor {a : Dense m n ℝ} {f : Factors m ℝ} (h : factor a = .ok f) {d : ℝ}
    (hd : d ∈ f.diagonal) : 1 / 1000000 ≤ |d| := by
  unfold factor at h
  split at h
  · exact absurd h (by simp)
  · exact le_abs_diagonal_factorColumns h hd

/-- The array in the coordinates of the factor. -/
theorem transpose_mul_apply (q : Dense m m ℝ) (a : Dense m n ℝ) (l : Fin m) (i : Fin n) :
    (q.matrixᵀ * a.matrix) l i = (pull q (a.transpose.get i)).get l := by
  rw [get_pull, mul_apply]
  refine Finset.sum_congr rfl fun j _ => ?_
  show q.entry j l * a.entry j i = a.transpose.entry i j * q.entry j l
  rw [Dense.entry_transpose, mul_comm]

/-- **In the coordinates of the factor nothing is left below the diagonal.** -/
theorem transpose_mul_eq_zero {a : Dense m n ℝ} {f : Factors m ℝ} (h : factor a = .ok f)
    {l : Fin m} {i : Fin n} (hl : i.val < l.val) : (f.q.matrixᵀ * a.matrix) l i = 0 := by
  rw [mul_apply, ← sum_mul_factor_eq_zero h i l hl]
  exact Finset.sum_congr rfl fun j _ => mul_comm _ _

/-- **The diagonal is what the factorization returns as the diagonal.** -/
theorem diagonal_eq_ofFn {a : Dense m n ℝ} {f : Factors m ℝ} (h : factor a = .ok f)
    (hle : n ≤ m) :
    f.diagonal = List.ofFn fun i => (f.q.matrixᵀ * a.matrix) (i.castLE hle) i := by
  unfold factor at h
  rw [if_neg (not_lt.2 hle)] at h
  have hlength : f.diagonal.length = n := by
    rw [length_diagonal_factorColumns h, Vector.length_toList]
  refine List.ext_getElem (by rw [hlength, List.length_ofFn]) fun i hi _ => ?_
  have hi : i < n := hlength ▸ hi
  have hcolumn : a.transpose.toList[i]? = some (pull Dense.identity (a.transpose.get ⟨i, hi⟩)) := by
    rw [pull_identity]
    simp [Dense.get_eq_getElem, hi]
  have hdiagonal := diagonal_factorColumns h (List.pairwise_lt_finRange m)
    (p := ⟨i, hi.trans_le hle⟩) (by simp [hi.trans_le hle]) hcolumn
  rw [List.getElem_ofFn, transpose_mul_apply]
  exact List.getElem_eq_iff _ |>.2 hdiagonal

/-! ### What a factorization says of its array -/

/-- A column as a vector of the euclidean space. -/
noncomputable def Dense.column (a : Dense m n ℝ) (j : Fin n) : EuclideanSpace ℝ (Fin m) :=
  WithLp.toLp _ fun i => a.entry i j

theorem inner_column (a : Dense m n ℝ) (b : Dense m k ℝ) (i : Fin n) (j : Fin k) :
    inner ℝ (a.column i) (b.column j) = (a.matrixᵀ * b.matrix) i j := by
  rw [PiLp.inner_apply, mul_apply]
  refine Finset.sum_congr rfl fun l _ => ?_
  exact mul_comm _ _

/-- A factorization of an array: the factor is orthogonal, what is left of the array in its
coordinates is upper triangular with the diagonal of the factorization, the diagonal is bounded
away from zero, the columns of the array are independent, and the columns of the factor behind the
diagonal are an orthonormal basis of what is orthogonal to them. -/
structure Factors.Decomposes (f : Factors m ℝ) (a : Dense m n ℝ) : Prop where
  le : n ≤ m
  orthogonal : f.q.matrix ∈ orthogonalGroup (Fin m) ℝ
  below_eq_zero : ∀ (l : Fin m) (i : Fin n), i.val < l.val → (f.q.matrixᵀ * a.matrix) l i = 0
  diagonal_eq : f.diagonal = List.ofFn fun i => (f.q.matrixᵀ * a.matrix) (i.castLE le) i
  le_abs_diagonal : ∀ d ∈ f.diagonal, 1 / 1000000 ≤ |d|
  independent : LinearIndependent ℝ a.column
  orthonormal : Orthonormal ℝ (f.q.columnsFrom n).column
  span_eq : Submodule.span ℝ (Set.range (f.q.columnsFrom n).column)
    = (Submodule.span ℝ (Set.range a.column))ᗮ

/-- Columns are independent if an array annihilates only zero. -/
theorem linearIndependent_column {a : Dense m n ℝ} (h : ∀ v, a.matrix *ᵥ v = 0 → v = 0) :
    LinearIndependent ℝ a.column := by
  rw [Fintype.linearIndependent_iff]
  intro v hv i
  refine congrFun (h v ?_) i
  funext l
  have hl := congrArg (fun w : EuclideanSpace ℝ (Fin m) => w l) hv
  rw [mulVec, dotProduct]
  simpa [Dense.column, Dense.matrix, mul_comm] using hl

/-- **A factored array annihilates only zero**: its triangular part has a determinant. -/
theorem eq_zero_of_factor {a : Dense m n ℝ} {f : Factors m ℝ} (h : factor a = .ok f)
    (hle : n ≤ m) {v : Fin n → ℝ} (hv : a.matrix *ᵥ v = 0) : v = 0 := by
  obtain ⟨t, ht⟩ : ∃ t : Matrix (Fin n) (Fin n) ℝ,
      t = (f.q.matrixᵀ * a.matrix).submatrix (Fin.castLE hle) id := ⟨_, rfl⟩
  have htriangular : t.IsUpperTriangular := by
    intro i j hij
    rw [ht]
    exact transpose_mul_eq_zero h hij
  have hdiagonal : ∀ i, t i i ≠ 0 := by
    intro i hzero
    have hmem : t i i ∈ f.diagonal := by
      rw [diagonal_eq_ofFn h hle, List.mem_ofFn, ht]
      exact ⟨i, rfl⟩
    have hlong := le_abs_diagonal_factor h hmem
    rw [hzero, abs_zero] at hlong
    norm_num at hlong
  have hdet : t.det ≠ 0 := by
    rw [det_of_isUpperTriangular htriangular]
    exact Finset.prod_ne_zero_iff.2 fun i _ => hdiagonal i
  refine eq_zero_of_mulVec_eq_zero hdet ?_
  funext i
  have hproduct : (f.q.matrixᵀ * a.matrix) *ᵥ v = 0 := by
    rw [← mulVec_mulVec, hv, mulVec_zero]
  rw [ht]
  exact congrFun hproduct (i.castLE hle)

/-- The trailing columns of an orthogonal factor are orthonormal. -/
theorem orthonormal_columnsFrom {q : Dense m m ℝ} (hq : q.matrix ∈ orthogonalGroup (Fin m) ℝ)
    (start : ℕ) : Orthonormal ℝ (q.columnsFrom start).column := by
  rw [orthonormal_iff_ite]
  intro i j
  have hentry : ((q.columnsFrom start).matrixᵀ * (q.columnsFrom start).matrix) i j
      = (q.matrixᵀ * q.matrix) ⟨start + i.val, by omega⟩ ⟨start + j.val, by omega⟩ := by
    rw [mul_apply, mul_apply]
    refine Finset.sum_congr rfl fun l _ => ?_
    exact congrArg₂ (· * ·) (Dense.entry_columnsFrom q start l i)
      (Dense.entry_columnsFrom q start l j)
  rw [inner_column, hentry, (mem_orthogonalGroup_iff' _ _).1 hq, one_apply]
  refine if_congr ?_ rfl rfl
  rw [Fin.mk.injEq, add_right_inj, Fin.val_inj]

/-- The trailing columns of the factor are orthogonal to the columns of the array. -/
theorem inner_column_columnsFrom {a : Dense m n ℝ} {f : Factors m ℝ} (h : factor a = .ok f)
    (i : Fin n) (j : Fin (m - n)) :
    inner ℝ (a.column i) ((f.q.columnsFrom n).column j) = 0 := by
  rw [inner_column, mul_apply, ← sum_mul_factor_eq_zero h i ⟨n + j.val, by omega⟩
    (show i.val < n + j.val by omega)]
  refine Finset.sum_congr rfl fun l _ => ?_
  exact congrArg (a.entry l i * ·) (Dense.entry_columnsFrom f.q n l j)

/-- **The trailing columns of the factor span what is orthogonal to the array.**  They are
orthogonal to it, and there are enough of them. -/
theorem span_columnsFrom {a : Dense m n ℝ} {f : Factors m ℝ} (h : factor a = .ok f)
    (hle : n ≤ m) : Submodule.span ℝ (Set.range (f.q.columnsFrom n).column)
      = (Submodule.span ℝ (Set.range a.column))ᗮ := by
  refine Submodule.eq_of_le_of_finrank_eq ?_ ?_
  · rw [Submodule.span_le]
    rintro - ⟨j, rfl⟩
    rw [SetLike.mem_coe, Submodule.mem_orthogonal]
    intro u hu
    induction hu using Submodule.span_induction with
    | mem u hu =>
      obtain ⟨i, rfl⟩ := hu
      exact inner_column_columnsFrom h i j
    | zero => exact inner_zero_left _
    | add u v _ _ hu hv => rw [inner_add_left, hu, hv, add_zero]
    | smul c u _ hu => rw [inner_smul_left, hu, mul_zero]
  · have horthonormal := orthonormal_columnsFrom (mem_orthogonalGroup_factor h) n
    have hindependent := linearIndependent_column fun v => eq_zero_of_factor h hle
    have hsum := Submodule.finrank_add_finrank_orthogonal (Submodule.span ℝ (Set.range a.column))
    rw [finrank_euclideanSpace_fin, finrank_span_eq_card hindependent, Fintype.card_fin] at hsum
    rw [finrank_span_eq_card horthonormal.linearIndependent, Fintype.card_fin]
    omega

/-- **What a factorization says of its array.** -/
theorem decomposes_of_factor {a : Dense m n ℝ} {f : Factors m ℝ} (h : factor a = .ok f) :
    f.Decomposes a where
  le := le_of_factor_ok h
  orthogonal := mem_orthogonalGroup_factor h
  below_eq_zero _ _ := transpose_mul_eq_zero h
  diagonal_eq := diagonal_eq_ofFn h (le_of_factor_ok h)
  le_abs_diagonal _ := le_abs_diagonal_factor h
  independent := linearIndependent_column fun _ => eq_zero_of_factor h (le_of_factor_ok h)
  orthonormal := orthonormal_columnsFrom (mem_orthogonalGroup_factor h) n
  span_eq := span_columnsFrom h (le_of_factor_ok h)

/-! ### When there is a factorization -/

/-- What is left of every column that is met is long enough. -/
def LongColumns : List (Fin m) → List (Vector ℝ m) → Prop
  | pivot :: pivots, column :: columns =>
    1 / 1000000 ≤ √(Reflector.below pivot column + column.get pivot * column.get pivot) ∧
      ∀ r, Reflector.ofColumn? pivot column = some r →
        LongColumns pivots (columns.map r.applyColumn)
  | _, _ => True

/-- **Columns are factored if and only if each of them is long enough when it is met.** -/
theorem exists_factorColumns_iff (q : Dense m m ℝ) {pivots : List (Fin m)}
    {columns : List (Vector ℝ m)} (hlength : columns.length ≤ pivots.length) :
    (∃ f, factorColumns q pivots columns = .ok f) ↔ LongColumns pivots columns := by
  induction pivots generalizing q columns with
  | nil =>
    obtain rfl := List.length_eq_zero_iff.1 (Nat.le_zero.1 hlength)
    exact iff_of_true ⟨_, rfl⟩ trivial
  | cons pivot pivots ih =>
    cases columns with
    | nil => exact iff_of_true ⟨_, rfl⟩ trivial
    | cons column columns =>
      unfold factorColumns LongColumns
      rw [← Reflector.exists_ofColumn?_iff]
      cases hr : Reflector.ofColumn? pivot column with
      | none => exact iff_of_false (by simp) (by simp)
      | some r =>
        have hshorter : (columns.map r.applyColumn).length ≤ pivots.length := by
          simpa using hlength
        have hrest := ih (q.map r.applyRow) hshorter
        constructor
        · rintro ⟨f, hf⟩
          obtain ⟨g, hg, -⟩ := bind_ok hf
          refine ⟨⟨r, rfl⟩, fun s hs => ?_⟩
          obtain rfl := Option.some.inj hs
          exact hrest.1 ⟨g, hg⟩
        · rintro ⟨-, hlong⟩
          obtain ⟨g, hg⟩ := hrest.2 (hlong r rfl)
          dsimp only
          rw [hg]
          exact ⟨_, rfl⟩

/-- **A factorization in exact arithmetic.**  What it returns is an orthogonal factor in whose
coordinates the array is upper triangular, and there is one if and only if the array is not wider
than it is high and every column is long enough when it is met. -/
theorem factor_decides (a : Dense m n ℝ) :
    (∀ f, factor a = .ok f → f.Decomposes a) ∧
      ((∃ f, factor a = .ok f) ↔ n ≤ m ∧ LongColumns (List.finRange m) a.transpose.toList) := by
  refine ⟨fun f => decomposes_of_factor, ?_⟩
  unfold factor
  split
  · exact iff_of_false (by simp) (by omega)
  · rw [exists_factorColumns_iff _ (by simp; omega)]
    exact (and_iff_right (by omega)).symm

/-- Two columns in three dimensions.  The first reflection moves the second one too. -/
def slanted : Dense 3 2 ℝ := #v[#v[0, 0], #v[1, 1], #v[0, 1]]

theorem below_slanted : Reflector.below 0 (#v[0, 1, 0] : Vector ℝ 3) = 1 := by
  unfold Reflector.below
  rw [Fin.sum_univ_three]
  norm_num [Dense.get_eq_getElem]

/-- The first reflection leaves one entry of the second column from the second pivot on. -/
theorem get_applyColumn_slanted {r : Reflector 3 ℝ} (h : r.Reflects 0 #v[0, 1, 0]) (i : Fin 3) :
    (r.applyColumn #v[0, 1, 1]).get i = (#v[r.diagonal, 0, 1] : Vector ℝ 3).get i := by
  have hnormal : r.normal = #v[-r.diagonal, 1, 0] := by
    refine vector_ext fun i => ?_
    rw [h.normal]
    fin_cases i
    all_goals norm_num [Dense.get_eq_getElem]
  have hfactor : r.columnFactor = -1 := by
    rw [h.columnFactor, below_slanted]
    norm_num [Dense.get_eq_getElem]
  have hoverlap : r.overlap #v[0, 1, 1] = 1 := by
    unfold Reflector.overlap
    rw [h.pivot_eq, hnormal, Fin.sum_univ_three]
    norm_num [Dense.get_eq_getElem]
  rw [Reflector.get_applyColumn, h.pivot_eq, if_pos (Fin.zero_le i), hoverlap, hfactor, hnormal]
  fin_cases i
  all_goals norm_num [Dense.get_eq_getElem]

/-- Both columns have length one when they are met. -/
theorem longColumns_slanted : LongColumns (List.finRange 3) slanted.transpose.toList := by
  have hcolumns : slanted.transpose.toList = [#v[0, 1, 0], #v[0, 1, 1]] := rfl
  have hpivots : List.finRange 3 = [0, 1, 2] := rfl
  rw [hcolumns, hpivots]
  refine ⟨?_, fun r hr => ⟨?_, fun _ _ => trivial⟩⟩
  · rw [below_slanted, Real.le_sqrt' (by norm_num)]
    norm_num [Dense.get_eq_getElem]
  · have hmoved : r.applyColumn #v[0, 1, 1] = #v[r.diagonal, 0, 1] :=
      vector_ext (get_applyColumn_slanted (Reflector.reflects_of_ofColumn? hr))
    rw [hmoved, Real.le_sqrt' (by norm_num)]
    unfold Reflector.below
    rw [Fin.sum_univ_three, if_pos (show (1 : Fin 3) < 2 by decide)]
    norm_num [Dense.get_eq_getElem]

/-- The slanted columns have a factorization. -/
theorem factor_decides_slanted : (2 ≤ 3 ∧
    LongColumns (List.finRange 3) slanted.transpose.toList) ∧
    ∃ f, factor slanted = .ok f ∧ f.Decomposes slanted := by
  have hlong : 2 ≤ 3 ∧ LongColumns (List.finRange 3) slanted.transpose.toList :=
    ⟨by norm_num, longColumns_slanted⟩
  obtain ⟨f, hf⟩ := (factor_decides slanted).2.2 hlong
  exact ⟨hlong, f, hf, (factor_decides slanted).1 f hf⟩

end ElasticLayout.Linear
