import ElasticLayout.Proofs.NullSpace
import ElasticLayout.Proofs.Shapes

/-!
# Rank detection without false zeros

Rank detection passes over a column whose pivot counts as zero.  The rows that it chooses are
independent in exact arithmetic, whatever it passes over.  Where every pivot that counts as zero is
zero, what all of them annihilate is annihilated by every row.

* `Sharp` -- a number that counts as zero is zero;
* `abs_le_pivot?` -- partial pivoting takes an entry of largest magnitude;
* `Reduction.step_cases` -- what a step does;
* `Reduction.SharpOver`, `SharpReduction` -- the pivots of a reduction are sharp;
* `Reduction.ReducesOn`, `Reduction.ReducesOn.step`, `Reduction.ReducesOn.step_of_sharp` -- what a
  reduction keeps, and one step of it;
* `exists_of_independentRows`, `eq_zero_of_independentRows` -- the chosen rows;
* `length_independentRows_eq` -- the number of rows chosen from an array that loses nothing.
-/

namespace ElasticLayout

open Matrix

/-- A number that counts as zero is zero. -/
def Sharp (a : ℝ) : Prop := Scalar.near a 0 = true → a = 0

theorem sharp_of_le {a : ℝ} (h : 1 / 1000000 ≤ |a|) : Sharp a := by
  intro hnear
  rw [Scalar.near_iff, sub_zero] at hnear
  exact absurd hnear (not_lt.2 h)

theorem sharp_one : Sharp 1 := sharp_of_le (by norm_num)

/-- A sharp pivot that is passed over is zero. -/
theorem Sharp.eq_zero_of_abs {a : ℝ} (h : Sharp a) (hnear : Scalar.near (Scalar.abs a) 0 = true) :
    a = 0 := by
  refine h ?_
  rw [Scalar.near_iff, sub_zero]
  exact Scalar.near_abs_iff.1 hnear

namespace Linear

variable {m n : ℕ}

/-! ### Partial pivoting -/

/-- The entry that is found is as large as any other. -/
theorem le_firstLargest (xs : List ℝ) {j : ℕ} (hj : j < xs.length) :
    xs.getD j 0 ≤ xs.getD (firstLargest xs) 0 := by
  -- The scan has seen the entries before `next`, and `index` holds the largest of them.
  have hscan : ∀ (ys : List ℝ) (index next : ℕ), xs.drop next = ys →
      (∀ i < next, xs.getD i 0 ≤ xs.getD index 0) → ∀ i < xs.length,
        xs.getD i 0 ≤ xs.getD (firstLargest.go (xs.getD index 0) index next ys) 0 := by
    intro ys
    induction ys with
    | nil =>
      intro index next hdrop hseen i hi
      exact hseen i (lt_of_lt_of_le hi (List.drop_eq_nil_iff.1 hdrop))
    | cons y ys ih =>
      intro index next hdrop hseen
      have hy : xs.getD next 0 = y := by
        rw [List.getD_eq_getElem?_getD, ← List.head?_drop, hdrop]
        rfl
      have hrest : xs.drop (next + 1) = ys := by
        rw [← List.tail_drop, hdrop, List.tail_cons]
      unfold firstLargest.go
      split
      · rename_i hlt
        rw [← hy] at hlt ⊢
        refine ih next (next + 1) hrest fun i hi => ?_
        obtain hi | rfl := Nat.lt_succ_iff_lt_or_eq.1 hi
        · exact (hseen i hi).trans hlt.le
        · exact le_rfl
      · rename_i hle
        rw [← hy, not_lt] at hle
        refine ih index (next + 1) hrest fun i hi => ?_
        obtain hi | rfl := Nat.lt_succ_iff_lt_or_eq.1 hi
        · exact hseen i hi
        · exact hle
  cases xs with
  | nil => exact absurd hj (Nat.not_lt_zero j)
  | cons x xs =>
    refine hscan xs 0 1 rfl (fun i hi => ?_) j hj
    rw [Nat.lt_one_iff.1 hi]

theorem swapToFront?_eq {β : Type} {xs rest : List β} {k : ℕ} {front : β}
    (h : swapToFront? xs k = some (front, rest)) (hk : k < xs.length) : xs[k]? = some front := by
  cases xs with
  | nil => exact absurd hk (Nat.not_lt_zero k)
  | cons x xs =>
    cases k with
    | zero => exact congrArg some (Prod.mk.inj (Option.some.inj h)).1
    | succ k =>
      rw [List.length_cons, Nat.succ_lt_succ_iff] at hk
      rw [List.getElem?_cons_succ]
      simp only [swapToFront?, List.getElem?_eq_getElem hk] at h ⊢
      exact congrArg some (Prod.mk.inj (Option.some.inj h)).1

/-- **Partial pivoting takes an entry of largest magnitude.** -/
theorem abs_le_pivot? {β : Type} {entry : β → ℝ} {rows rest : List β} {front row : β}
    (h : pivot? entry rows = some (front, rest)) (hrow : row ∈ rows) :
    |entry row| ≤ |entry front| := by
  have hne : rows.map (fun row => Scalar.abs (entry row)) ≠ [] := by
    simpa using List.ne_nil_of_mem hrow
  have hlt := firstLargest_lt hne
  have hfront := swapToFront?_eq h (by simpa using hlt)
  obtain ⟨j, hj, rfl⟩ := List.mem_iff_getElem.1 hrow
  have hle := le_firstLargest (rows.map fun row => Scalar.abs (entry row)) (j := j)
    (by simpa using hj)
  simp only [List.getD_eq_getElem?_getD, hfront, List.getElem?_map, List.getElem?_eq_getElem hj,
    Option.map_some, Option.getD_some] at hle
  exact hle

theorem eq_zero_of_pivot? {β : Type} (entry : β → ℝ) {rows rest : List β} {front row : β}
    (h : pivot? entry rows = some (front, rest)) (hfront : entry front = 0) (hrow : row ∈ rows) :
    entry row = 0 := by
  have hle := abs_le_pivot? h hrow
  rw [hfront, abs_zero] at hle
  exact abs_nonpos_iff.1 hle

/-! ### Sharp reductions -/

/-- The entries of an array as a matrix. -/
abbrev Dense.matrix (a : Dense m n ℝ) : Matrix (Fin m) (Fin n) ℝ := .of a.entry

theorem Dense.matrix_mulVec (a : Dense m n ℝ) (v : Fin n → ℝ) (r : Fin m) :
    (a.matrix *ᵥ v) r = ∑ k, a.entry r k * v k := rfl

namespace Reduction

/-- Every pivot that the reduction tests over the columns is sharp. -/
def SharpOver : Reduction m n ℝ → List (Fin n) → Prop
  | _, [] => True
  | s, column :: columns =>
    (∀ p others, pivot? (fun r => s.cells.entry r column) s.rest = some (p, others) →
      Sharp (s.cells.entry p column)) ∧ (s.step column).SharpOver columns

/-- Where the pivot row vanishes before the column, elimination takes a multiple of it. -/
theorem get_eliminate {column k : Fin n} {pivot row : Vector ℝ n} (hpivot : pivot.get column ≠ 0)
    (hbefore : k < column → pivot.get k = 0) :
    (eliminate column pivot row).get k
      = row.get k + pivot.get k * (-row.get column / pivot.get column) := by
  unfold eliminate
  rw [get_ofFn]
  obtain hlt | rfl | hgt := lt_trichotomy k column
  · rw [if_neg hlt.ne, if_neg hlt.asymm, hbefore hlt, zero_mul, add_zero]
  · rw [if_pos rfl, mul_div_cancel₀ _ hpivot, add_neg_cancel]
  · rw [if_neg hgt.ne', if_pos hgt]

/-- **What a step does**: it finds only entries that count as zero, or it eliminates a column from
the rows that are left with one that has an entry there. -/
theorem step_cases (s : Reduction m n ℝ) (column : Fin n) :
    (s.step column = s ∧ ∀ r ∈ s.rest, |s.cells.entry r column| < 1 / 1000000) ∨
      ∃ p others, (p :: others).Perm s.rest ∧ s.cells.entry p column ≠ 0 ∧
        (s.step column).chosen = s.chosen ++ [p] ∧ (s.step column).rest = others ∧
        ∀ r ∈ others, (s.step column).cells.get r
          = eliminate column (s.cells.get p) (s.cells.get r) := by
  cases hpivot : pivot? (fun r => s.cells.entry r column) s.rest with
  | none =>
    have hrest : s.rest = [] := by
      by_contra hne
      obtain ⟨chosen, hchosen⟩ := exists_pivot? hne fun r => s.cells.entry r column
      exact absurd (hpivot.symm.trans hchosen) (by simp)
    refine .inl ⟨?_, by simp [hrest]⟩
    unfold step
    rw [hpivot]
  | some found =>
    obtain ⟨p, others⟩ := found
    by_cases hnear : Scalar.near (Scalar.abs (s.cells.entry p column)) 0 = true
    · refine .inl ⟨?_, fun r hr => ?_⟩
      · unfold step
        rw [hpivot]
        exact if_pos hnear
      · exact (abs_le_pivot? hpivot hr).trans_lt (Scalar.near_abs_iff.1 hnear)
    · refine .inr ⟨p, others, pivot?_perm hpivot, Scalar.ne_zero_of_not_near_abs hnear, ?_⟩
      unfold step
      rw [hpivot]
      dsimp only
      rw [if_neg hnear]
      refine ⟨rfl, rfl, fun r hr => ?_⟩
      rw [get_ofFn, if_pos (List.contains_iff_mem.2 hr)]

/-- A step passes over a column of zeros. -/
theorem step_of_zero {s : Reduction m n ℝ} {column : Fin n}
    (h : ∀ r ∈ s.rest, s.cells.entry r column = 0) : s.step column = s := by
  obtain ⟨hstep, -⟩ | ⟨p, others, hperm, hentry, -⟩ := step_cases s column
  · exact hstep
  · exact absurd (h p (hperm.mem_iff.1 List.mem_cons_self)) hentry

/-- Where the pivot is sharp, a column of entries that count as zero is a column of zeros. -/
theorem eq_zero_of_sharp {s : Reduction m n ℝ} {column : Fin n}
    (hsharp : ∀ p others, pivot? (fun r => s.cells.entry r column) s.rest = some (p, others) →
      Sharp (s.cells.entry p column))
    (hnear : ∀ r ∈ s.rest, |s.cells.entry r column| < 1 / 1000000) {r : Fin m} (hr : r ∈ s.rest) :
    s.cells.entry r column = 0 := by
  obtain ⟨⟨p, others⟩, hpivot⟩ :=
    exists_pivot? (List.ne_nil_of_mem hr) fun r => s.cells.entry r column
  have hp := hnear p ((pivot?_perm hpivot).mem_iff.1 List.mem_cons_self)
  exact eq_zero_of_pivot? (fun r => s.cells.entry r column) hpivot
    ((hsharp p others hpivot).eq_zero_of_abs (Scalar.near_abs_iff.2 hp)) hr

/-- How a reduction of an array stands before some columns.  Columns are settled where elimination
was exact; a column that is passed over may keep small entries, and is left out of account.  The
rows that are left vanish in the settled columns, they are what they were wherever the chosen rows
vanish, and the chosen rows take any values on vectors that are supported in the settled columns. -/
structure ReducesOn (a : Dense m n ℝ) (settled : Set (Fin n)) (columns : List (Fin n))
    (s : Reduction m n ℝ) : Prop where
  vanish : ∀ r ∈ s.rest, ∀ k ∈ settled, s.cells.entry r k = 0
  agree : ∀ v : Fin n → ℝ, (∀ k ∉ settled, k ∉ columns → v k = 0) →
    (∀ q ∈ s.chosen, (a.matrix *ᵥ v) q = 0) →
    ∀ r ∈ s.rest, (s.cells.matrix *ᵥ v) r = (a.matrix *ᵥ v) r
  reach : ∀ t : Fin m → ℝ, ∃ w : Fin n → ℝ, (∀ k ∉ settled, w k = 0) ∧
    ∀ q ∈ s.chosen, (a.matrix *ᵥ w) q = t q

theorem reducesOn_ofDense (a : Dense m n ℝ) : (ofDense a).ReducesOn a ∅ (List.finRange n) where
  vanish _ _ _ hk := absurd hk (Set.notMem_empty _)
  agree _ _ _ _ _ := rfl
  reach _ := ⟨0, fun _ _ => rfl, fun _ hq => absurd hq List.not_mem_nil⟩

namespace ReducesOn

variable {a : Dense m n ℝ} {s : Reduction m n ℝ} {column : Fin n} {columns : List (Fin n)}
  {settled : Set (Fin n)}

/-- What is left does not see vectors that are supported in the settled columns. -/
theorem mulVec_eq_zero (h : s.ReducesOn a settled columns) {w : Fin n → ℝ}
    (hw : ∀ k ∉ settled, w k = 0) {r : Fin m} (hr : r ∈ s.rest) :
    (s.cells.matrix *ᵥ w) r = 0 := by
  rw [Dense.matrix_mulVec]
  refine Finset.sum_eq_zero fun k _ => ?_
  by_cases hk : k ∈ settled
  · rw [h.vanish r hr k hk, zero_mul]
  · rw [hw k hk, mul_zero]

/-- A vector that the chosen rows annihilate and that a row left over with an entry in the column
does not. -/
theorem exists_separating (h : s.ReducesOn a settled (column :: columns)) {p : Fin m}
    (hp : p ∈ s.rest) (hentry : s.cells.entry p column ≠ 0) :
    ∃ u : Fin n → ℝ, (∀ k ∉ insert column settled, u k = 0) ∧
      (∀ q ∈ s.chosen, (a.matrix *ᵥ u) q = 0) ∧ (a.matrix *ᵥ u) p ≠ 0 := by
  obtain ⟨w, hw, hreach⟩ := h.reach (a.matrix *ᵥ Pi.single column 1)
  have hchosen : ∀ q ∈ s.chosen, (a.matrix *ᵥ (Pi.single column 1 - w)) q = 0 := by
    intro q hq
    rw [mulVec_sub, Pi.sub_apply, hreach q hq, sub_self]
  have hsupport : ∀ k ∉ insert column settled, (Pi.single column 1 - w : Fin n → ℝ) k = 0 := by
    intro k hk
    rw [Set.mem_insert_iff, not_or] at hk
    rw [Pi.sub_apply, hw k hk.2, sub_zero, Pi.single_eq_of_ne hk.1]
  refine ⟨Pi.single column 1 - w, hsupport, hchosen, ?_⟩
  have hagree := h.agree _ (fun k hk hcolumns => hsupport k ?_) hchosen p hp
  · rw [← hagree, mulVec_sub, Pi.sub_apply, h.mulVec_eq_zero hw hp, sub_zero, mulVec_single_one]
    exact hentry
  · rw [Set.mem_insert_iff, not_or]
    exact ⟨fun heq => hcolumns (heq ▸ List.mem_cons_self), hk⟩

/-- One vector more reaches one row more: the separating vector corrects the value of the new row
and of no other. -/
theorem exists_reaching (h : s.ReducesOn a settled (column :: columns)) {p : Fin m}
    (hp : p ∈ s.rest) (hentry : s.cells.entry p column ≠ 0) (t : Fin m → ℝ) :
    ∃ w : Fin n → ℝ, (∀ k ∉ insert column settled, w k = 0) ∧
      ∀ q ∈ s.chosen ++ [p], (a.matrix *ᵥ w) q = t q := by
  obtain ⟨w, hw, hreach⟩ := h.reach t
  obtain ⟨u, hu, hannihilates, hseen⟩ := h.exists_separating hp hentry
  refine ⟨w + ((t p - (a.matrix *ᵥ w) p) / (a.matrix *ᵥ u) p) • u, fun k hk => ?_, fun q hq => ?_⟩
  · rw [Pi.add_apply, Pi.smul_apply, hw k fun hmem => hk (Set.mem_insert_of_mem _ hmem), hu k hk,
      smul_zero, add_zero]
  · rw [List.mem_append, List.mem_singleton] at hq
    rw [mulVec_add, mulVec_smul, Pi.add_apply, Pi.smul_apply, smul_eq_mul]
    obtain hq | rfl := hq
    · rw [hreach q hq, hannihilates q hq, mul_zero, add_zero]
    · rw [div_mul_cancel₀ _ hseen, add_sub_cancel]

/-- A column that is passed over is left out of account. -/
theorem pass (h : s.ReducesOn a settled (column :: columns)) : s.ReducesOn a settled columns :=
  ⟨h.vanish, fun v hv => h.agree v fun k hk hcolumns =>
    hv k hk fun hmem => hcolumns (List.mem_cons_of_mem _ hmem), h.reach⟩

/-- A column of zeros is settled. -/
theorem settle (h : s.ReducesOn a settled (column :: columns))
    (hzero : ∀ r ∈ s.rest, s.cells.entry r column = 0) :
    s.ReducesOn a (insert column settled) columns := by
  refine ⟨fun r hr k hk => ?_, fun v hv => h.agree v fun k hk hcolumns => ?_, fun t => ?_⟩
  · obtain rfl | hk := Set.mem_insert_iff.1 hk
    · exact hzero r hr
    · exact h.vanish r hr k hk
  · rw [List.mem_cons, not_or] at hcolumns
    refine hv k (fun hmem => ?_) hcolumns.2
    exact (Set.mem_insert_iff.1 hmem).elim hcolumns.1 hk
  · obtain ⟨w, hw, hreach⟩ := h.reach t
    exact ⟨w, fun k hk => hw k fun hmem => hk (Set.mem_insert_of_mem _ hmem), hreach⟩

/-- **A column with a pivot is settled.** -/
theorem eliminate (h : s.ReducesOn a settled (column :: columns))
    (hsorted : (column :: columns).Pairwise (· < ·)) {t : Reduction m n ℝ} {p : Fin m}
    {others : List (Fin m)} (hperm : (p :: others).Perm s.rest)
    (hentry : s.cells.entry p column ≠ 0) (hchosen : t.chosen = s.chosen ++ [p])
    (hrest : t.rest = others) (hcells : ∀ r ∈ others, t.cells.get r
      = Reduction.eliminate column (s.cells.get p) (s.cells.get r)) :
    t.ReducesOn a (insert column settled) columns := by
  have hp : p ∈ s.rest := hperm.mem_iff.1 List.mem_cons_self
  have hothers : ∀ r ∈ others, r ∈ s.rest := fun r hr =>
    hperm.mem_iff.1 (List.mem_cons_of_mem _ hr)
  -- In a settled column the pivot row vanishes, and the columns to come lie behind this one.
  have hentries : ∀ r ∈ others, ∀ k, k ∈ settled ∨ k ∈ column :: columns → t.cells.entry r k
      = s.cells.entry r k
        + s.cells.entry p k * (-s.cells.entry r column / s.cells.entry p column) := by
    intro r hr k hk
    unfold Dense.entry
    rw [hcells r hr]
    refine get_eliminate hentry fun hlt => ?_
    obtain hk | hk := hk
    · exact h.vanish p hp k hk
    · obtain rfl | hk := List.mem_cons.1 hk
      · exact absurd hlt (lt_irrefl _)
      · exact absurd hlt ((List.pairwise_cons.1 hsorted).1 k hk).asymm
  have hrows : ∀ r ∈ others, ∀ v : Fin n → ℝ, (∀ k ∉ settled, k ∉ column :: columns → v k = 0) →
      (t.cells.matrix *ᵥ v) r = (s.cells.matrix *ᵥ v) r
        + (s.cells.matrix *ᵥ v) p * (-s.cells.entry r column / s.cells.entry p column) := by
    intro r hr v hv
    simp only [Dense.matrix_mulVec]
    rw [Finset.sum_mul, ← Finset.sum_add_distrib]
    refine Finset.sum_congr rfl fun k _ => ?_
    by_cases hk : k ∈ settled ∨ k ∈ column :: columns
    · rw [hentries r hr k hk]
      ring
    · rw [not_or] at hk
      rw [hv k hk.1 hk.2]
      ring
  refine ⟨fun r hr k hk => ?_, fun v hv hchosen' r hr => ?_, ?_⟩
  · rw [hrest] at hr
    obtain rfl | hk := Set.mem_insert_iff.1 hk
    · rw [hentries r hr k (.inr List.mem_cons_self), mul_div_cancel₀ _ hentry, add_neg_cancel]
    · rw [hentries r hr k (.inl hk), h.vanish r (hothers r hr) k hk, h.vanish p hp k hk, zero_mul,
        add_zero]
  · rw [hrest] at hr
    rw [hchosen] at hchosen'
    have hv' : ∀ k ∉ settled, k ∉ column :: columns → v k = 0 := by
      intro k hk hcolumns
      rw [List.mem_cons, not_or] at hcolumns
      refine hv k (fun hmem => ?_) hcolumns.2
      exact (Set.mem_insert_iff.1 hmem).elim hcolumns.1 hk
    have hbefore : ∀ q ∈ s.chosen, (a.matrix *ᵥ v) q = 0 := fun q hq =>
      hchosen' q (List.mem_append_left _ hq)
    rw [hrows r hr v hv', h.agree v hv' hbefore r (hothers r hr), h.agree v hv' hbefore p hp,
      hchosen' p (List.mem_append_right _ (List.mem_singleton_self p)), zero_mul, add_zero]
  · rw [hchosen]
    exact h.exists_reaching hp hentry

/-- **One step of a reduction** settles its column or leaves it out of account. -/
theorem step (h : s.ReducesOn a settled (column :: columns))
    (hsorted : (column :: columns).Pairwise (· < ·)) :
    ∃ settled', (s.step column).ReducesOn a settled' columns := by
  obtain ⟨hstep, -⟩ | ⟨p, others, hperm, hentry, hchosen, hrest, hcells⟩ := step_cases s column
  · rw [hstep]
    exact ⟨settled, h.pass⟩
  · exact ⟨_, h.eliminate hsorted hperm hentry hchosen hrest hcells⟩

/-- **One step of a sharp reduction** settles its column. -/
theorem step_of_sharp (h : s.ReducesOn a settled (column :: columns))
    (hsorted : (column :: columns).Pairwise (· < ·))
    (hsharp : ∀ p others, pivot? (fun r => s.cells.entry r column) s.rest = some (p, others) →
      Sharp (s.cells.entry p column)) :
    (s.step column).ReducesOn a (insert column settled) columns := by
  obtain ⟨hstep, hnear⟩ | ⟨p, others, hperm, hentry, hchosen, hrest, hcells⟩ := step_cases s column
  · rw [hstep]
    exact h.settle fun r => eq_zero_of_sharp hsharp hnear
  · exact h.eliminate hsorted hperm hentry hchosen hrest hcells

/-- A reduction over all columns that are left. -/
theorem foldl (h : s.ReducesOn a settled columns) (hsorted : columns.Pairwise (· < ·)) :
    ∃ settled', (columns.foldl Reduction.step s).ReducesOn a settled' [] := by
  induction columns generalizing s settled with
  | nil => exact ⟨settled, h⟩
  | cons column columns ih =>
    obtain ⟨settled', hstep⟩ := h.step hsorted
    exact ih hstep (List.pairwise_cons.1 hsorted).2

/-- A sharp reduction over all columns that are left. -/
theorem foldl_of_sharp (h : s.ReducesOn a settled columns) (hsorted : columns.Pairwise (· < ·))
    (hsharp : s.SharpOver columns) (hall : ∀ k, k ∈ settled ∨ k ∈ columns) :
    (columns.foldl Reduction.step s).ReducesOn a Set.univ [] := by
  induction columns generalizing s settled with
  | nil =>
    have hsettled : settled = Set.univ := Set.eq_univ_of_forall fun k => by simpa using hall k
    rwa [hsettled] at h
  | cons column columns ih =>
    refine ih (h.step_of_sharp hsorted hsharp.1) (List.pairwise_cons.1 hsorted).2 hsharp.2
      fun k => ?_
    obtain hk | hk := hall k
    · exact .inl (Set.mem_insert_of_mem _ hk)
    · obtain rfl | hk := List.mem_cons.1 hk
      · exact .inl (Set.mem_insert _ _)
      · exact .inr hk

end ReducesOn

end Reduction

/-- Every pivot that rank detection tests is sharp. -/
def SharpReduction (a : Dense m n ℝ) : Prop := (Reduction.ofDense a).SharpOver (List.finRange n)

/-! ### The chosen rows -/

variable {a : Dense m n ℝ}

theorem mem_independentRows {r : Fin m} : r ∈ independentRows a ↔ r ∈ (reduceRows a).chosen := by
  unfold independentRows independenceMask
  simp [Dense.get_eq_getElem]

/-- **The chosen rows are independent**: they take any values. -/
theorem exists_of_independentRows (a : Dense m n ℝ) (t : Fin m → ℝ) :
    ∃ w : Fin n → ℝ, ∀ r ∈ independentRows a, (a.matrix *ᵥ w) r = t r := by
  obtain ⟨settled, hreduced⟩ :=
    (Reduction.reducesOn_ofDense a).foldl (List.pairwise_lt_finRange n)
  obtain ⟨w, -, hw⟩ := hreduced.reach t
  exact ⟨w, fun r hr => hw r (mem_independentRows.1 hr)⟩

/-- **The other rows depend on the chosen ones**: what the chosen rows annihilate, all rows do. -/
theorem eq_zero_of_independentRows (h : SharpReduction a) {v : Fin n → ℝ}
    (hv : ∀ r ∈ independentRows a, (a.matrix *ᵥ v) r = 0) : a.matrix *ᵥ v = 0 := by
  have hreduced : (reduceRows a).ReducesOn a Set.univ [] :=
    (Reduction.reducesOn_ofDense a).foldl_of_sharp (List.pairwise_lt_finRange n) h
      fun k => .inr (List.mem_finRange k)
  have hall : ∀ w : Fin n → ℝ, ∀ k ∉ (Set.univ : Set (Fin n)), w k = 0 :=
    fun _ k hk => absurd (Set.mem_univ k) hk
  have hchosen : ∀ q ∈ (reduceRows a).chosen, (a.matrix *ᵥ v) q = 0 := fun q hq =>
    hv q (mem_independentRows.2 hq)
  funext r
  have hmem := (perm_reduceRows a).mem_iff.2 (List.mem_finRange r)
  obtain hr | hr := List.mem_append.1 hmem
  · exact hchosen r hr
  · rw [← hreduced.agree v (fun k hk _ => hall v k hk) hchosen r hr]
    exact hreduced.mulVec_eq_zero (hall v) hr

/-- The chosen rows combine to zero in one way only. -/
theorem eq_zero_of_combination {c : Fin (independentRows a).length → ℝ}
    (hc : ∀ j, ∑ i, (a.selectRows (independentRows a)).entry i j * c i = 0)
    (i : Fin (independentRows a).length) : c i = 0 := by
  obtain ⟨w, hw⟩ := exists_of_independentRows a (Pi.single ((independentRows a).get i) 1)
  have hvalue : ∀ l, ∑ j, (a.selectRows (independentRows a)).entry l j * w j
      = if l = i then 1 else 0 := by
    intro l
    have hl := hw _ (List.get_mem (independentRows a) l)
    unfold Dense.entry
    rw [Dense.get_selectRows]
    refine hl.trans ?_
    rw [Pi.single_apply]
    exact if_congr (nodup_independentRows.get_inj_iff) rfl rfl
  calc c i = ∑ l, (if l = i then 1 else 0) * c l := by simp
    _ = ∑ l, (∑ j, (a.selectRows (independentRows a)).entry l j * w j) * c l := by
        simp only [hvalue]
    _ = ∑ j, (∑ l, (a.selectRows (independentRows a)).entry l j * c l) * w j := by
        simp only [Finset.sum_mul]
        rw [Finset.sum_comm]
        refine Finset.sum_congr rfl fun j _ => Finset.sum_congr rfl fun l _ => ?_
        ring
    _ = 0 := by simp only [hc, zero_mul, Finset.sum_const_zero]

/-- **An array that annihilates only zero has as many independent rows as columns.** -/
theorem length_independentRows_eq (h : SharpReduction a)
    (hinjective : ∀ v, a.matrix *ᵥ v = 0 → v = 0) : (independentRows a).length = n := by
  obtain ⟨f, hf⟩ : ∃ f : (Fin n → ℝ) →ₗ[ℝ] (Fin (independentRows a).length → ℝ),
      ∀ v i, f v i = (a.matrix *ᵥ v) ((independentRows a).get i) :=
    ⟨(LinearMap.funLeft ℝ ℝ (independentRows a).get).comp a.matrix.mulVecLin, fun _ _ => rfl⟩
  have hkernel : Function.Injective f := by
    refine (injective_iff_map_eq_zero f).2 fun v hv => hinjective v ?_
    refine eq_zero_of_independentRows h fun r hr => ?_
    obtain ⟨i, rfl⟩ := List.get_of_mem hr
    rw [← hf, hv]
    rfl
  have hrange : Function.Surjective f := by
    intro t
    obtain ⟨w, hw⟩ := exists_of_independentRows a fun r =>
      if hr : r ∈ independentRows a then
        t ⟨(independentRows a).idxOf r, List.idxOf_lt_length_of_mem hr⟩
      else 0
    refine ⟨w, funext fun i => ?_⟩
    have hi := List.get_mem (independentRows a) i
    rw [hf, hw _ hi, dif_pos hi]
    congr 1
    exact Fin.ext (nodup_independentRows.idxOf_getElem i.val i.isLt)
  have hfinrank := LinearEquiv.finrank_eq (LinearEquiv.ofBijective f ⟨hkernel, hrange⟩)
  simpa using hfinrank.symm

end Linear

end ElasticLayout
