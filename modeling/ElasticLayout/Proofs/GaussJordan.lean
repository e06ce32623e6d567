import ElasticLayout.Proofs.RowOperations

/-!
# Gauss-Jordan elimination in exact arithmetic

Elimination goes down over the rows, and then up again.  On the way down the columns before the row
that is treated next are settled: they have a one on the diagonal and zeros below.  A row that finds
no pivot has no coefficients at all, so that the rows depend on each other.  On the way up the rest
of the leading columns is cleared.  What the basic solution then holds is the same in every
arithmetic.

* `SharpScan`, `EquationSystem.SharpPivot` -- the tests of a search for a pivot are sharp;
* `EquationSystem.SharpDown`, `EquationSystem.SharpUp`, `EquationSystem.SharpJordan` -- those of a
  run;
* `bringPivot?_cases`, `eq_zero_of_bringPivot?` -- what the search finds;
* `EquationSystem.Settled`, `Settled.bringPivot`, `Settled.eliminateColumn`,
  `eliminateDown_cases` -- the way down;
* `EquationSystem.Cleared`, `Cleared.eliminateUp`, `Cleared.foldl` -- the way up;
* `gaussJordan_cases` -- both;
* `get_basicSolution`, `get_basicSolution_of_ne`, `Cleared.isSolution_basicSolution` -- the basic
  solution.
-/

namespace ElasticLayout

open Linear

variable {R C : ℕ}

/-! ### Sharp runs -/

/-- The numbers that a scan in ascending order tests are sharp; it goes on for as long as they count
as zero. -/
def SharpScan {n : ℕ} (tested : Fin n → Prop) (f : Fin n → ℝ) : Prop :=
  ∀ k, tested k → (∀ l < k, tested l → Scalar.near (f l) 0 = true) → Sharp (f k)

/-- A sharp scan to the end has met zeros only. -/
theorem SharpScan.eq_zero {n : ℕ} {tested : Fin n → Prop} {f : Fin n → ℝ} (h : SharpScan tested f)
    (hnear : ∀ k, tested k → Scalar.near (f k) 0 = true) {k : Fin n} (hk : tested k) : f k = 0 :=
  h k hk (fun l _ => hnear l) (hnear k hk)

/-- A number that does not count as zero is not zero. -/
theorem ne_zero_of_not_near {a : ℝ} (h : ¬Scalar.near a 0 = true) : a ≠ 0 := fun hzero =>
  h (hzero ▸ Scalar.near_zero)

namespace EquationSystem

variable {s t : EquationSystem R C ℝ} {i r : Fin R} {c d : Fin C}

/-- The tests of a search for a pivot are sharp: those in the column, and those in the row if there
is no pivot in the column. -/
structure SharpPivot (s : EquationSystem R C ℝ) (i : Fin R) (c : Fin C) : Prop where
  column : SharpScan (fun r => i ≤ r ∧ r.val < s.rows) fun r => s.cell r c
  row : (∀ r, i ≤ r → r.val < s.rows → Scalar.near (s.cell r c) 0 = true) →
    SharpScan (fun k => c < k ∧ k.val < s.columns) (s.cell i)

/-- The tests of a run over the given rows from the first to the last are sharp. -/
def SharpDown : EquationSystem R C ℝ → List (Fin R) → Prop
  | _, [] => True
  | s, i :: rest => ∀ h : i.val < s.columns,
    s.SharpPivot i (Fin.castLE s.columns_le ⟨i.val, h⟩) ∧
      ∀ t, s.bringPivot? i (Fin.castLE s.columns_le ⟨i.val, h⟩) = some t →
        t.SharpColumn i (Fin.castLE s.columns_le ⟨i.val, h⟩) (t.activeRows.filter (i < ·)) ∧
          SharpDown (t.eliminateColumn i (Fin.castLE s.columns_le ⟨i.val, h⟩)
            (t.activeRows.filter (i < ·))) rest

/-- The tests of elimination upward from the given rows are sharp. -/
def SharpUp : EquationSystem R C ℝ → List (Fin R) → Prop
  | _, [] => True
  | s, i :: rest =>
    (∀ h : i.val < C, s.SharpColumn i ⟨i.val, h⟩ ((List.finRange R).filter (· < i))) ∧
      SharpUp (s.eliminateUp i) rest

/-- Every entry that elimination down and up again compares with zero is sharp. -/
structure SharpJordan (s : EquationSystem R C ℝ) : Prop where
  down : s.SharpDown s.activeRows
  up : ∀ t, s.gaussianElimination = (t, true) → t.SharpUp t.activeRows.reverse

/-! ### The search for a pivot -/

theorem mem_activeRows : r ∈ s.activeRows ↔ r.val < s.rows := by
  simp [activeRows]

theorem mem_activeColumns : c ∈ s.activeColumns ↔ c.val < s.columns := by
  simp [activeColumns]

theorem swapRows_self (s : EquationSystem R C ℝ) (i : Fin R) : s.swapRows i i = s := by
  have hswap : ∀ {β : Type} (v : Vector β R), v.swap i.val i.val i.isLt i.isLt = v := by
    intro β v
    refine vector_ext fun k => ?_
    rw [get_swap, Equiv.swap_self]
    rfl
  unfold swapRows
  rw [hswap, hswap]

/-- **What the search for a pivot does**: it exchanges the row with one that has an entry in the
column, or else the column with one in which the row has an entry. -/
theorem bringPivot?_cases (h : s.bringPivot? i c = some t) :
    (∃ r, i ≤ r ∧ r.val < s.rows ∧ t = s.swapRows i r ∧ s.cell r c ≠ 0) ∨
      ∃ k, c < k ∧ k.val < s.columns ∧ t = s.swapColumns c k ∧ s.cell i k ≠ 0 := by
  unfold bringPivot? at h
  split at h
  · rename_i r hr
    have hactive := mem_activeRows.1 (List.mem_of_find?_eq_some hr)
    have hfound := List.find?_some hr
    rw [Bool.and_eq_true, decide_eq_true_eq, Bool.not_eq_true'] at hfound
    refine .inl ⟨r, hfound.1, hactive, ?_, ne_zero_of_not_near (by simp [hfound.2])⟩
    rw [← Option.some.inj h]
    split
    · rename_i hri
      rw [hri, swapRows_self]
    · rfl
  · obtain ⟨k, hk, rfl⟩ := Option.map_eq_some_iff.1 h
    have hactive := mem_activeColumns.1 (List.mem_of_find?_eq_some hk)
    have hfound := List.find?_some hk
    rw [Bool.and_eq_true, decide_eq_true_eq, Bool.not_eq_true'] at hfound
    exact .inr ⟨k, hfound.1, hactive, rfl, ne_zero_of_not_near (by simp [hfound.2])⟩

/-- **A row that finds no pivot** has no entry from the column on. -/
theorem eq_zero_of_bringPivot? (hsharp : s.SharpPivot i c) (h : s.bringPivot? i c = none)
    (hi : i.val < s.rows) (hd : d.val < s.columns) (hcd : c ≤ d) : s.cell i d = 0 := by
  unfold bringPivot? at h
  split at h
  · exact absurd h (by simp)
  · rename_i hrows
    have hcolumns := Option.map_eq_none_iff.1 h
    rw [List.find?_eq_none] at hrows hcolumns
    have hnear : ∀ r, i ≤ r → r.val < s.rows → Scalar.near (s.cell r c) 0 = true := by
      intro r hir hr
      have hr := hrows r (mem_activeRows.2 hr)
      simpa [hir] using hr
    obtain rfl | hlt := hcd.eq_or_lt
    · exact hsharp.column.eq_zero (fun r hr => hnear r hr.1 hr.2) ⟨le_rfl, hi⟩
    · refine (hsharp.row hnear).eq_zero (fun k hk => ?_) ⟨hlt, hd⟩
      have hk' := hcolumns k (mem_activeColumns.2 hk.2)
      simpa [hk.1] using hk'

/-! ### Cells after an operation -/

theorem cell_swapRows (s : EquationSystem R C ℝ) (i j r : Fin R) (c : Fin C) :
    (s.swapRows i j).cell r c = s.cell (Equiv.swap i j r) c := by
  show s.cells.entry ((s.swapRows i j).rowOrder.get r) _ = _
  rw [rowOrder_swapRows]
  rfl

theorem cell_swapColumns {α : Type} (s : EquationSystem R C α) (r : Fin R) (c d e : Fin C) :
    (s.swapColumns c d).cell r e = s.cell r (Equiv.swap c d e) := by
  show s.cells.entry _ ((s.swapColumns c d).columnOrder.get e) = _
  rw [columnOrder_swapColumns]
  rfl

theorem cell_eliminateColumn (hs : s.Permuted) (hbefore : ∀ d < c, s.cell i d = 0)
    (hc : c.val < s.columns) {others : List (Fin R)} (hnodup : others.Nodup) (hi : i ∉ others)
    (hsharp : s.SharpColumn i c others) (r : Fin R) (hd : d.val < s.columns) :
    (s.eliminateColumn i c others).cell r d = if r = i then s.cell i d / s.cell i c
      else if r ∈ others then s.cell r d - s.cell r c * (s.cell i d / s.cell i c)
      else s.cell r d := by
  rw [(s.sameLayout_eliminateColumn i c others).cell_eq hd,
    equation_eliminateColumn hs hbefore hc hnodup hi hsharp]
  have hcell : ∀ q, (s.equation q).1 (s.columnOrder.get d) = s.cell q d := fun q =>
    equation_columnOrder s q hd
  split
  · show (s.cell i c)⁻¹ * (s.equation i).1 (s.columnOrder.get d) = _
    rw [hcell, div_eq_inv_mul]
  · split
    · show (s.equation r).1 (s.columnOrder.get d)
        - s.cell r c * ((s.cell i c)⁻¹ * (s.equation i).1 (s.columnOrder.get d)) = _
      rw [hcell, hcell, div_eq_inv_mul]
    · exact hcell r

/-! ### The way down -/

/-- The columns before a position have a one on the diagonal and zeros below it. -/
def Settled (s : EquationSystem R C ℝ) (i : ℕ) : Prop :=
  ∀ (r : Fin R) (c : Fin C), r.val < s.rows → c.val < s.columns → c.val < i → c.val ≤ r.val →
    s.cell r c = if r.val = c.val then 1 else 0

namespace Settled

/-- A row vanishes in the settled columns before its own. -/
theorem eq_zero (h : s.Settled i.val) (hi : i.val < s.rows) (hd : d.val < s.columns)
    (hlt : d.val < i.val) : s.cell i d = 0 := by
  rw [h i d hi hd hlt hlt.le, if_neg hlt.ne']

/-- Exchanges behind the settled columns leave them settled. -/
theorem bringPivot (h : s.Settled i.val) (hi : i.val < s.rows) (hci : c.val = i.val)
    (ht : s.bringPivot? i c = some t) :
    t.Settled i.val ∧ t.cell i c ≠ 0 := by
  obtain ⟨r, hir, hr, rfl, hcell⟩ | ⟨k, hck, hk, rfl, hcell⟩ := bringPivot?_cases ht
  · refine ⟨fun q d hq hd hlt hle => ?_, by rwa [cell_swapRows, Equiv.swap_apply_left]⟩
    rw [cell_swapRows, Equiv.swap_apply_def]
    -- Both rows that are exchanged vanish in the settled columns.
    split
    · rename_i hqi
      rw [h r d hr hd hlt (hlt.le.trans hir), if_neg (hlt.trans_le hir).ne', hqi,
        if_neg hlt.ne']
    · split
      · rename_i hqr
        rw [h.eq_zero hi hd hlt, hqr, if_neg (hlt.trans_le hir).ne']
      · exact h q d hq hd hlt hle
  · refine ⟨fun q d hq hd hlt hle => ?_, by rwa [cell_swapColumns, Equiv.swap_apply_left]⟩
    have hdc : d ≠ c := fun heq => by
      rw [heq, hci] at hlt
      exact lt_irrefl _ hlt
    have hdk : d ≠ k := fun heq => by
      rw [heq, ← hci] at hlt
      exact hlt.asymm hck
    rw [cell_swapColumns, Equiv.swap_apply_of_ne_of_ne hdc hdk]
    exact h q d hq hd hlt hle

/-- **Elimination below settles one column more.** -/
theorem eliminateColumn (h : s.Settled i.val) (hs : s.Permuted) (hi : i.val < s.rows)
    (hci : c.val = i.val) (hc : c.val < s.columns) (hpivot : s.cell i c ≠ 0)
    (hsharp : s.SharpColumn i c (s.activeRows.filter (i < ·))) :
    s.Equivalent (s.eliminateColumn i c (s.activeRows.filter (i < ·))) ∧
      (s.eliminateColumn i c (s.activeRows.filter (i < ·))).Settled (i.val + 1) := by
  have hbefore : ∀ d < c, s.cell i d = 0 := fun d hd =>
    h.eq_zero hi ((Fin.lt_def.1 hd).trans hc) (hci ▸ Fin.lt_def.1 hd)
  have hnodup : (s.activeRows.filter (i < ·)).Nodup :=
    ((List.nodup_finRange R).filter _).filter _
  have hothers : ∀ r : Fin R, r ∈ s.activeRows.filter (i < ·) ↔ r.val < s.rows ∧ i < r := by
    intro r
    rw [List.mem_filter, mem_activeRows, decide_eq_true_eq]
  have hnot : i ∉ s.activeRows.filter (i < ·) := fun hmem =>
    lt_irrefl _ ((hothers i).1 hmem).2
  refine ⟨equivalent_eliminateColumn hs hbefore hpivot hi hc hnodup hnot hsharp, ?_⟩
  intro r d hr hd hlt hle
  have hlayout := s.sameLayout_eliminateColumn i c (s.activeRows.filter (i < ·))
  rw [hlayout.rows] at hr
  rw [hlayout.columns] at hd
  rw [cell_eliminateColumn hs hbefore hc hnodup hnot hsharp r hd]
  obtain hdi | hdi := Nat.lt_succ_iff_lt_or_eq.1 hlt
  · -- An earlier column: the pivot row vanishes there.
    rw [h.eq_zero hi hd hdi, zero_div, mul_zero, sub_zero, ite_self]
    split
    · rename_i hri
      rw [hri, if_neg hdi.ne']
    · exact h r d hr hd hdi hle
  · obtain rfl : d = c := Fin.ext (hdi.trans hci.symm)
    rw [div_self hpivot, mul_one, sub_self]
    obtain heq | hne := eq_or_ne r i
    · rw [if_pos heq, heq, if_pos hci.symm]
    · have hir : i < r := lt_of_le_of_ne (Fin.le_def.2 (hci ▸ hle)) hne.symm
      rw [if_neg hne, if_pos ((hothers r).2 ⟨hr, hir⟩), if_neg]
      rw [hci]
      exact fun heq => hne (Fin.ext heq)

end Settled

theorem equivalent_bringPivot? (hs : s.Permuted) (hi : i.val < s.rows) (hc : c.val < s.columns)
    (h : s.bringPivot? i c = some t) : s.Equivalent t := by
  obtain ⟨r, -, hr, rfl, -⟩ | ⟨k, -, hk, rfl, -⟩ := bringPivot?_cases h
  · exact equivalent_swapRows hs hi hr
  · exact equivalent_swapColumns hs hc hk

/-- A row without entries depends on the others. -/
theorem not_independentEquations (hr : r.val < s.rows)
    (hcells : ∀ c : Fin C, c.val < s.columns → s.cell r c = 0) : ¬s.IndependentEquations := by
  intro hindependent
  exact LinearIndependent.ne_zero (⟨r.val, hr⟩ : Fin s.rows) hindependent
    (equation_fst_eq_zero hcells)

/-- **The way down**: every row finds a pivot and all columns of their numbers are settled, or the
rows depend on each other.  The induction is on the rows that are left. -/
theorem eliminateDown_cases {is : List (Fin R)} {flag : Bool} (hs : s.Permuted)
    (hsharp : s.SharpDown is) {i : ℕ} (his : is.map Fin.val = List.range' i is.length)
    (hrows : i + is.length = s.rows) (hsettled : s.Settled i)
    (h : s.eliminateDown is = (t, flag)) :
    s.Equivalent t ∧ (flag = true → t.Settled s.rows) ∧
      (flag = false → ¬t.IndependentEquations) := by
  induction is generalizing s i with
  | nil =>
    obtain ⟨rfl, rfl⟩ := Prod.mk.inj h
    refine ⟨.refl hs, fun _ => ?_, fun hfalse => absurd hfalse (by simp)⟩
    rwa [← hrows]
  | cons j is ih =>
    rw [List.map_cons, List.length_cons, List.range'_succ] at his
    obtain ⟨rfl, his⟩ := List.cons.inj his
    rw [List.length_cons] at hrows
    have hj : j.val < s.rows := by omega
    unfold eliminateDown at h
    unfold SharpDown at hsharp
    split at h
    · rename_i hlt
      obtain ⟨hpivot, hsharp⟩ := hsharp hlt
      obtain ⟨c, hc⟩ : ∃ c, c = Fin.castLE s.columns_le ⟨j.val, hlt⟩ := ⟨_, rfl⟩
      have hcj : c.val = j.val := congrArg Fin.val hc
      have hcolumn : c.val < s.columns := hcj ▸ hlt
      rw [← hc] at hpivot hsharp
      dsimp only at h
      rw [← hc] at h
      split at h
      · rename_i hnone
        obtain ⟨rfl, rfl⟩ := Prod.mk.inj h
        refine ⟨.refl hs, fun htrue => absurd htrue (by simp), fun _ => ?_⟩
        refine not_independentEquations hj fun d hd => ?_
        obtain hdj | hjd := lt_or_ge d.val j.val
        · exact hsettled.eq_zero hj hd hdj
        · exact eq_zero_of_bringPivot? hpivot hnone hj hd (Fin.le_def.2 (hcj ▸ hjd))
      · rename_i u hu
        obtain ⟨hsharp, hrest⟩ := hsharp u hu
        have hexchanged := equivalent_bringPivot? hs hj hcolumn hu
        obtain ⟨husettled, hupivot⟩ := hsettled.bringPivot hj hcj hu
        obtain ⟨heliminated, hnext⟩ := husettled.eliminateColumn hexchanged.permuted
          (hexchanged.rows ▸ hj) hcj (hexchanged.columns ▸ hcolumn) hupivot hsharp
        have hstep := hexchanged.trans heliminated
        obtain ⟨hrun, htrue, hfalse⟩ := ih hstep.permuted hrest his
          (by rw [hstep.rows]; omega) hnext h
        rw [hstep.rows] at htrue
        exact ⟨hstep.trans hrun, htrue, hfalse⟩
    · rename_i hlt
      obtain ⟨rfl, rfl⟩ := Prod.mk.inj h
      refine ⟨.refl hs, fun htrue => absurd htrue (by simp), fun _ => ?_⟩
      exact not_independentEquations hj fun d hd =>
        hsettled.eq_zero hj hd (hd.trans_le (not_lt.1 hlt))

/-! ### The way up -/

/-- In the leading columns there is a one on the diagonal and zeros below it, and from a position on
zeros above it too. -/
def Cleared (s : EquationSystem R C ℝ) (i : ℕ) : Prop :=
  ∀ (r : Fin R) (c : Fin C), r.val < s.rows → c.val < s.rows → c.val ≤ r.val ∨ i ≤ c.val →
    s.cell r c = if r.val = c.val then 1 else 0

/-- At the end of the way down the leading columns are cleared below the diagonal. -/
theorem Settled.cleared (h : s.Settled s.rows) (hle : s.rows ≤ s.columns) : s.Cleared s.rows :=
  fun r c hr hc hcr => h r c hr (hc.trans_le hle) hc (hcr.resolve_right (not_le.2 hc))

namespace Cleared

/-- **Elimination above clears one column more.** -/
theorem eliminateUp (h : s.Cleared (i.val + 1)) (hs : s.Permuted) (hi : i.val < s.rows)
    (hle : s.rows ≤ s.columns)
    (hsharp : ∀ h : i.val < C, s.SharpColumn i ⟨i.val, h⟩ ((List.finRange R).filter (· < i))) :
    s.Equivalent (s.eliminateUp i) ∧ (s.eliminateUp i).Cleared i.val := by
  have hcolumn : i.val < s.columns := hi.trans_le hle
  obtain ⟨c, hc⟩ : ∃ c : Fin C, c = ⟨i.val, hcolumn.trans_le s.columns_le⟩ := ⟨_, rfl⟩
  have hci : c.val = i.val := congrArg Fin.val hc
  have hup : s.eliminateUp i = s.eliminateColumn i c ((List.finRange R).filter (· < i)) := by
    unfold EquationSystem.eliminateUp
    rw [dif_pos (hcolumn.trans_le s.columns_le), hc]
  have hsharp := hc ▸ hsharp (hcolumn.trans_le s.columns_le)
  have hactive : c.val < s.columns := hci ▸ hcolumn
  -- The pivot row has its one on the diagonal, and zeros in all other leading columns.
  have hrow : ∀ d : Fin C, d.val < s.rows → s.cell i d = if i.val = d.val then 1 else 0 :=
    fun d hd => h i d hi hd (le_or_gt d.val i.val)
  have hbefore : ∀ d < c, s.cell i d = 0 := fun d hd => by
    have hd : d.val < i.val := hci ▸ Fin.lt_def.1 hd
    rw [hrow d (hd.trans hi), if_neg hd.ne']
  have hpivot : s.cell i c = 1 := by
    rw [hrow c (hci ▸ hi), if_pos hci.symm]
  have hnodup : ((List.finRange R).filter (· < i)).Nodup := (List.nodup_finRange R).filter _
  have hothers : ∀ r : Fin R, r ∈ (List.finRange R).filter (· < i) ↔ r < i := by
    intro r
    simp
  have hnot : i ∉ (List.finRange R).filter (· < i) := fun hmem => lt_irrefl _ ((hothers i).1 hmem)
  rw [hup]
  refine ⟨equivalent_eliminateColumn hs hbefore (hpivot ▸ one_ne_zero) hi hactive hnodup hnot
    hsharp, ?_⟩
  intro r d hr hd hrd
  have hlayout := s.sameLayout_eliminateColumn i c ((List.finRange R).filter (· < i))
  rw [hlayout.rows] at hr hd
  rw [cell_eliminateColumn hs hbefore hactive hnodup hnot hsharp r (hd.trans_le hle), hpivot,
    div_one, hrow d hd]
  obtain hri | heq | hir := lt_trichotomy r i
  · rw [if_neg hri.ne, if_pos ((hothers r).2 hri)]
    obtain hdi | hdi := eq_or_ne i.val d.val
    · obtain rfl : d = c := Fin.ext (hdi.symm.trans hci.symm)
      rw [if_pos hdi, mul_one, sub_self, if_neg (hdi ▸ Fin.lt_def.1 hri).ne]
    · rw [if_neg hdi, mul_zero, sub_zero]
      exact h r d hr hd (hrd.imp_right fun hle => Nat.succ_le_of_lt (lt_of_le_of_ne hle hdi))
  · rw [if_pos heq, heq]
  · rw [if_neg hir.ne', if_neg fun hmem => hir.asymm ((hothers r).1 hmem)]
    refine h r d hr hd ?_
    obtain hdr | hid := hrd
    · exact .inl hdr
    · obtain hid | hid := hid.eq_or_lt
      · exact .inl (hid ▸ hir.le)
      · exact .inr hid

/-- **The way up** clears all columns.  The induction is on the rows that are left. -/
theorem foldl {is : List (Fin R)} (h : s.Cleared is.length) (hs : s.Permuted)
    (hle : s.rows ≤ s.columns) (hlength : is.length ≤ s.rows)
    (his : is.map Fin.val = (List.range is.length).reverse) (hsharp : s.SharpUp is) :
    s.Equivalent (is.foldl EquationSystem.eliminateUp s) ∧
      (is.foldl EquationSystem.eliminateUp s).Cleared 0 := by
  induction is generalizing s with
  | nil => exact ⟨.refl hs, h⟩
  | cons i is ih =>
    rw [List.map_cons, List.length_cons, List.range_succ, List.reverse_append,
      List.reverse_singleton, List.singleton_append] at his
    obtain ⟨hi, his⟩ := List.cons.inj his
    rw [List.length_cons] at h hlength
    rw [← hi] at h
    obtain ⟨hstep, hcleared⟩ := h.eliminateUp hs (by omega) hle hsharp.1
    obtain ⟨hrun, hend⟩ := ih (hi ▸ hcleared) hstep.permuted
      (by rw [hstep.rows, hstep.columns]; exact hle) (by rw [hstep.rows]; omega) his hsharp.2
    exact ⟨hstep.trans hrun, hend⟩

/-- **Rows with an identity in front are independent.** -/
theorem independentEquations (h : s.Cleared 0) (hle : s.rows ≤ s.columns) :
    s.IndependentEquations := by
  rw [independentEquations_iff, Fintype.linearIndependent_iff]
  intro g hg r
  have hcolumn := congrFun hg (r.castLE hle)
  rw [Finset.sum_apply] at hcolumn
  calc g r = ∑ q, g q * if q = r then 1 else 0 := by simp
    _ = ∑ q, (g q • s.activeCells.entry q) (r.castLE hle) := by
        refine Finset.sum_congr rfl fun q _ => ?_
        rw [Pi.smul_apply, entry_activeCells, h _ _ (by exact q.isLt) (by exact r.isLt)
          (.inr (Nat.zero_le _)), smul_eq_mul]
        exact congrArg _ (if_congr Fin.ext_iff rfl rfl)
    _ = 0 := hcolumn

end Cleared

/-! ### Both ways -/

/-- The active rows are the first ones, in order. -/
theorem map_val_activeRows (s : EquationSystem R C ℝ) :
    s.activeRows.map Fin.val = List.range s.rows := by
  have hfilter : s.activeRows.map Fin.val = (List.range R).filter (· < s.rows) := by
    unfold activeRows
    rw [← List.map_coe_finRange_eq_range, List.filter_map]
    rfl
  rw [hfilter]
  have hperm : ((List.range R).filter (· < s.rows)).Perm (List.range s.rows) := by
    refine (List.perm_ext_iff_of_nodup (List.nodup_range.filter _) List.nodup_range).2 fun k => ?_
    have hle := s.rows_le
    simp only [List.mem_filter, List.mem_range, decide_eq_true_eq]
    omega
  exact hperm.eq_of_pairwise (fun a b _ _ (hab : a < b) hba => absurd hba hab.asymm)
    (List.pairwise_lt_range.filter _) List.pairwise_lt_range

/-- **Elimination down and up again**: a system with an identity in front, or rows that depend on
each other. -/
theorem gaussJordan_cases (hs : s.Permuted) (hsharp : s.SharpJordan) :
    s.Equivalent s.gaussJordan.1 ∧
      (s.gaussJordan.2 = true → s.rows ≤ s.columns ∧ s.gaussJordan.1.Cleared 0) ∧
      (s.gaussJordan.2 = false → ¬s.gaussJordan.1.IndependentEquations) := by
  have hlength : s.activeRows.length = s.rows := by
    rw [← List.length_map Fin.val, map_val_activeRows, List.length_range]
  generalize hdown : s.gaussianElimination = down
  obtain ⟨t, flag⟩ := down
  obtain ⟨hequivalent, htrue, hfalse⟩ := eliminateDown_cases (i := 0) hs hsharp.down
    (by rw [map_val_activeRows, hlength, List.range_eq_range']) (by rw [hlength, zero_add])
    (fun _ _ _ _ hlt => absurd hlt (Nat.not_lt_zero _)) hdown
  unfold gaussJordan
  rw [hdown]
  cases flag with
  | false => exact ⟨hequivalent, fun htrue => absurd htrue (by simp), fun _ => hfalse rfl⟩
  | true =>
    have hle : s.rows ≤ s.columns := by
      obtain ⟨-, hlt⟩ := lt_of_eliminateDown hdown
      by_contra hgt
      rw [not_le] at hgt
      have hmem : (⟨s.columns, hgt.trans_le s.rows_le⟩ : Fin R) ∈ s.activeRows :=
        mem_activeRows.2 hgt
      exact lt_irrefl _ (hlt _ hmem)
    have htle : t.rows ≤ t.columns := by rwa [hequivalent.rows, hequivalent.columns]
    have htlength : t.activeRows.reverse.length = t.rows := by
      rw [List.length_reverse, ← List.length_map Fin.val, map_val_activeRows, List.length_range]
    have hsettled : t.Settled t.rows := hequivalent.rows ▸ htrue rfl
    obtain ⟨hup, hcleared⟩ := Cleared.foldl (htlength ▸ hsettled.cleared htle)
      hequivalent.permuted htle htlength.le
      (by rw [List.map_reverse, map_val_activeRows, htlength]) (hsharp.up t hdown)
    exact ⟨hequivalent.trans hup, fun _ => ⟨hle, hcleared⟩, fun hfalse => absurd hfalse (by simp)⟩

/-! ### The basic solution -/

section BasicSolution

variable {α : Type} {s : EquationSystem R C α} {length : ℕ} {k : Fin length}

/-- One unknown while the basic solution is written: it takes the right side of its row. -/
theorem get_foldl_basic (hs : s.Permuted) (hk : (s.columnOrder.get c).val = k.val) {b : α}
    {is : List (Fin R)} (hb : ∀ i ∈ is, i.val = c.val → s.rhs.get i = b) (v : Vector α length) :
    (is.foldl (fun solution i =>
      if h : i.val < C then
        solution.setIfInBounds (s.columnOrder.get ⟨i.val, h⟩).val (s.rhs.get i)
      else solution) v).get k = if ∃ i ∈ is, i.val = c.val then b else v.get k := by
  induction is generalizing v with
  | nil => simp
  | cons i is ih =>
    rw [List.foldl_cons, ih fun j hj => hb j (List.mem_cons_of_mem _ hj)]
    by_cases hrest : ∃ j ∈ is, j.val = c.val
    · obtain ⟨j, hj, hjc⟩ := hrest
      rw [if_pos ⟨j, hj, hjc⟩, if_pos ⟨j, List.mem_cons_of_mem _ hj, hjc⟩]
    · rw [if_neg hrest]
      by_cases hic : i.val = c.val
      · rw [if_pos ⟨i, List.mem_cons_self, hic⟩, dif_pos (hic ▸ c.isLt),
          hb i List.mem_cons_self hic]
        have hcolumn : (⟨i.val, hic ▸ c.isLt⟩ : Fin C) = c := Fin.ext hic
        rw [hcolumn, hk, Dense.get_eq_getElem, Vector.getElem_setIfInBounds, if_pos rfl]
      · have hne : ¬∃ j ∈ i :: is, j.val = c.val := by
          rintro ⟨j, hj, hjc⟩
          obtain rfl | hj := List.mem_cons.1 hj
          · exact hic hjc
          · exact hrest ⟨j, hj, hjc⟩
        rw [if_neg hne]
        split
        · rename_i hi
          rw [Dense.get_eq_getElem, Vector.getElem_setIfInBounds, if_neg]
          · rfl
          · rw [← hk]
            exact fun heq => hic (congrArg Fin.val (hs.columns (Fin.ext heq)))
        · rfl

/-- **The basic solution**: a pivot column takes the right side of its row, and every other one is
zero. -/
theorem get_basicSolution [Scalar α] (hs : s.Permuted)
    (hk : (s.columnOrder.get c).val = k.val) : (s.basicSolution length).get k =
      if h : c.val < s.rows ∧ c.val < s.columns then s.rhs.get ⟨c.val, h.1.trans_le s.rows_le⟩
      else 0 := by
  unfold basicSolution
  split
  · rename_i hc
    have hmem : ∃ i ∈ (List.finRange R).filter (·.val < min s.rows s.columns), i.val = c.val :=
      ⟨⟨c.val, hc.1.trans_le s.rows_le⟩, by simpa using hc, rfl⟩
    rw [get_foldl_basic hs hk (b := s.rhs.get ⟨c.val, hc.1.trans_le s.rows_le⟩)
      (fun i _ hi => congrArg s.rhs.get (Fin.ext hi)), if_pos hmem]
  · rename_i hc
    have hnone : ¬∃ i ∈ (List.finRange R).filter (·.val < min s.rows s.columns),
        i.val = c.val := by
      rintro ⟨i, hi, hic⟩
      have hlt := (List.mem_filter.1 hi).2
      rw [decide_eq_true_eq, Nat.lt_min] at hlt
      exact hc (hic ▸ hlt)
    rw [get_foldl_basic hs hk (b := 0) (fun i hi hic => absurd ⟨i, hi, hic⟩ hnone), if_neg hnone]
    simp [Dense.get_eq_getElem]

/-- An entry that is not that of a pivot column is zero, be there such a column or not. -/
theorem get_basicSolution_of_ne [Scalar α] (h : ∀ d : Fin C, d.val < s.rows → d.val < s.columns →
    (s.columnOrder.get d).val ≠ k.val) : (s.basicSolution length).get k = 0 := by
  unfold basicSolution
  refine List.foldlRecOn (motive := fun v : Vector α length => v.get k = 0) _ _
    (by simp [Dense.get_eq_getElem]) fun v hv i hi => ?_
  obtain ⟨hrow, hcolumn⟩ : i.val < s.rows ∧ i.val < s.columns := by
    simpa using (List.mem_filter.1 hi).2
  rw [dif_pos (hcolumn.trans_le s.columns_le), Dense.get_eq_getElem, Vector.getElem_setIfInBounds,
    if_neg (h ⟨i.val, _⟩ hrow hcolumn)]
  exact hv

end BasicSolution

/-- **The basic solution solves a system with an identity in front.** -/
theorem Cleared.isSolution_basicSolution (h : s.Cleared 0) (hs : s.Permuted)
    (hle : s.rows ≤ s.columns) : s.IsSolution (s.basicSolution C).get := by
  intro r
  rw [Fintype.sum_eq_single (r.castLE hle)]
  · rw [entry_activeCells, h _ _ (by exact r.isLt) (by exact r.isLt) (.inr (Nat.zero_le _)),
      get_basicSolution hs (c := (r.castLE hle).castLE s.columns_le) rfl,
      dif_pos ⟨r.isLt, (r.castLE hle).isLt⟩, if_pos (by rfl), one_mul]
    rfl
  · intro c hne
    rw [get_basicSolution hs (c := c.castLE s.columns_le) rfl, entry_activeCells]
    split
    · rename_i hc
      rw [h _ _ (by exact r.isLt) (by exact hc.1) (.inr (Nat.zero_le _)), if_neg, zero_mul]
      exact fun heq => hne (Fin.ext heq.symm)
    · rw [mul_zero]

end EquationSystem

end ElasticLayout
