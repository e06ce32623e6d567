import Mathlib
import ElasticLayout.EquationSystem
import ElasticLayout.Proofs.CheckedStart
import ElasticLayout.Proofs.SharpRank

/-!
# Row operations on equation systems

A system is read through its equations: the coefficients by unknown, zero for the unknowns of
inactive columns, with the right side.  An exchange of columns does not change an equation, an
exchange of rows permutes them, and elimination of a column takes multiples of one equation from
others.  So the active equations span the same space, have the same solutions and are independent
or not as they were before.

* `EquationSystem.Permuted`, `EquationSystem.SameLayout` -- the orders are permutations, and
  elimination keeps them;
* `EquationSystem.equation`, `EquationSystem.equationSpan` -- the view;
* `equation_normalize`, `equation_eliminateRow`, `equation_eliminateColumn` -- elimination;
* `EquationSystem.IsSolution`, `EquationSystem.IndependentEquations` -- what is kept;
* `EquationSystem.Equivalent` -- two systems with the same span, and what follows from it.
-/

namespace ElasticLayout

open Linear Matrix

variable {R C : ℕ}

namespace Linear

theorem get_swap {β : Type} {n : ℕ} (v : Vector β n) (i j k : Fin n) :
    (v.swap i.val j.val i.isLt j.isLt).get k = v.get (Equiv.swap i j k) := by
  simp only [Dense.get_eq_getElem, Vector.getElem_swap, Equiv.swap_apply_def, ← Fin.ext_iff]
  split
  · rfl
  · split
    · rfl
    · rfl

theorem get_set {β : Type} {n : ℕ} (v : Vector β n) (i k : Fin n) (b : β) :
    (v.set i.val b i.isLt).get k = Function.update v.get i b k := by
  simp only [Dense.get_eq_getElem, Vector.getElem_set, Function.update_apply, Fin.ext_iff, eq_comm]

/-- An exchange of positions before a bound keeps the positions before it. -/
theorem swap_lt {n bound : ℕ} {i j k : Fin n} (hi : i.val < bound) (hj : j.val < bound)
    (hk : k.val < bound) : (Equiv.swap i j k).val < bound := by
  rw [Equiv.swap_apply_def]
  split
  · exact hj
  · split
    · exact hi
    · exact hk

end Linear

namespace EquationSystem

/-! ### Orders that are permutations -/

section Permuted

variable {α : Type} {s : EquationSystem R C α}

/-- The orders name every row and every unknown once. -/
structure Permuted (s : EquationSystem R C α) : Prop where
  rows : Function.Injective s.rowOrder.get
  columns : Function.Injective s.columnOrder.get

theorem permuted_ofCells (cells : Dense R C α) (rhs : Vector α R) :
    (ofCells cells rhs).Permuted := by
  constructor
  · intro i j h
    simpa [ofCells, Dense.get_eq_getElem] using h
  · intro i j h
    simpa [ofCells, Dense.get_eq_getElem] using h

theorem rowOrder_swapRows (s : EquationSystem R C α) (i j : Fin R) :
    (s.swapRows i j).rowOrder.get = s.rowOrder.get ∘ Equiv.swap i j :=
  funext (get_swap s.rowOrder i j)

theorem columnOrder_swapColumns (s : EquationSystem R C α) (i j : Fin C) :
    (s.swapColumns i j).columnOrder.get = s.columnOrder.get ∘ Equiv.swap i j :=
  funext (get_swap s.columnOrder i j)

theorem Permuted.swapRows (hs : s.Permuted) (i j : Fin R) : (s.swapRows i j).Permuted := by
  refine ⟨?_, hs.columns⟩
  rw [rowOrder_swapRows]
  exact hs.rows.comp (Equiv.swap i j).injective

theorem Permuted.swapColumns (hs : s.Permuted) (i j : Fin C) : (s.swapColumns i j).Permuted := by
  refine ⟨hs.rows, ?_⟩
  rw [columnOrder_swapColumns]
  exact hs.columns.comp (Equiv.swap i j).injective

end Permuted

/-- Two systems of the same shape have their rows and columns in the same order. -/
structure SameLayout {α : Type} (s t : EquationSystem R C α) : Prop extends SameShape s t where
  rowOrder : t.rowOrder = s.rowOrder
  columnOrder : t.columnOrder = s.columnOrder

namespace SameLayout

variable {α : Type} {s t u : EquationSystem R C α}

theorem refl (s : EquationSystem R C α) : s.SameLayout s := ⟨.refl s, rfl, rfl⟩

theorem trans (h : s.SameLayout t) (h' : t.SameLayout u) : s.SameLayout u :=
  ⟨h.toSameShape.trans h'.toSameShape, h'.rowOrder.trans h.rowOrder,
    h'.columnOrder.trans h.columnOrder⟩

theorem permuted (h : s.SameLayout t) (hs : s.Permuted) : t.Permuted :=
  ⟨h.rowOrder ▸ hs.rows, h.columnOrder ▸ hs.columns⟩

end SameLayout

section Layout

variable {α : Type} [Scalar α]

theorem sameLayout_normalize (s : EquationSystem R C α) (i : Fin R) (c : Fin C) :
    s.SameLayout (s.normalize i c) := by
  refine ⟨s.sameShape_normalize i c, ?_, ?_⟩
  all_goals
    unfold normalize
    dsimp only
    split <;> rfl

theorem sameLayout_eliminateRow (s : EquationSystem R C α) (i : Fin R) (c : Fin C) (r : Fin R) :
    s.SameLayout (eliminateRow i c s r) := by
  refine ⟨s.sameShape_eliminateRow i c r, ?_, ?_⟩
  all_goals
    unfold eliminateRow
    dsimp only
    split <;> rfl

theorem sameLayout_eliminateColumn (s : EquationSystem R C α) (i : Fin R) (c : Fin C)
    (others : List (Fin R)) : s.SameLayout (s.eliminateColumn i c others) :=
  List.foldlRecOn (motive := fun t => s.SameLayout t) others _ (s.sameLayout_normalize i c)
    fun t ht r _ => ht.trans (t.sameLayout_eliminateRow i c r)

end Layout

/-! ### Equations by unknown -/

variable {s t u : EquationSystem R C ℝ} {i r : Fin R} {c d : Fin C}

theorem entry_activeCells {α : Type} (s : EquationSystem R C α) (r : Fin s.rows)
    (c : Fin s.columns) :
    s.activeCells.entry r c = s.cell (r.castLE s.rows_le) (c.castLE s.columns_le) := by
  unfold activeCells
  rw [Dense.entry_ofFn]

/-- The unknowns of the active columns. -/
def unknowns (s : EquationSystem R C ℝ) : Set (Fin C) :=
  {k | ∃ c : Fin C, c.val < s.columns ∧ s.columnOrder.get c = k}

/-- The equation at a position: its coefficients by unknown, and its right side. -/
noncomputable def equation (s : EquationSystem R C ℝ) (r : Fin R) : (Fin C → ℝ) × ℝ :=
  (s.unknowns.indicator (s.cells.entry (s.rowOrder.get r)), s.rhs.get r)

theorem equation_columnOrder (s : EquationSystem R C ℝ) (r : Fin R) (hc : c.val < s.columns) :
    (s.equation r).1 (s.columnOrder.get c) = s.cell r c :=
  Set.indicator_of_mem (show _ ∈ s.unknowns from ⟨c, hc, rfl⟩) _

/-- An equation whose cells are all zero has no coefficients. -/
theorem equation_fst_eq_zero (hcells : ∀ c : Fin C, c.val < s.columns → s.cell r c = 0) :
    (s.equation r).1 = 0 := by
  funext k
  by_cases hk : k ∈ s.unknowns
  · obtain ⟨c, hc, rfl⟩ := hk
    rw [equation_columnOrder s r hc, hcells c hc]
    rfl
  · exact Set.indicator_of_notMem hk _

theorem SameLayout.unknowns_eq (h : s.SameLayout t) : t.unknowns = s.unknowns := by
  unfold unknowns
  rw [h.columns, h.columnOrder]

/-- Cells are read off the equations. -/
theorem SameLayout.cell_eq (h : s.SameLayout t) (hc : c.val < s.columns) :
    t.cell r c = (t.equation r).1 (s.columnOrder.get c) := by
  rw [← h.columnOrder]
  exact (equation_columnOrder t r (h.columns ▸ hc)).symm

theorem equation_swapRows (s : EquationSystem R C ℝ) (i j r : Fin R) :
    (s.swapRows i j).equation r = s.equation (Equiv.swap i j r) := by
  refine Prod.ext ?_ (get_swap s.rhs i j r)
  show s.unknowns.indicator (s.cells.entry ((s.swapRows i j).rowOrder.get r)) = _
  rw [rowOrder_swapRows]
  rfl

/-- An exchange of active columns keeps the active unknowns. -/
theorem unknowns_swapColumns (hc : c.val < s.columns) (hd : d.val < s.columns) :
    (s.swapColumns c d).unknowns = s.unknowns := by
  ext k
  constructor
  · rintro ⟨e, he, rfl⟩
    exact ⟨_, swap_lt hc hd he, (congrFun (columnOrder_swapColumns s c d) e).symm⟩
  · rintro ⟨e, he, rfl⟩
    refine ⟨_, swap_lt hc hd he, ?_⟩
    rw [columnOrder_swapColumns, Function.comp_apply, Equiv.swap_apply_self]

theorem equation_swapColumns (hc : c.val < s.columns) (hd : d.val < s.columns) (r : Fin R) :
    (s.swapColumns c d).equation r = s.equation r := by
  unfold equation
  rw [unknowns_swapColumns hc hd]
  rfl

/-! ### Elimination -/

theorem mem_liveFrom {k : Fin C} :
    k ∈ s.liveFrom c ↔ ∃ d : Fin C, c ≤ d ∧ d.val < s.columns ∧ s.columnOrder.get d = k := by
  unfold liveFrom activeColumns
  simp only [List.mem_map, List.mem_filter, List.mem_finRange, true_and, decide_eq_true_eq]
  exact exists_congr fun d => by rw [and_assoc, and_left_comm]

/-- Where a row vanishes before a column, it has coefficients only from that column on. -/
theorem entry_eq_zero_of_not_live (hbefore : ∀ d < c, s.cell i d = 0) {k : Fin C}
    (hk : k ∈ s.unknowns) (hlive : k ∉ s.liveFrom c) : s.cells.entry (s.rowOrder.get i) k = 0 := by
  obtain ⟨d, hd, rfl⟩ := hk
  refine hbefore d (lt_of_not_ge fun hcd => hlive ?_)
  exact mem_liveFrom.2 ⟨d, hcd, hd, rfl⟩

/-- Writing one row and its right side changes one equation. -/
theorem equation_write (hs : s.Permuted) (r : Fin R) (row : Vector ℝ C) (b : ℝ)
    {e : (Fin C → ℝ) × ℝ} (hrow : s.unknowns.indicator row.get = e.1) (hb : b = e.2) :
    equation { s with
      cells := s.cells.setRow (s.rowOrder.get r) row
      rhs := s.rhs.set r.val b r.isLt } = Function.update s.equation r e := by
  funext q
  by_cases hq : q = r
  · subst hq
    rw [Function.update_self]
    refine Prod.ext ?_ ?_
    · rw [← hrow]
      refine congrArg s.unknowns.indicator (funext fun k => ?_)
      show ((s.cells.setRow (s.rowOrder.get q) row).get (s.rowOrder.get q)).get k = _
      rw [Dense.get_setRow, if_pos rfl]
    · rw [← hb]
      exact (get_set s.rhs q q b).trans (Function.update_self ..)
  · rw [Function.update_of_ne hq]
    refine Prod.ext ?_ ?_
    · refine congrArg s.unknowns.indicator (funext fun k => ?_)
      show ((s.cells.setRow (s.rowOrder.get r) row).get (s.rowOrder.get q)).get k = _
      rw [Dense.get_setRow, if_neg fun heq => hq (hs.rows heq)]
      rfl
    · exact (get_set s.rhs r q b).trans (Function.update_of_ne hq ..)

/-- **Normalization scales the equation of the pivot row.** -/
theorem equation_normalize (hs : s.Permuted) (hbefore : ∀ d < c, s.cell i d = 0) :
    (s.normalize i c).equation
      = Function.update s.equation i ((s.cell i c)⁻¹ • s.equation i) := by
  unfold normalize
  dsimp only
  split
  · rename_i hone
    rw [Scalar.beq_iff.1 hone, inv_one, one_smul, Function.update_eq_self]
  · refine equation_write hs i _ _ (funext fun k => ?_) (div_eq_inv_mul _ _)
    by_cases hk : k ∈ s.unknowns
    · show _ = (s.cell i c)⁻¹ * s.unknowns.indicator _ k
      rw [Set.indicator_of_mem hk, Set.indicator_of_mem hk, get_ofFn]
      split
      · exact div_eq_inv_mul _ _
      · rename_i hlive
        have hzero := entry_eq_zero_of_not_live hbefore hk (by simpa using hlive)
        rw [show (s.cells.get (s.rowOrder.get i)).get k = 0 from hzero, hzero, mul_zero]
    · show _ = (s.cell i c)⁻¹ * s.unknowns.indicator _ k
      rw [Set.indicator_of_notMem hk, Set.indicator_of_notMem hk, mul_zero]

/-- **Elimination from one row takes a multiple of the pivot equation from its equation.** -/
theorem equation_eliminateRow (hs : s.Permuted) (hbefore : ∀ d < c, s.cell i d = 0) (hr : r ≠ i)
    (hsharp : Sharp (-s.cell r c)) : (eliminateRow i c s r).equation
      = Function.update s.equation r (s.equation r - s.cell r c • s.equation i) := by
  unfold eliminateRow
  dsimp only
  split
  · rename_i hskip
    rw [neg_eq_zero.1 (hsharp (hskip.resolve_left hr)), zero_smul, sub_zero,
      Function.update_eq_self]
  · refine equation_write hs r _ _ (funext fun k => ?_) ?_
    · show _ = s.unknowns.indicator _ k - s.cell r c * s.unknowns.indicator _ k
      by_cases hk : k ∈ s.unknowns
      · rw [Set.indicator_of_mem hk, Set.indicator_of_mem hk, Set.indicator_of_mem hk, get_ofFn]
        split
        · show s.cells.entry (s.rowOrder.get r) k + s.cells.entry (s.rowOrder.get i) k * _ = _
          ring
        · rename_i hlive
          rw [entry_eq_zero_of_not_live hbefore hk (by simpa using hlive), mul_zero, sub_zero]
          rfl
      · rw [Set.indicator_of_notMem hk, Set.indicator_of_notMem hk, Set.indicator_of_notMem hk,
          mul_zero, sub_zero]
    · show _ = s.rhs.get r - s.cell r c * s.rhs.get i
      ring

/-- Every entry that elimination of a column tests in the given rows is sharp. -/
def SharpRows (i : Fin R) (c : Fin C) : EquationSystem R C ℝ → List (Fin R) → Prop
  | _, [] => True
  | s, r :: rest => Sharp (-s.cell r c) ∧ SharpRows i c (eliminateRow i c s r) rest

theorem equation_foldl_eliminateRow (hs : s.Permuted) (hbefore : ∀ d < c, s.cell i d = 0)
    (hc : c.val < s.columns) {others : List (Fin R)} (hnodup : others.Nodup) (hi : i ∉ others)
    (hsharp : SharpRows i c s others) (r : Fin R) :
    (others.foldl (eliminateRow i c) s).equation r
      = if r ∈ others then s.equation r - s.cell r c • s.equation i else s.equation r := by
  induction others generalizing s with
  | nil => rw [if_neg List.not_mem_nil]; rfl
  | cons q others ih =>
    obtain ⟨hq, hnodup⟩ := List.nodup_cons.1 hnodup
    rw [List.mem_cons, not_or] at hi
    have hlayout := s.sameLayout_eliminateRow i c q
    have hupdate := equation_eliminateRow hs hbefore (Ne.symm hi.1) hsharp.1
    have hsame : ∀ r ≠ q, (eliminateRow i c s q).equation r = s.equation r := fun r hr => by
      rw [hupdate, Function.update_of_ne hr]
    have hcell : ∀ r ≠ q, ∀ d : Fin C, d.val < s.columns →
        (eliminateRow i c s q).cell r d = s.cell r d := fun r hr d hd => by
      rw [hlayout.cell_eq hd, hsame r hr, equation_columnOrder s r hd]
    rw [List.foldl_cons, ih (hlayout.permuted hs)
      (fun d hd => by rw [hcell i hi.1 d ((Fin.lt_def.1 hd).trans hc), hbefore d hd])
      (hlayout.columns ▸ hc) hnodup hi.2 hsharp.2]
    by_cases hrq : r = q
    · subst hrq
      rw [if_neg hq, if_pos List.mem_cons_self, hupdate, Function.update_self]
    · rw [hsame r hrq, hsame i hi.1, hcell r hrq c hc]
      exact if_congr (by rw [List.mem_cons, or_iff_right hrq]) rfl rfl

/-- Every entry that elimination of a column tests is sharp. -/
def SharpColumn (s : EquationSystem R C ℝ) (i : Fin R) (c : Fin C) (others : List (Fin R)) : Prop :=
  SharpRows i c (s.normalize i c) others

/-- **Elimination of a column**: the pivot equation is scaled, and the other equations lose their
multiple of it. -/
theorem equation_eliminateColumn (hs : s.Permuted) (hbefore : ∀ d < c, s.cell i d = 0)
    (hc : c.val < s.columns) {others : List (Fin R)} (hnodup : others.Nodup) (hi : i ∉ others)
    (hsharp : s.SharpColumn i c others) (r : Fin R) :
    (s.eliminateColumn i c others).equation r = if r = i then (s.cell i c)⁻¹ • s.equation i
      else if r ∈ others then s.equation r - s.cell r c • (s.cell i c)⁻¹ • s.equation i
      else s.equation r := by
  have hlayout := s.sameLayout_normalize i c
  have hupdate := equation_normalize hs hbefore
  have hbefore' : ∀ d < c, (s.normalize i c).cell i d = 0 := fun d hd => by
    have hd' : d.val < s.columns := (Fin.lt_def.1 hd).trans hc
    rw [hlayout.cell_eq hd', hupdate, Function.update_self]
    show (s.cell i c)⁻¹ * (s.equation i).1 (s.columnOrder.get d) = 0
    rw [equation_columnOrder s i hd', hbefore d hd, mul_zero]
  unfold eliminateColumn
  rw [equation_foldl_eliminateRow (hlayout.permuted hs) hbefore' (hlayout.columns ▸ hc) hnodup hi
    hsharp, hupdate, Function.update_self]
  by_cases hri : r = i
  · subst hri
    rw [if_neg hi, if_pos rfl, Function.update_self]
  · rw [if_neg hri, Function.update_of_ne hri, hlayout.cell_eq hc, hupdate,
      Function.update_of_ne hri, equation_columnOrder s r hc]

/-! ### What the equations span -/

/-- The combinations of the active equations. -/
noncomputable def equationSpan (s : EquationSystem R C ℝ) : Submodule ℝ ((Fin C → ℝ) × ℝ) :=
  .span ℝ (s.equation '' {r | r.val < s.rows})

theorem equation_mem_equationSpan (hr : r.val < s.rows) : s.equation r ∈ s.equationSpan :=
  Submodule.subset_span ⟨r, hr, rfl⟩

theorem equationSpan_le {V : Submodule ℝ ((Fin C → ℝ) × ℝ)}
    (h : ∀ r : Fin R, r.val < s.rows → s.equation r ∈ V) : s.equationSpan ≤ V := by
  refine Submodule.span_le.2 ?_
  rintro - ⟨r, hr, rfl⟩
  exact h r hr

/-- A vector over the unknowns solves all active equations; only the unknowns of active columns
matter. -/
def IsSolution (s : EquationSystem R C ℝ) (x : Fin C → ℝ) : Prop :=
  ∀ r : Fin s.rows, ∑ c : Fin s.columns, s.activeCells.entry r c
    * x (s.columnOrder.get (c.castLE s.columns_le)) = s.rhs.get (r.castLE s.rows_le)

/-- The value of an equation is a sum over the active columns. -/
theorem sum_equation (hs : s.Permuted) (r : Fin R) (x : Fin C → ℝ) :
    ∑ k, (s.equation r).1 k * x k
      = ∑ c : Fin s.columns, s.cell r (c.castLE s.columns_le)
        * x (s.columnOrder.get (c.castLE s.columns_le)) := by
  have hinjective : Function.Injective fun c : Fin s.columns =>
      s.columnOrder.get (c.castLE s.columns_le) :=
    hs.columns.comp (Fin.castLE_injective s.columns_le)
  refine (Fintype.sum_of_injective _ hinjective _ _ (fun k hk => ?_) fun c => ?_).symm
  · have hinactive : k ∉ s.unknowns := by
      rintro ⟨c, hc, rfl⟩
      exact hk ⟨⟨c.val, hc⟩, rfl⟩
    rw [show (s.equation r).1 k = 0 from Set.indicator_of_notMem hinactive _, zero_mul]
  · rw [equation_columnOrder s r (show (c.castLE s.columns_le).val < s.columns from c.isLt)]

theorem cell_ofCells (cells : Dense R C ℝ) (rhs : Vector ℝ R) (r : Fin R) (c : Fin C) :
    (ofCells cells rhs).cell r c = cells.entry r c := by
  simp [cell, ofCells, Dense.get_eq_getElem]

/-- The solutions of a system that is fully active and in order. -/
theorem isSolution_ofCells (cells : Dense R C ℝ) (rhs : Vector ℝ R) (x : Fin C → ℝ) :
    (ofCells cells rhs).IsSolution x ↔ ∀ r, ∑ c, cells.entry r c * x c = rhs.get r := by
  have hcolumn : ∀ c : Fin C, (ofCells cells rhs).columnOrder.get c = c := fun c => by
    simp [ofCells, Dense.get_eq_getElem]
  refine forall_congr' fun r => ?_
  simp only [entry_activeCells, cell_ofCells, hcolumn]
  rfl

/-- The active part sees a vector over the unknowns as its equations do. -/
theorem mulVec_activeCells (hs : s.Permuted) (x : Fin C → ℝ) (r : Fin s.rows) :
    (s.activeCells.matrix *ᵥ fun c => x (s.columnOrder.get (c.castLE s.columns_le))) r
      = ∑ k, (s.equation (r.castLE s.rows_le)).1 k * x k := by
  rw [sum_equation hs, Dense.matrix_mulVec]
  simp only [entry_activeCells]

theorem isSolution_iff_equation (hs : s.Permuted) (x : Fin C → ℝ) :
    s.IsSolution x ↔ ∀ r : Fin s.rows,
      ∑ k, (s.equation (r.castLE s.rows_le)).1 k * x k = (s.equation (r.castLE s.rows_le)).2 := by
  simp only [← mulVec_activeCells hs]
  rfl

/-- The solutions are those of all combinations of the equations. -/
theorem isSolution_iff (hs : s.Permuted) (x : Fin C → ℝ) :
    s.IsSolution x ↔ ∀ e ∈ s.equationSpan, ∑ k, e.1 k * x k = e.2 := by
  rw [isSolution_iff_equation hs]
  constructor
  · intro h e he
    induction he using Submodule.span_induction with
    | mem e he =>
      obtain ⟨r, hr, rfl⟩ := he
      exact h ⟨r.val, hr⟩
    | zero => simp
    | add e f _ _ he hf => simp only [Prod.fst_add, Prod.snd_add, Pi.add_apply, add_mul,
        Finset.sum_add_distrib, he, hf]
    | smul a e _ he => simp only [Prod.smul_fst, Prod.smul_snd, Pi.smul_apply, smul_eq_mul,
        mul_assoc, ← Finset.mul_sum, he]
  · intro h r
    exact h _ (equation_mem_equationSpan r.isLt)

/-- The left sides of the active equations are independent. -/
def IndependentEquations (s : EquationSystem R C ℝ) : Prop :=
  LinearIndependent ℝ fun r : Fin s.rows => (s.equation (r.castLE s.rows_le)).1

/-- The equations are independent if and only if the active rows are. -/
theorem independentEquations_iff (s : EquationSystem R C ℝ) :
    s.IndependentEquations ↔ LinearIndependent ℝ s.activeCells.entry := by
  unfold IndependentEquations
  rw [Fintype.linearIndependent_iff, Fintype.linearIndependent_iff]
  refine forall_congr' fun g => imp_congr_left ?_
  have hcell : ∀ (r : Fin s.rows) (c : Fin s.columns),
      (s.equation (r.castLE s.rows_le)).1 (s.columnOrder.get (c.castLE s.columns_le))
        = s.activeCells.entry r c := by
    intro r c
    rw [equation_columnOrder s _ (show (c.castLE s.columns_le).val < s.columns from c.isLt)]
    exact (entry_activeCells s r c).symm
  constructor
  · intro h
    funext c
    have hc := congrFun h (s.columnOrder.get (c.castLE s.columns_le))
    simpa only [Finset.sum_apply, Pi.smul_apply, Pi.zero_apply, hcell] using hc
  · intro h
    funext k
    by_cases hk : k ∈ s.unknowns
    · obtain ⟨c, hc, rfl⟩ := hk
      have hcolumn := congrFun h ⟨c.val, hc⟩
      simp only [Finset.sum_apply, Pi.smul_apply, Pi.zero_apply, ← hcell] at hcolumn ⊢
      exact hcolumn
    · have hzero : ∀ r : Fin s.rows, (s.equation (r.castLE s.rows_le)).1 k = 0 :=
        fun r => Set.indicator_of_notMem hk _
      simp only [Finset.sum_apply, Pi.smul_apply, hzero, smul_zero, Finset.sum_const_zero,
        Pi.zero_apply]

/-- Independence is a matter of the dimension of what the equations span. -/
theorem independentEquations_iff_finrank (s : EquationSystem R C ℝ) :
    s.IndependentEquations ↔
      s.rows = Module.finrank ℝ (s.equationSpan.map (LinearMap.fst ℝ (Fin C → ℝ) ℝ)) := by
  have hspan : s.equationSpan.map (LinearMap.fst ℝ (Fin C → ℝ) ℝ) = Submodule.span ℝ
      (Set.range fun r : Fin s.rows => (s.equation (r.castLE s.rows_le)).1) := by
    unfold equationSpan
    rw [Submodule.map_span, ← Set.image_comp]
    congr 1
    ext e
    constructor
    · rintro ⟨r, hr, rfl⟩
      exact ⟨⟨r.val, hr⟩, rfl⟩
    · rintro ⟨r, rfl⟩
      exact ⟨r.castLE s.rows_le, r.isLt, rfl⟩
  unfold IndependentEquations
  rw [hspan, linearIndependent_iff_card_eq_finrank_span, Fintype.card_fin]
  rfl

/-- A system that comes from another one by row operations and exchanges: the active unknowns are
the same ones, and the active equations span the same space. -/
structure Equivalent (s t : EquationSystem R C ℝ) : Prop extends SameShape s t where
  permuted : t.Permuted
  unknowns_eq : t.unknowns = s.unknowns
  span_eq : t.equationSpan = s.equationSpan

namespace Equivalent

theorem refl (hs : s.Permuted) : s.Equivalent s := ⟨.refl s, hs, rfl, rfl⟩

theorem trans (h : s.Equivalent t) (h' : t.Equivalent u) : s.Equivalent u :=
  ⟨h.toSameShape.trans h'.toSameShape, h'.permuted, h'.unknowns_eq.trans h.unknowns_eq,
    h'.span_eq.trans h.span_eq⟩

/-- **Equivalent systems have the same solutions.** -/
theorem isSolution_iff (h : s.Equivalent t) (hs : s.Permuted) (x : Fin C → ℝ) :
    s.IsSolution x ↔ t.IsSolution x := by
  rw [EquationSystem.isSolution_iff hs, EquationSystem.isSolution_iff h.permuted, h.span_eq]

/-- **Equivalent systems are both independent, or none of them is.** -/
theorem independentEquations_iff (h : s.Equivalent t) :
    s.IndependentEquations ↔ t.IndependentEquations := by
  rw [independentEquations_iff_finrank, independentEquations_iff_finrank, h.span_eq, h.rows]

end Equivalent

/-- Equations that are the same ones in another order span the same space. -/
theorem equivalent_swapRows (hs : s.Permuted) (hi : i.val < s.rows) (hr : r.val < s.rows) :
    s.Equivalent (s.swapRows i r) := by
  refine ⟨⟨rfl, rfl⟩, hs.swapRows i r, rfl, le_antisymm ?_ ?_⟩
  · refine equationSpan_le fun q hq => ?_
    rw [equation_swapRows]
    exact equation_mem_equationSpan (swap_lt hi hr hq)
  · refine equationSpan_le fun q hq => ?_
    have hback := equation_mem_equationSpan (s := s.swapRows i r) (swap_lt hi hr hq)
    rwa [equation_swapRows, Equiv.swap_apply_self] at hback

theorem equivalent_swapColumns (hs : s.Permuted) (hc : c.val < s.columns) (hd : d.val < s.columns) :
    s.Equivalent (s.swapColumns c d) := by
  refine ⟨⟨rfl, rfl⟩, hs.swapColumns c d, unknowns_swapColumns hc hd, ?_⟩
  unfold equationSpan
  rw [show (s.swapColumns c d).equation = s.equation from funext (equation_swapColumns hc hd)]
  rfl

/-- **Elimination of a column keeps what the equations span.** -/
theorem equivalent_eliminateColumn (hs : s.Permuted) (hbefore : ∀ d < c, s.cell i d = 0)
    (hpivot : s.cell i c ≠ 0) (hi : i.val < s.rows) (hc : c.val < s.columns)
    {others : List (Fin R)} (hnodup : others.Nodup) (hothers : i ∉ others)
    (hsharp : s.SharpColumn i c others) : s.Equivalent (s.eliminateColumn i c others) := by
  have hlayout := s.sameLayout_eliminateColumn i c others
  obtain ⟨t, ht⟩ : ∃ t, t = s.eliminateColumn i c others := ⟨_, rfl⟩
  have heq := equation_eliminateColumn hs hbefore hc hnodup hothers hsharp
  rw [← ht] at hlayout heq ⊢
  have hactive : ∀ {q : Fin R}, q.val < t.rows ↔ q.val < s.rows := by
    intro q
    rw [hlayout.rows]
  have hpivot_eq : s.equation i = s.cell i c • t.equation i := by
    rw [heq, if_pos rfl, smul_smul, mul_inv_cancel₀ hpivot, one_smul]
  refine ⟨hlayout.toSameShape, hlayout.permuted hs, hlayout.unknowns_eq, le_antisymm ?_ ?_⟩
  · have hscaled : (s.cell i c)⁻¹ • s.equation i ∈ s.equationSpan :=
      Submodule.smul_mem _ _ (equation_mem_equationSpan hi)
    refine equationSpan_le fun q hq => ?_
    have hq' := equation_mem_equationSpan (hactive.1 hq)
    rw [heq]
    split
    · exact hscaled
    · split
      · exact Submodule.sub_mem _ hq' (Submodule.smul_mem _ _ hscaled)
      · exact hq'
  · have hscaled := equation_mem_equationSpan (s := t) (hactive.2 hi)
    refine equationSpan_le fun q hq => ?_
    have hq' := equation_mem_equationSpan (s := t) (hactive.2 hq)
    by_cases hqi : q = i
    · rw [hqi, hpivot_eq]
      exact Submodule.smul_mem _ _ hscaled
    · rw [heq q, if_neg hqi] at hq'
      split at hq'
      · rw [heq i, if_pos rfl] at hscaled
        have hsum := Submodule.add_mem _ hq' (Submodule.smul_mem _ (s.cell q c) hscaled)
        rwa [sub_add_cancel] at hsum
      · exact hq'

end EquationSystem

end ElasticLayout
