import ElasticLayout.Proofs.GaussJordan
import ElasticLayout.Proofs.RankDetection

/-!
# Systems in reduced form

Before elimination the rows that depend on others are moved to the end, and so are the columns
without entries.  What is left is independent, so that elimination does not fail, and its basic
solution solves the rows that were moved too, provided that anything does.

* `place_injective`, `moved`, `exists_source`, `exists_equation_removeDependentRows` -- the order in
  which dependent rows are moved to the end;
* `independentEquations_removeDependentRows`, `isSolution_of_removeDependentRows` -- what is kept;
* `SharpDropping`, `equationSpan_dropUnused` -- columns without entries;
* `EquationSystem.Built`, `Built.permuted` -- the systems that can be built;
* `EquationSystem.Reduced`, `gaussJordan_iff`, `reduced_gaussJordan` -- what elimination returns;
* `EquationSystem.SharpReducing`, `gaussJordan_of_sharpReducing` -- all three together.
-/

namespace ElasticLayout

open Linear Matrix

variable {R C : ℕ}

namespace EquationSystem

variable {s t : EquationSystem R C ℝ} {i r : Fin R} {c d : Fin C}

/-! ### Dependent rows -/

section Source

variable {α : Type} [Scalar α]

/-- Leading positions in a given order, and the others where they are. -/
def place {rows : ℕ} (hle : rows ≤ R) (order : List (Fin rows)) (r : Fin R) : Fin R :=
  (order[r.val]?.map (Fin.castLE hle)).getD r

theorem place_of_lt {rows : ℕ} (hle : rows ≤ R) {order : List (Fin rows)} {r : Fin R}
    (hr : r.val < order.length) : place hle order r = (order[r.val]).castLE hle := by
  simp [place, hr]

theorem place_of_not_lt {rows : ℕ} (hle : rows ≤ R) {order : List (Fin rows)} {r : Fin R}
    (hr : ¬r.val < order.length) : place hle order r = r := by
  simp [place, not_lt.1 hr]

/-- An order of all leading positions does not name a position twice. -/
theorem place_injective {rows : ℕ} (hle : rows ≤ R) {order : List (Fin rows)}
    (hperm : order.Perm (List.finRange rows)) : Function.Injective (place hle order) := by
  have hlength : order.length = rows := by rw [hperm.length_eq, List.length_finRange]
  have hnodup : order.Nodup := hperm.nodup_iff.2 (List.nodup_finRange _)
  intro r q hrq
  by_cases hr : r.val < order.length
  · by_cases hq : q.val < order.length
    · rw [place_of_lt hle hr, place_of_lt hle hq] at hrq
      exact Fin.ext (hnodup.getElem_inj_iff.1 (Fin.castLE_injective hle hrq))
    · rw [place_of_lt hle hr, place_of_not_lt hle hq] at hrq
      exact absurd (hlength.symm ▸ hrq ▸ (order[r.val]).isLt) hq
  · by_cases hq : q.val < order.length
    · rw [place_of_not_lt hle hr, place_of_lt hle hq] at hrq
      exact absurd (hlength.symm ▸ hrq ▸ (order[q.val]).isLt) hr
    · rwa [place_of_not_lt hle hr, place_of_not_lt hle hq] at hrq

/-- The active rows with those in front that the mask of the active part marks, each group in its
order. -/
def moved (s : EquationSystem R C α) : List (Fin s.rows) :=
  (List.finRange s.rows).filter (independenceMask s.activeCells).get ++
    (List.finRange s.rows).filter fun r => !(independenceMask s.activeCells).get r

theorem perm_moved (s : EquationSystem R C α) : s.moved.Perm (List.finRange s.rows) :=
  List.filter_append_perm _ _

theorem moved_eq (s : EquationSystem R C α) : s.moved = independentRows s.activeCells ++
    (List.finRange s.rows).filter fun r => !(independentRows s.activeCells).contains r :=
  (kept_append_dropped s.activeCells).symm

/-- Rows and right sides are moved alike. -/
theorem removeDependentRows_eq (s : EquationSystem R C α) : s.removeDependentRows =
    { s with
      rowOrder := Vector.ofFn fun r => s.rowOrder.get (place s.rows_le s.moved r)
      rhs := Vector.ofFn fun r => s.rhs.get (place s.rows_le s.moved r)
      rows := (independentRows s.activeCells).length
      rows_le := s.removeDependentRows.rows_le } := by
  rw [moved_eq]
  unfold removeDependentRows place
  simp

/-- **Dependent rows are moved by a permutation** that brings the kept ones to the front. -/
theorem exists_source (s : EquationSystem R C α) : ∃ source : Fin R → Fin R,
    Function.Injective source ∧
      (∀ r : Fin (independentRows s.activeCells).length,
        source (r.castLE s.removeDependentRows.rows_le)
          = ((independentRows s.activeCells).get r).castLE s.rows_le) ∧
      (∀ r, s.removeDependentRows.rowOrder.get r = s.rowOrder.get (source r)) ∧
      ∀ r, s.removeDependentRows.rhs.get r = s.rhs.get (source r) := by
  refine ⟨place s.rows_le s.moved, place_injective s.rows_le s.perm_moved, fun r => ?_, fun r => ?_,
    fun r => ?_⟩
  · have hr : (r.castLE s.removeDependentRows.rows_le).val < s.moved.length := by
      rw [moved_eq, List.length_append]
      exact Nat.lt_add_right _ r.isLt
    rw [place_of_lt s.rows_le hr]
    simp only [moved_eq]
    exact congrArg _ (List.getElem_append_left r.isLt)
  · rw [removeDependentRows_eq]
    exact get_ofFn ..
  · rw [removeDependentRows_eq]
    exact get_ofFn ..

theorem Permuted.removeDependentRows {s : EquationSystem R C α} (hs : s.Permuted) :
    s.removeDependentRows.Permuted := by
  obtain ⟨source, hinjective, -, horder, -⟩ := s.exists_source
  refine ⟨?_, hs.columns⟩
  rw [show s.removeDependentRows.rowOrder.get = s.rowOrder.get ∘ source from funext horder]
  exact hs.rows.comp hinjective

end Source

/-- The equations are moved with the rows. -/
theorem exists_equation_removeDependentRows (s : EquationSystem R C ℝ) :
    ∃ source : Fin R → Fin R, (∀ r, s.removeDependentRows.equation r = s.equation (source r)) ∧
      ∀ r : Fin (independentRows s.activeCells).length,
        source (r.castLE s.removeDependentRows.rows_le)
          = ((independentRows s.activeCells).get r).castLE s.rows_le := by
  obtain ⟨source, -, hfront, horder, hrhs⟩ := s.exists_source
  refine ⟨source, fun r => Prod.ext ?_ (hrhs r), hfront⟩
  show s.unknowns.indicator (s.cells.entry (s.removeDependentRows.rowOrder.get r)) = _
  rw [horder]
  rfl

/-- **The rows that are kept are independent.** -/
theorem independentEquations_removeDependentRows (s : EquationSystem R C ℝ) :
    s.removeDependentRows.IndependentEquations := by
  obtain ⟨source, hequation, hfront⟩ := s.exists_equation_removeDependentRows
  obtain ⟨mark, hmark⟩ : ∃ mark : Fin s.removeDependentRows.rows →
      {r // (independenceMask s.activeCells).get r = true},
      ∀ r, (mark r).val = (independentRows s.activeCells).get r :=
    ⟨fun r => ⟨_, mem_independentRows_iff.1 (List.get_mem _ r)⟩, fun _ => rfl⟩
  have hinjective : Function.Injective mark := fun r q hrq => by
    have hval := congrArg Subtype.val hrq
    rw [hmark, hmark] at hval
    exact nodup_independentRows.get_inj_iff.1 hval
  -- The coefficients of the active columns tell the equations apart.
  refine LinearIndependent.of_comp (LinearMap.funLeft ℝ ℝ fun c : Fin s.columns =>
    s.columnOrder.get (c.castLE s.columns_le)) ?_
  convert (linearIndependent_marked s.activeCells).comp mark hinjective using 1
  funext r c
  show (s.removeDependentRows.equation (r.castLE _)).1 _ = s.activeCells.entry (mark r).val c
  rw [hequation, hfront r, equation_columnOrder s _ c.isLt, hmark, entry_activeCells]

/-- **What solves the rows that are kept solves all rows**, provided that something does. -/
theorem isSolution_of_removeDependentRows (hs : s.Permuted)
    (hsharp : SharpReduction s.activeCells) {x y : Fin C → ℝ}
    (hx : s.removeDependentRows.IsSolution x) (hy : s.IsSolution y) : s.IsSolution x := by
  obtain ⟨source, hequation, hfront⟩ := s.exists_equation_removeDependentRows
  rw [isSolution_iff_equation hs.removeDependentRows] at hx
  rw [isSolution_iff_equation hs] at hy ⊢
  have hsub : ∀ r : Fin s.rows, ∑ k, (s.equation (r.castLE s.rows_le)).1 k * (x - y) k
      = ∑ k, (s.equation (r.castLE s.rows_le)).1 k * x k - (s.equation (r.castLE s.rows_le)).2 := by
    intro r
    rw [← hy r, ← Finset.sum_sub_distrib]
    exact Finset.sum_congr rfl fun k _ => mul_sub _ _ _
  have hkept : ∀ r ∈ independentRows s.activeCells,
      ∑ k, (s.equation (r.castLE s.rows_le)).1 k * x k = (s.equation (r.castLE s.rows_le)).2 := by
    intro r hr
    obtain ⟨q, rfl⟩ := List.get_of_mem hr
    have hq := hx q
    rwa [hequation, hfront q] at hq
  have hall := eq_zero_of_independentRows hsharp fun r hr => by
    rw [mulVec_activeCells hs (x - y), hsub, hkept r hr, sub_self]
  intro r
  have hr := congrFun hall r
  rw [mulVec_activeCells hs (x - y), hsub] at hr
  exact sub_eq_zero.1 hr

/-! ### Columns without entries -/

/-- The tests of whether a column has an entry are sharp. -/
def SharpUse (s : EquationSystem R C ℝ) (c : Fin C) : Prop :=
  SharpScan (fun r => r.val < s.rows) fun r => s.cell r c

/-- A column that counts as unused has no entry. -/
theorem SharpUse.eq_zero (h : s.SharpUse c) (hunused : ¬s.isUsed c = true) (hr : r.val < s.rows) :
    s.cell r c = 0 := by
  refine SharpScan.eq_zero h (fun r hr => ?_) hr
  unfold isUsed at hunused
  rw [List.any_eq_true, not_exists] at hunused
  simpa [mem_activeRows.2 hr] using hunused r

/-- The tests while unused columns are dropped are sharp. -/
def SharpDropping (s : EquationSystem R C ℝ) (c : ℕ) : ℕ → Prop
  | 0 => True
  | count + 1 => ∀ h : c < s.columns, s.SharpUse (Fin.castLE s.columns_le ⟨c, h⟩) ∧
      (s.isUsed (Fin.castLE s.columns_le ⟨c, h⟩) = true → s.SharpDropping (c + 1) count) ∧
      (¬s.isUsed (Fin.castLE s.columns_le ⟨c, h⟩) = true →
        (s.dropColumn (Fin.castLE s.columns_le ⟨c, h⟩) h).SharpDropping c count)

theorem Permuted.dropColumn {α : Type} {s : EquationSystem R C α} (hs : s.Permuted) (c : Fin C)
    (h : c.val < s.columns) : (s.dropColumn c h).Permuted := by
  have hswap := hs.swapColumns c ⟨s.columns - 1, by have := s.columns_le; omega⟩
  exact ⟨hswap.rows, hswap.columns⟩

/-- A system with an active column has a last one. -/
theorem exists_last {α : Type} {s : EquationSystem R C α} (h : c.val < s.columns) :
    ∃ last : Fin C, last.val + 1 = s.columns :=
  ⟨⟨s.columns - 1, by have := s.columns_le; omega⟩, Nat.sub_add_cancel (by omega)⟩

theorem dropColumn_eq {α : Type} {s : EquationSystem R C α} {last : Fin C} (h : c.val < s.columns)
    (hlast : last.val + 1 = s.columns) : s.dropColumn c h =
      { s.swapColumns c last with columns := last.val, columns_le := last.isLt.le } := by
  have hlt : s.columns - 1 < C := by have := s.columns_le; omega
  obtain rfl : ⟨s.columns - 1, hlt⟩ = last := Fin.ext (Nat.sub_eq_of_eq_add hlast.symm)
  rfl

/-- Making the last column inactive leaves an equation alone that has no coefficient there. -/
theorem equation_shrink (hs : s.Permuted) {last : Fin C} (hlast : last.val + 1 = s.columns)
    (hzero : s.cell r last = 0) :
    equation { s with columns := last.val, columns_le := last.isLt.le } r = s.equation r := by
  obtain ⟨t, ht⟩ : ∃ t : EquationSystem R C ℝ,
      t = { s with columns := last.val, columns_le := last.isLt.le } := ⟨_, rfl⟩
  have hunknowns : ∀ k, k ∈ t.unknowns ↔ k ∈ s.unknowns ∧ k ≠ s.columnOrder.get last := by
    intro k
    rw [ht]
    constructor
    · rintro ⟨d, hd, rfl⟩
      refine ⟨⟨d, lt_of_lt_of_le hd (by dsimp only; omega), rfl⟩, fun heq => ?_⟩
      exact (Fin.lt_def.2 hd).ne (hs.columns heq)
    · rintro ⟨⟨d, hd, rfl⟩, hne⟩
      have hdl : d.val ≠ last.val := fun heq => hne (congrArg _ (Fin.ext heq))
      exact ⟨d, by dsimp only; omega, rfl⟩
  rw [← ht]
  refine Prod.ext (funext fun k => ?_) (by rw [ht]; rfl)
  by_cases hk : k ∈ t.unknowns
  · rw [show (t.equation r).1 k = _ from Set.indicator_of_mem hk _,
      show (s.equation r).1 k = _ from Set.indicator_of_mem ((hunknowns k).1 hk).1 _, ht]
  · rw [show (t.equation r).1 k = 0 from Set.indicator_of_notMem hk _]
    by_cases hlast' : k = s.columnOrder.get last
    · rw [hlast', equation_columnOrder s r (by omega), hzero]
    · refine (Set.indicator_of_notMem (fun hmem => hk ?_) _).symm
      exact (hunknowns k).2 ⟨hmem, hlast'⟩

/-- Dropping a column leaves an equation alone that has no coefficient there. -/
theorem equation_dropColumn (hs : s.Permuted) (h : c.val < s.columns) (hzero : s.cell r c = 0) :
    (s.dropColumn c h).equation r = s.equation r := by
  obtain ⟨last, hlast⟩ := exists_last h
  have hcell : (s.swapColumns c last).cell r last = 0 := by
    rw [cell_swapColumns, Equiv.swap_apply_right, hzero]
  calc (s.dropColumn c h).equation r
      = equation { s.swapColumns c last with
          columns := last.val, columns_le := last.isLt.le } r := by rw [dropColumn_eq h hlast]
    _ = (s.swapColumns c last).equation r :=
        equation_shrink (hs.swapColumns c last) hlast hcell
    _ = s.equation r := equation_swapColumns h (by omega) r

theorem Permuted.dropUnused {α : Type} [Scalar α] {s : EquationSystem R C α} (hs : s.Permuted)
    (c count : ℕ) : (s.dropUnused c count).Permuted := by
  induction count generalizing s c with
  | zero => exact hs
  | succ count ih =>
    unfold EquationSystem.dropUnused
    split
    · dsimp only
      split
      · exact ih hs _
      · exact ih (hs.dropColumn _ _) _
    · exact hs

/-- **Columns without entries are dropped** without a change of what the equations span. -/
theorem equationSpan_dropUnused (hs : s.Permuted) {c count : ℕ}
    (hsharp : s.SharpDropping c count) :
    (s.dropUnused c count).equationSpan = s.equationSpan := by
  induction count generalizing s c with
  | zero => rfl
  | succ count ih =>
    unfold dropUnused
    split
    · rename_i hc
      obtain ⟨huse, hkeep, hdrop⟩ := hsharp hc
      dsimp only
      split
      · rename_i hused
        exact ih hs (hkeep hused)
      · rename_i hunused
        refine (ih (hs.dropColumn _ hc) (hdrop hunused)).trans ?_
        refine congrArg (Submodule.span ℝ) (Set.image_congr fun r hr => ?_)
        exact equation_dropColumn hs hc (huse.eq_zero hunused hr)
    · rfl

/-! ### Systems that can be built -/

section Built

variable {α : Type} [Scalar α]

theorem Permuted.bringPivot? {s t : EquationSystem R C α} (hs : s.Permuted) {i : Fin R} {c : Fin C}
    (h : s.bringPivot? i c = some t) : t.Permuted := by
  unfold EquationSystem.bringPivot? at h
  split at h
  · rw [← Option.some.inj h]
    split
    · exact hs
    · exact hs.swapRows i _
  · obtain ⟨k, -, rfl⟩ := Option.map_eq_some_iff.1 h
    exact hs.swapColumns c k

theorem Permuted.eliminateDown {s : EquationSystem R C α} (hs : s.Permuted) (is : List (Fin R)) :
    (s.eliminateDown is).1.Permuted := by
  induction is generalizing s with
  | nil => exact hs
  | cons i is ih =>
    unfold EquationSystem.eliminateDown
    split
    · dsimp only
      split
      · exact hs
      · rename_i t ht
        exact ih ((t.sameLayout_eliminateColumn i _ _).permuted (hs.bringPivot? ht))
    · exact hs

theorem sameLayout_eliminateUp (s : EquationSystem R C α) (i : Fin R) :
    s.SameLayout (s.eliminateUp i) := by
  unfold eliminateUp
  split
  · exact s.sameLayout_eliminateColumn i _ _
  · exact .refl s

theorem Permuted.gaussJordan {s : EquationSystem R C α} (hs : s.Permuted) :
    s.gaussJordan.1.Permuted := by
  have hdown : s.gaussianElimination.1.Permuted := hs.eliminateDown _
  unfold EquationSystem.gaussJordan
  split
  · rename_i t ht
    rwa [ht] at hdown
  · rename_i t ht
    rw [ht] at hdown
    exact List.foldlRecOn (motive := Permuted) _ _ hdown
      fun u hu i _ => (u.sameLayout_eliminateUp i).permuted hu

/-- The systems that can be built: given coefficients and right sides, and any of the operations
after that. -/
inductive Built : EquationSystem R C α → Prop
  | ofCells (cells : Dense R C α) (rhs : Vector α R) : Built (ofCells cells rhs)
  | setCell {s : EquationSystem R C α} (r : Fin R) (c : Fin C) (value : α) :
    Built s → Built (s.setCell r c value)
  | setRhs {s : EquationSystem R C α} (r : Fin R) (value : α) : Built s → Built (s.setRhs r value)
  | swapRows {s : EquationSystem R C α} (i j : Fin R) : Built s → Built (s.swapRows i j)
  | swapColumns {s : EquationSystem R C α} (i j : Fin C) : Built s → Built (s.swapColumns i j)
  | setRows {s : EquationSystem R C α} (rows : ℕ) : Built s → Built (s.setRows rows)
  | gaussianElimination {s : EquationSystem R C α} : Built s → Built s.gaussianElimination.1
  | gaussJordan {s : EquationSystem R C α} : Built s → Built s.gaussJordan.1
  | removeDependentRows {s : EquationSystem R C α} : Built s → Built s.removeDependentRows
  | removeUnusedColumns {s : EquationSystem R C α} : Built s → Built s.removeUnusedColumns

/-- **The orders of a system that can be built are permutations.** -/
theorem Built.permuted {s : EquationSystem R C α} (h : s.Built) : s.Permuted := by
  induction h with
  | ofCells cells rhs => exact permuted_ofCells cells rhs
  | setCell r c value _ hs => exact ⟨hs.rows, hs.columns⟩
  | setRhs r value _ hs => exact ⟨hs.rows, hs.columns⟩
  | swapRows i j _ hs => exact hs.swapRows i j
  | swapColumns i j _ hs => exact hs.swapColumns i j
  | setRows rows _ hs => exact ⟨hs.rows, hs.columns⟩
  | gaussianElimination _ hs => exact hs.eliminateDown _
  | gaussJordan _ hs => exact hs.gaussJordan
  | removeDependentRows _ hs => exact hs.removeDependentRows
  | removeUnusedColumns _ hs => exact hs.dropUnused _ _

end Built

/-! ### What elimination returns -/

/-- A system in reduced form: the solutions are the ones it had, the leading block is the identity,
and the basic solution, which is zero but for the pivot columns, solves the system as it was. -/
structure Reduced (s t : EquationSystem R C ℝ) : Prop extends SameShape s t where
  unknowns_eq : t.unknowns = s.unknowns
  isSolution_iff : ∀ x, s.IsSolution x ↔ t.IsSolution x
  rows_le_columns : t.rows ≤ t.columns
  identity : ∀ r q : Fin t.rows,
    t.activeCells.entry r (q.castLE rows_le_columns) = if r = q then 1 else 0
  basicSolution_eq_zero : ∀ k : Fin C,
    (∀ q : Fin t.rows, t.columnOrder.get ((q.castLE rows_le_columns).castLE t.columns_le) ≠ k) →
      (t.basicSolution C).get k = 0
  isSolution_basicSolution : s.IsSolution (t.basicSolution C).get

/-- **Elimination succeeds if and only if the active rows are independent.** -/
theorem gaussJordan_iff (hs : s.Permuted) (hsharp : s.SharpJordan) :
    s.gaussJordan.2 = true ↔ LinearIndependent ℝ s.activeCells.entry := by
  obtain ⟨hequivalent, htrue, hfalse⟩ := gaussJordan_cases hs hsharp
  rw [← independentEquations_iff, hequivalent.independentEquations_iff]
  constructor
  · intro h
    obtain ⟨hle, hcleared⟩ := htrue h
    refine hcleared.independentEquations ?_
    rwa [hequivalent.rows, hequivalent.columns]
  · intro hindependent
    by_contra hnot
    exact hfalse (Bool.eq_false_iff.2 hnot) hindependent

/-- **What elimination returns if it succeeds.** -/
theorem reduced_gaussJordan (hs : s.Permuted) (hsharp : s.SharpJordan)
    (h : s.gaussJordan.2 = true) : s.Reduced s.gaussJordan.1 := by
  obtain ⟨hequivalent, htrue, -⟩ := gaussJordan_cases hs hsharp
  obtain ⟨hle, hcleared⟩ := htrue h
  have hle : s.gaussJordan.1.rows ≤ s.gaussJordan.1.columns := by
    rwa [hequivalent.rows, hequivalent.columns]
  refine ⟨hequivalent.toSameShape, hequivalent.unknowns_eq, hequivalent.isSolution_iff hs, hle,
    fun r q => ?_, fun k hk => ?_, ?_⟩
  · rw [entry_activeCells, hcleared _ _ (by exact r.isLt) (by exact q.isLt) (.inr (Nat.zero_le _))]
    exact if_congr (show r.val = q.val ↔ r = q from Fin.ext_iff.symm) rfl rfl
  · obtain ⟨c, rfl⟩ := Finite.injective_iff_surjective.1 hequivalent.permuted.columns k
    rw [get_basicSolution hequivalent.permuted (c := c) rfl, dif_neg]
    exact fun hc => hk ⟨c.val, hc.1⟩ rfl
  · rw [hequivalent.isSolution_iff hs]
    exact hcleared.isSolution_basicSolution hequivalent.permuted hle

/-- Every test is sharp on the way from a system to its basic solution: those of rank detection,
those for unused columns, and those of elimination. -/
structure SharpReducing (s : EquationSystem R C ℝ) : Prop where
  rank : SharpReduction s.activeCells
  unused : s.removeDependentRows.SharpDropping 0 s.removeDependentRows.columns
  jordan : s.removeDependentRows.removeUnusedColumns.SharpJordan

/-- **Without dependent rows and unused columns elimination succeeds**, and the basic solution
solves all rows, provided that something does. -/
theorem gaussJordan_of_sharpReducing (hs : s.Permuted) (hsharp : s.SharpReducing) :
    s.removeDependentRows.removeUnusedColumns.gaussJordan.2 = true ∧
      ∀ y, s.IsSolution y → s.IsSolution
        (s.removeDependentRows.removeUnusedColumns.gaussJordan.1.basicSolution C).get := by
  obtain ⟨kept, hkept⟩ : ∃ kept, kept = s.removeDependentRows := ⟨_, rfl⟩
  obtain ⟨used, hused⟩ : ∃ used, used = kept.removeUnusedColumns := ⟨_, rfl⟩
  have hpermuted : kept.Permuted := hkept ▸ hs.removeDependentRows
  have huse : used.Permuted := hused ▸ hpermuted.dropUnused _ _
  have hrows : used.rows = kept.rows := hused ▸ kept.rows_dropUnused _ _
  have hspan : used.equationSpan = kept.equationSpan :=
    hused ▸ equationSpan_dropUnused hpermuted (hkept ▸ hsharp.unused)
  have hjordan : used.SharpJordan := hused ▸ hkept ▸ hsharp.jordan
  rw [← hkept, ← hused]
  have hsolved : used.gaussJordan.2 = true := by
    rw [gaussJordan_iff huse hjordan, ← independentEquations_iff,
      independentEquations_iff_finrank, hrows, hspan, ← independentEquations_iff_finrank, hkept]
    exact s.independentEquations_removeDependentRows
  refine ⟨hsolved, fun y hy => ?_⟩
  refine isSolution_of_removeDependentRows hs hsharp.rank ?_ hy
  have hbasic := (reduced_gaussJordan huse hjordan hsolved).isSolution_basicSolution
  rw [isSolution_iff huse, hspan, ← isSolution_iff hpermuted, hkept] at hbasic
  exact hbasic

/-- The basic solution may be cut off. -/
theorem get_basicSolution_eq (hs : s.Permuted) {length length' : ℕ} {k : Fin length}
    {k' : Fin length'} (hk : k.val = k'.val) (hlt : k.val < C) :
    (s.basicSolution length).get k = (s.basicSolution length').get k' := by
  obtain ⟨c, hc⟩ := Finite.injective_iff_surjective.1 hs.columns ⟨k.val, hlt⟩
  have hval : (s.columnOrder.get c).val = k.val := congrArg Fin.val hc
  rw [get_basicSolution hs hval, get_basicSolution hs (hval.trans hk)]

end EquationSystem

end ElasticLayout
