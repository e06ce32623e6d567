import ElasticLayout.Proofs.Compaction

/-!
# The layout of equation systems

A system addresses its entries through two orders and two counts.  Whatever was done to it, the
orders stay permutations, so that different positions address different places of the storage in
which the rows lie end to end.  The search for unused columns fetches a column from the end for
every one that it drops, without a look at it, and goes on at the same position; it ends, and keeps
the columns with an entry.  The basic solution is written entry by entry, none of them twice.

* `EquationSystem.offset`, `offset_lt`, `offset_injective`, `getElem?_offset` -- places of entries;
* `Scans`, `scans_dropUnused`, `Scans.unique` -- the search for unused columns ends;
* `Scans.exists_column_iff`, `perm_removeUnusedColumns` -- what it keeps;
* `EquationSystem.writes`, `basicSolution_eq_writes`, `nodup_writes` -- the basic solution;
* `Built.system_layout` -- the main result.
-/

namespace ElasticLayout

open Linear

variable {R C : ℕ}

namespace EquationSystem

/-! ### Places -/

section Places

variable {α : Type} {s : EquationSystem R C α}

/-- The place of the entry at a position, in the storage in which the rows lie end to end. -/
def offset (s : EquationSystem R C α) (r : Fin R) (c : Fin C) : ℕ :=
  (s.rowOrder.get r).val * C + (s.columnOrder.get c).val

theorem offset_lt (s : EquationSystem R C α) (r : Fin R) (c : Fin C) : s.offset r c < R * C := by
  have hcolumn := (s.columnOrder.get c).isLt
  calc s.offset r c < (s.rowOrder.get r).val * C + C := Nat.add_lt_add_left hcolumn _
    _ = ((s.rowOrder.get r).val + 1) * C := (Nat.succ_mul _ _).symm
    _ ≤ R * C := Nat.mul_le_mul_right C (s.rowOrder.get r).isLt

/-- **Different positions have different places.** -/
theorem offset_injective (hs : s.Permuted) {r q : Fin R} {c d : Fin C}
    (h : s.offset r c = s.offset q d) : r = q ∧ c = d := by
  unfold offset at h
  have hpos : 0 < C := c.pos
  have hmod := congrArg (· % C) h
  have hdiv := congrArg (· / C) h
  simp only [Nat.mul_add_mod_self_right, Nat.mod_eq_of_lt (Fin.isLt _)] at hmod
  simp only [Nat.add_comm (_ * C), Nat.add_mul_div_right _ _ hpos,
    Nat.div_eq_of_lt (Fin.isLt _), Nat.zero_add] at hdiv
  exact ⟨hs.rows (Fin.ext hdiv), hs.columns (Fin.ext hmod)⟩

/-- The entry at a position is read at its place. -/
theorem getElem?_offset (s : EquationSystem R C α) (r : Fin R) (c : Fin C) :
    s.cells.flat[s.offset r c]? = some (s.cell r c) := by
  have hrow := s.cells.take_drop_flat (s.rowOrder.get r)
  have hget := congrArg (·[(s.columnOrder.get c).val]?) hrow
  simp only [List.getElem?_take_of_lt (s.columnOrder.get c).isLt, List.getElem?_drop] at hget
  exact hget.trans (by simp [cell, Dense.entry, Dense.get_eq_getElem])

/-- Indices without repetitions, as many as there are, are a permutation of all. -/
theorem perm_finRange_of_injective {n : ℕ} {order : Vector (Fin n) n}
    (h : Function.Injective order.get) : order.toList.Perm (List.finRange n) := by
  have hnodup : order.toList.Nodup := by
    rw [toList_eq_map_get]
    exact (List.nodup_finRange n).map h
  refine (List.perm_ext_iff_of_nodup hnodup (List.nodup_finRange n)).2 fun k => ?_
  obtain ⟨c, rfl⟩ := Finite.injective_iff_surjective.1 h k
  simp [toList_eq_map_get]

end Places

/-! ### The search for unused columns -/

section Scans

variable {α : Type} [Scalar α] {s t u : EquationSystem R C α} {c : ℕ}

/-- The search for unused columns from a position on, and the system that it ends with.  It stops
behind the last active column, passes over a column that is used, and drops one that is not, after
which it looks at the column that took its position. -/
inductive Scans : EquationSystem R C α → ℕ → EquationSystem R C α → Prop
  | stop {s : EquationSystem R C α} {c : ℕ} : s.columns ≤ c → Scans s c s
  | keep {s t : EquationSystem R C α} {c : ℕ} (h : c < s.columns) :
    s.isUsed ⟨c, h.trans_le s.columns_le⟩ = true → Scans s (c + 1) t → Scans s c t
  | drop {s t : EquationSystem R C α} {c : ℕ} (h : c < s.columns) :
    s.isUsed ⟨c, h.trans_le s.columns_le⟩ = false →
      Scans (s.dropColumn ⟨c, h.trans_le s.columns_le⟩ h) c t → Scans s c t

/-- **The search ends**, after as many columns as there are from its start on. -/
theorem scans_dropUnused {count : ℕ} (h : s.columns ≤ c + count) :
    s.Scans c (s.dropUnused c count) := by
  induction count generalizing s c with
  | zero => exact .stop h
  | succ count ih =>
    unfold dropUnused
    split
    · rename_i hc
      dsimp only
      split
      · rename_i hused
        exact .keep hc hused (ih (by omega))
      · rename_i hunused
        refine .drop hc (Bool.eq_false_iff.2 hunused) (ih ?_)
        show s.columns - 1 ≤ c + count
        omega
    · rename_i hc
      exact .stop (not_lt.1 hc)

/-- It ends in one way only. -/
theorem Scans.unique (h : s.Scans c t) (h' : s.Scans c u) : t = u := by
  induction h with
  | stop hle =>
    cases h' with
    | stop => rfl
    | keep hlt => exact absurd hle (not_le.2 hlt)
    | drop hlt => exact absurd hle (not_le.2 hlt)
  | keep hlt hused _ ih =>
    cases h' with
    | stop hle => exact absurd hle (not_le.2 hlt)
    | keep _ _ hrest => exact ih hrest
    | drop _ hunused => exact absurd hused (Bool.eq_false_iff.1 hunused)
  | drop hlt hunused _ ih =>
    cases h' with
    | stop hle => exact absurd hle (not_le.2 hlt)
    | keep _ hused => exact absurd hused (Bool.eq_false_iff.1 hunused)
    | drop _ _ hrest => exact ih hrest

theorem scans_iff : s.Scans 0 t ↔ t = s.removeUnusedColumns := by
  have hends : s.Scans 0 s.removeUnusedColumns := scans_dropUnused (by omega)
  exact ⟨fun h => h.unique hends, fun h => h ▸ hends⟩

/-- The search leaves everything alone but the order and the number of columns. -/
structure SameRows (s t : EquationSystem R C α) : Prop where
  cells : t.cells = s.cells
  rhs : t.rhs = s.rhs
  rowOrder : t.rowOrder = s.rowOrder
  rows : t.rows = s.rows

theorem Scans.sameRows (h : s.Scans c t) : s.SameRows t := by
  induction h with
  | stop => exact ⟨rfl, rfl, rfl, rfl⟩
  | keep _ _ _ ih => exact ih
  | drop _ _ _ ih => exact ⟨ih.cells, ih.rhs, ih.rowOrder, ih.rows⟩

theorem isUsed_iff (s : EquationSystem R C α) (c : Fin C) :
    s.isUsed c = true ↔ ∃ r : Fin R, r.val < s.rows ∧ Scalar.near (s.cell r c) 0 = false := by
  unfold isUsed activeRows
  simp [List.any_eq_true]

/-- What comes before a position stays there in an exchange with a later one. -/
theorem swap_lt_iff {hole last : Fin C} (hle : hole ≤ last) (d : Fin C) :
    Equiv.swap hole last d < hole ↔ d < hole := by
  rw [Equiv.swap_apply_def]
  split
  · rename_i hd
    rw [hd]
    exact iff_of_false hle.not_gt (lt_irrefl _)
  · split
    · rename_i hd
      rw [hd]
      exact iff_of_false (lt_irrefl _) hle.not_gt
    · rfl

/-- The columns that are left when one was exchanged with the last. -/
theorem exists_swap_iff {hole last : Fin C} (hle : hole ≤ last) (P : Fin C → Prop) :
    (∃ d < last, P (Equiv.swap hole last d)) ↔ ∃ d ≤ last, d ≠ hole ∧ P d := by
  constructor
  · rintro ⟨d, hd, hP⟩
    refine ⟨_, ?_, ?_, hP⟩
    · rw [← Fin.val_fin_le, ← Nat.lt_succ_iff]
      exact swap_lt (Nat.lt_succ_of_le hle) (Nat.lt_succ_self _) (Nat.lt_succ_of_lt hd)
    · rw [ne_eq, Equiv.swap_apply_eq_iff, Equiv.swap_apply_left]
      exact hd.ne
  · rintro ⟨d, hd, hne, hP⟩
    refine ⟨Equiv.swap hole last d, ?_, by rwa [Equiv.swap_apply_self]⟩
    rw [Equiv.swap_apply_def, if_neg hne]
    split
    · rename_i hlast
      exact lt_of_le_of_ne hle (hlast ▸ hne.symm)
    · rename_i hlast
      exact lt_of_le_of_ne hd hlast

/-- Columns change places when one is dropped, and stay used or not. -/
theorem isUsed_dropColumn {hole last : Fin C} (h : hole.val < s.columns)
    (hlast : last.val + 1 = s.columns) (d : Fin C) :
    (s.dropColumn hole h).isUsed d = s.isUsed (Equiv.swap hole last d) := by
  rw [dropColumn_eq h hlast, Bool.eq_iff_iff, isUsed_iff, isUsed_iff]
  refine exists_congr fun r => and_congr_right fun _ => ?_
  rw [← cell_swapColumns]
  rfl

/-- **One unused column is dropped**: what is kept so far, and what is used among the rest, stays
what it was, though the column from the end comes to the position that is looked at. -/
theorem exists_dropColumn_iff {hole : Fin C} (h : hole.val < s.columns)
    (hunused : s.isUsed hole = false) (k : Fin C) :
    (∃ d : Fin C, d.val < (s.dropColumn hole h).columns ∧
        (s.dropColumn hole h).columnOrder.get d = k ∧
        (d.val < hole.val ∨ (s.dropColumn hole h).isUsed d = true)) ↔
      ∃ d : Fin C, d.val < s.columns ∧ s.columnOrder.get d = k ∧
        (d.val < hole.val ∨ s.isUsed d = true) := by
  obtain ⟨last, hlast⟩ := exists_last h
  have hle : hole ≤ last := by
    rw [Fin.le_def]
    omega
  have hcolumns : (s.dropColumn hole h).columns = last.val := by rw [dropColumn_eq h hlast]
  have hcolumn : ∀ d, (s.dropColumn hole h).columnOrder.get d
      = s.columnOrder.get (Equiv.swap hole last d) := by
    rw [dropColumn_eq h hlast]
    exact congrFun (columnOrder_swapColumns s hole last)
  calc (∃ d : Fin C, d.val < (s.dropColumn hole h).columns ∧
        (s.dropColumn hole h).columnOrder.get d = k ∧
        (d.val < hole.val ∨ (s.dropColumn hole h).isUsed d = true))
      ↔ ∃ d < last, s.columnOrder.get (Equiv.swap hole last d) = k ∧
          (Equiv.swap hole last d < hole ∨ s.isUsed (Equiv.swap hole last d) = true) := by
        simp only [hcolumn, hcolumns, isUsed_dropColumn h hlast, swap_lt_iff hle, Fin.lt_def]
    _ ↔ ∃ d ≤ last, d ≠ hole ∧ s.columnOrder.get d = k ∧ (d < hole ∨ s.isUsed d = true) :=
        exists_swap_iff hle fun d => s.columnOrder.get d = k ∧ (d < hole ∨ s.isUsed d = true)
    _ ↔ ∃ d : Fin C, d.val < s.columns ∧ s.columnOrder.get d = k ∧
          (d.val < hole.val ∨ s.isUsed d = true) := by
        refine exists_congr fun d => and_congr (by rw [Fin.le_def]; omega) ?_
        refine and_iff_right_of_imp fun hd heq => ?_
        rw [heq, hunused] at hd
        simp at hd

/-- **What the search keeps**: the active columns before its position, and those with an entry. -/
theorem Scans.exists_column_iff (h : s.Scans c t) (k : Fin C) :
    (∃ d : Fin C, d.val < t.columns ∧ t.columnOrder.get d = k) ↔
      ∃ d : Fin C, d.val < s.columns ∧ s.columnOrder.get d = k ∧
        (d.val < c ∨ s.isUsed d = true) := by
  induction h with
  | stop hle =>
    exact exists_congr fun d => and_congr_right fun hd =>
      ⟨fun hk => ⟨hk, .inl (hd.trans_le hle)⟩, And.left⟩
  | @keep s t c hlt hused _ ih =>
    rw [ih]
    refine exists_congr fun d => and_congr_right fun _ => and_congr_right fun _ => ?_
    -- The column at the position is used, so that passing over it adds nothing.
    have hpassed : d.val = c → s.isUsed d = true := by
      rintro rfl
      exact hused
    rw [Nat.lt_succ_iff_lt_or_eq, or_assoc, or_iff_right_of_imp hpassed]
  | drop hlt hunused _ ih => exact ih.trans (exists_dropColumn_iff hlt hunused k)

/-- **The used columns are kept**, each once. -/
theorem perm_removeUnusedColumns (hs : s.Permuted) :
    (s.removeUnusedColumns.activeColumns.map s.removeUnusedColumns.columnOrder.get).Perm
      ((s.activeColumns.filter s.isUsed).map s.columnOrder.get) := by
  have hremoved : s.removeUnusedColumns.Permuted := hs.dropUnused _ _
  have hfinRange := List.nodup_finRange C
  refine (List.perm_ext_iff_of_nodup ((hfinRange.filter _).map hremoved.columns)
    (((hfinRange.filter _).filter _).map hs.columns)).2 fun k => ?_
  have hkept := (scans_iff.2 (rfl : s.removeUnusedColumns = _)).exists_column_iff k
  simpa [activeColumns, and_assoc, and_comm, and_left_comm] using hkept

end Scans

/-! ### The basic solution -/

section Writes

variable {α : Type} {s : EquationSystem R C α} {i : Fin R} {length : ℕ}

/-- What a row writes to the basic solution: its right side, to the entry of the column at the same
position.  Nothing is written if that entry is cut off. -/
def write? (s : EquationSystem R C α) (length : ℕ) (i : Fin R) : Option (Fin length × α) :=
  if h : i.val < C then
    if hk : (s.columnOrder.get ⟨i.val, h⟩).val < length then
      some (⟨(s.columnOrder.get ⟨i.val, h⟩).val, hk⟩, s.rhs.get i)
    else none
  else none

/-- What is written to the basic solution, in this order. -/
def writes (s : EquationSystem R C α) (length : ℕ) : List (Fin length × α) :=
  ((List.finRange R).filter (·.val < min s.rows s.columns)).filterMap (s.write? length)

theorem write?_of_lt (hi : i.val < C) (hk : (s.columnOrder.get ⟨i.val, hi⟩).val < length) :
    s.write? length i = some (⟨(s.columnOrder.get ⟨i.val, hi⟩).val, hk⟩, s.rhs.get i) := by
  rw [write?, dif_pos hi, dif_pos hk]

theorem write?_of_cut (hi : i.val < C) (hk : ¬(s.columnOrder.get ⟨i.val, hi⟩).val < length) :
    s.write? length i = none := by
  rw [write?, dif_pos hi, dif_neg hk]

/-- A row writes to the entry of the column at its position. -/
theorem column_of_write? {w : Fin length × α} (h : s.write? length i = some w) :
    ∃ hi : i.val < C, (s.columnOrder.get ⟨i.val, hi⟩).val = w.1.val := by
  unfold write? at h
  split at h
  · rename_i hi
    split at h
    · obtain rfl := Option.some.inj h
      exact ⟨hi, rfl⟩
    · exact absurd h (by simp)
  · exact absurd h (by simp)

/-- The basic solution is what is written over zeros. -/
theorem basicSolution_eq_writes [Scalar α] (s : EquationSystem R C α) (length : ℕ) :
    s.basicSolution length = (s.writes length).foldl
      (fun solution w => solution.set w.1.val w.2 w.1.isLt) (Vector.replicate length 0) := by
  unfold basicSolution writes
  rw [List.foldl_filterMap]
  refine congrArg (List.foldl · _ _) (funext fun solution => funext fun i => ?_)
  split
  · rename_i hi
    by_cases hk : (s.columnOrder.get ⟨i.val, hi⟩).val < length
    · rw [write?_of_lt hi hk]
      exact Vector.ext fun j hj => by simp [Vector.getElem_set, Vector.getElem_setIfInBounds]
    · rw [write?_of_cut hi hk]
      refine Vector.ext fun j hj => ?_
      rw [Vector.getElem_setIfInBounds, if_neg (by omega)]
  · rename_i hi
    rw [write?, dif_neg hi]

/-- **No entry is written twice.** -/
theorem nodup_writes (hs : s.Permuted) : ((s.writes length).map Prod.fst).Nodup := by
  unfold writes
  rw [List.map_filterMap]
  refine ((List.nodup_finRange R).filter _).filterMap fun i j k hi hj => ?_
  obtain ⟨w, hw, rfl⟩ := Option.map_eq_some_iff.1 hi
  obtain ⟨v, hv, hvw⟩ := Option.map_eq_some_iff.1 hj
  obtain ⟨hi, hiw⟩ := column_of_write? hw
  obtain ⟨hj, hjv⟩ := column_of_write? hv
  have hcolumn := hs.columns (Fin.ext ((hiw.trans (congrArg Fin.val hvw.symm)).trans hjv.symm))
  exact Fin.ext (Fin.mk.inj hcolumn)

end Writes

/-! ### The main result -/

/-- **The layout of a system, whatever was done to it.**  Its orders are permutations, so that
different positions address different places, all of them in the storage.  The search for unused
columns ends, leaves the rows alone and keeps those active columns, each once, that have an entry in
an active row.  The basic solution of any length is written without writing an entry twice; the
column at the position of an active row takes its right side, and every other column is zero. -/
theorem Built.system_layout {α : Type} [Scalar α] {s : EquationSystem R C α} (h : s.Built) :
    s.rowOrder.toList.Perm (List.finRange R) ∧ s.columnOrder.toList.Perm (List.finRange C) ∧
    s.rows ≤ R ∧ s.columns ≤ C ∧
    (∀ r c, s.offset r c < R * C ∧ s.cells.flat[s.offset r c]? = some (s.cell r c)) ∧
    (∀ r q c d, s.offset r c = s.offset q d → r = q ∧ c = d) ∧
    (∀ t, s.Scans 0 t ↔ t = s.removeUnusedColumns) ∧
    s.SameRows s.removeUnusedColumns ∧
    (s.removeUnusedColumns.activeColumns.map s.removeUnusedColumns.columnOrder.get).Perm
      ((s.activeColumns.filter s.isUsed).map s.columnOrder.get) ∧
    (∀ c, s.isUsed c = true ↔
      ∃ r : Fin R, r.val < s.rows ∧ Scalar.near (s.cell r c) 0 = false) ∧
    ∀ length,
      s.basicSolution length = (s.writes length).foldl
        (fun solution w => solution.set w.1.val w.2 w.1.isLt) (Vector.replicate length 0) ∧
      ((s.writes length).map Prod.fst).Nodup ∧
      (∀ (i : Fin R) (c : Fin C) (k : Fin length), i.val = c.val → i.val < s.rows →
        c.val < s.columns → (s.columnOrder.get c).val = k.val →
          (s.basicSolution length).get k = s.rhs.get i) ∧
      ∀ k : Fin length, (∀ c : Fin C, c.val < s.rows → c.val < s.columns →
        (s.columnOrder.get c).val ≠ k.val) → (s.basicSolution length).get k = 0 := by
  have hs := h.permuted
  have hends : s.Scans 0 s.removeUnusedColumns := scans_iff.2 rfl
  refine ⟨perm_finRange_of_injective hs.rows, perm_finRange_of_injective hs.columns, s.rows_le,
    s.columns_le, fun r c => ⟨s.offset_lt r c, s.getElem?_offset r c⟩,
    fun _ _ _ _ => offset_injective hs, fun _ => scans_iff, hends.sameRows,
    perm_removeUnusedColumns hs, s.isUsed_iff, fun length => ⟨s.basicSolution_eq_writes length,
      nodup_writes hs, fun i c k hic hi hc hk => ?_, fun k => get_basicSolution_of_ne⟩⟩
  rw [get_basicSolution hs hk, dif_pos ⟨hic ▸ hi, hc⟩]
  exact congrArg s.rhs.get (Fin.ext hic.symm)

/-- Two equations of four unknowns, of which the second and the fourth do not occur. -/
def gaps : EquationSystem 2 4 Float := .ofCells #v[#v[1, 0, 1, 0], #v[0, 0, 1, 0]] #v[4, 1]

/-- The last column is fetched to the second position and dropped from there; in the end the
solution takes the two right sides in the columns that are left. -/
theorem system_layout_gaps : gaps.removeUnusedColumns.Built ∧
    gaps.Scans 0 gaps.removeUnusedColumns ∧
    (gaps.removeUnusedColumns.activeColumns.map gaps.removeUnusedColumns.columnOrder.get).Perm
      [0, 2] ∧
    (gaps.removeUnusedColumns.basicSolution 3).get 2 = gaps.removeUnusedColumns.rhs.get 1 ∧
    (gaps.removeUnusedColumns.basicSolution 3).get 1 = 0 := by
  have hbuilt : gaps.Built := .ofCells _ _
  have hremoved : gaps.removeUnusedColumns.Built := .removeUnusedColumns hbuilt
  obtain ⟨-, -, -, -, -, -, hscans, -, hkept, -⟩ := hbuilt.system_layout
  obtain ⟨-, -, -, -, -, -, -, -, -, -, hsolution⟩ := hremoved.system_layout
  obtain ⟨-, -, htakes, hzero⟩ := hsolution 3
  have hused : (gaps.activeColumns.filter gaps.isUsed).map gaps.columnOrder.get = [0, 2] := by
    decide +kernel
  have hfree : ∀ c : Fin 4, c.val < gaps.removeUnusedColumns.rows →
      c.val < gaps.removeUnusedColumns.columns →
        (gaps.removeUnusedColumns.columnOrder.get c).val ≠ 1 := by decide +kernel
  exact ⟨hremoved, (hscans _).2 rfl, hused ▸ hkept,
    htakes 1 1 2 rfl (by decide +kernel) (by decide +kernel) (by decide +kernel), hzero 1 hfree⟩

end EquationSystem

end ElasticLayout
