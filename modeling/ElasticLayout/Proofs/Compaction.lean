import ElasticLayout.Proofs.ReducedSystems

/-!
# Compaction to independent rows

Where the rows of an array lie end to end in one storage, the independent ones can be moved to the
front within that storage: each is copied over the rows before it that were passed over, and what is
left behind the last one is cut off.  The source of a copy may overlap its target.  A system of
equations has no need to move entries and reorders its rows instead.  Both leave the same rows in
the same order.

* `Dense.flat` -- the rows of an array end to end;
* `copyWithin`, `take_copyWithin`, `drop_copyWithin` -- a copy within a storage;
* `compactStep`, `compactRows` -- the compaction;
* `Compacted`, `Compacted.step`, `compacted_foldl` -- its invariant;
* `compactRows_eq` -- it leaves the independent rows;
* `EquationSystem.toList_rowOrder_removeDependentRows`,
  `EquationSystem.activeCells_removeDependentRows` -- the reordering;
* `compactions_agree` -- the main result.
-/

namespace ElasticLayout

open Linear

namespace Linear

variable {α : Type} {m n : ℕ}

/-! ### Rows end to end -/

/-- The rows of an array end to end. -/
def Dense.flat (a : Dense m n α) : List α := a.toLists.flatten

theorem Dense.toLists_eq (a : Dense m n α) :
    a.toLists = (List.finRange m).map fun i => (a.get i).toList := by
  rw [toLists, toList_eq_map_get, List.map_map]
  rfl

/-- Selected rows are unmodified. -/
theorem Dense.toLists_selectRows (a : Dense m n α) (positions : List (Fin m)) :
    (a.selectRows positions).toLists = positions.map fun i => (a.get i).toList := by
  rw [toLists_eq]
  refine List.ext_getElem (by simp) fun i hi _ => ?_
  simp [Dense.get_eq_getElem, Dense.selectRows]

theorem Dense.flat_selectRows (a : Dense m n α) (positions : List (Fin m)) :
    (a.selectRows positions).flat = positions.flatMap fun i => (a.get i).toList := by
  rw [flat, toLists_selectRows, List.flatMap_def]

theorem Dense.flat_eq (a : Dense m n α) :
    a.flat = (List.finRange m).flatMap fun i => (a.get i).toList := by
  rw [flat, toLists_eq, List.flatMap_def]

theorem Dense.length_flat (a : Dense m n α) : a.flat.length = m * n := by
  simp [flat_eq, List.length_flatMap]

theorem take_finRange_succ (i : Fin m) :
    (List.finRange m).take (i.val + 1) = (List.finRange m).take i.val ++ [i] := by
  rw [List.take_add_one, List.getElem?_eq_getElem (by simp), List.getElem_finRange]
  rfl

/-- Each row has its stretch of the storage. -/
theorem Dense.take_drop_flat (a : Dense m n α) (i : Fin m) :
    (a.flat.drop (i.val * n)).take n = (a.get i).toList := by
  have hsplit : List.finRange m = (List.finRange m).take i.val ++
      i :: (List.finRange m).drop (i.val + 1) := by
    rw [← List.singleton_append, ← List.append_assoc, ← take_finRange_succ,
      List.take_append_drop]
  have hfront : (((List.finRange m).take i.val).flatMap fun i => (a.get i).toList).length
      = i.val * n := by
    simp [List.length_flatMap, i.isLt.le]
  rw [flat_eq, hsplit, List.flatMap_append, List.drop_left' hfront, List.flatMap_cons,
    List.take_left' Vector.length_toList]

/-! ### Copies within a storage -/

/-- Copy a stretch to another place of the same storage.  All of it is read before any of it is
written, so that the two may overlap. -/
def copyWithin (data : List α) (source target count : ℕ) : List α :=
  data.take target ++ ((data.drop source).take count ++ data.drop (target + count))

variable {data : List α} {source target count : ℕ}

theorem length_copyWithin (hsource : source + count ≤ data.length) (hle : target ≤ source) :
    (copyWithin data source target count).length = data.length := by
  simp only [copyWithin, List.length_append, List.length_take, List.length_drop]
  omega

/-- What comes before the target is left alone, and the target holds the source. -/
theorem take_copyWithin (hsource : source + count ≤ data.length) (hle : target ≤ source) :
    (copyWithin data source target count).take (target + count)
      = data.take target ++ (data.drop source).take count := by
  unfold copyWithin
  rw [← List.append_assoc]
  refine List.take_left' ?_
  simp only [List.length_append, List.length_take, List.length_drop]
  omega

/-- What comes behind the target is left alone. -/
theorem drop_copyWithin (hsource : source + count ≤ data.length) (hle : target ≤ source) {k : ℕ}
    (hk : target + count ≤ k) : (copyWithin data source target count).drop k = data.drop k := by
  obtain ⟨d, rfl⟩ := Nat.exists_eq_add_of_le hk
  rw [← List.drop_drop, ← List.drop_drop (i := d)]
  congr 1
  unfold copyWithin
  rw [← List.append_assoc]
  refine List.drop_left' ?_
  simp only [List.length_append, List.length_take, List.length_drop]
  omega

/-! ### The compaction -/

/-- Treat one row of the storage: a row that the mask marks goes to the next free place, unless it
is there already.  The state is the number of rows placed, and the storage. -/
def compactStep (mask : Fin m → Bool) (n : ℕ) (state : ℕ × List α) (i : Fin m) : ℕ × List α :=
  if mask i then
    (state.1 + 1,
      if state.1 < i.val then copyWithin state.2 (i.val * n) (state.1 * n) n else state.2)
  else state

/-- Compact an array to its independent rows, in the storage in which its rows lie end to end.
Nothing is moved if all of them are independent.  The result is the number of rows that are left,
and their storage. -/
def compactRows [Scalar α] (a : Dense m n α) : ℕ × List α :=
  if rank a = m then (m, a.flat)
  else
    (rank a, (((List.finRange m).foldl (compactStep (independenceMask a).get n)
      (0, a.flat)).2).take (rank a * n))

/-- The storage after some leading rows were treated: those that the mask marks are in front, and
the rows that are still to come are where they were. -/
structure Compacted (a : Dense m n α) (mask : Fin m → Bool) (treated : ℕ)
    (state : ℕ × List α) : Prop where
  /-- As many rows are placed as the mask marks. -/
  count : state.1 = (((List.finRange m).take treated).filter mask).length
  /-- They are in front, in their order. -/
  front : state.2.take (state.1 * n)
    = (((List.finRange m).take treated).filter mask).flatMap fun i => (a.get i).toList
  /-- The rows to come are untouched. -/
  back : state.2.drop (treated * n) = a.flat.drop (treated * n)
  /-- The storage keeps its length. -/
  length : state.2.length = m * n

namespace Compacted

variable {a : Dense m n α} {mask : Fin m → Bool} {state : ℕ × List α}

theorem start (a : Dense m n α) (mask : Fin m → Bool) : Compacted a mask 0 (0, a.flat) where
  count := by simp
  front := by simp
  back := rfl
  length := a.length_flat

/-- No more rows are placed than were treated. -/
theorem count_le {treated : ℕ} (h : Compacted a mask treated state) : state.1 ≤ treated := by
  rw [h.count]
  exact (List.length_filter_le _ _).trans ((List.length_take_le _ _))

/-- The row to come lies in its own stretch. -/
theorem next {i : Fin m} (h : Compacted a mask i.val state) :
    (state.2.drop (i.val * n)).take n = (a.get i).toList := by
  rw [h.back, a.take_drop_flat]

/-- **One row is treated.** -/
theorem step {i : Fin m} (h : Compacted a mask i.val state) :
    Compacted a mask (i.val + 1) (compactStep mask n state i) := by
  have hlength := h.length
  have hcount := h.count_le
  have hroom : i.val * n + n ≤ state.2.length := by
    rw [h.length, ← Nat.succ_mul]
    exact Nat.mul_le_mul_right n i.isLt
  have htake := take_finRange_succ i
  have hback : state.2.drop ((i.val + 1) * n) = a.flat.drop ((i.val + 1) * n) := by
    rw [Nat.succ_mul, ← List.drop_drop, h.back, List.drop_drop]
  unfold compactStep
  cases hmask : mask i with
  | false =>
    exact {
      count := by rw [htake, List.filter_append]; simpa [hmask] using h.count
      front := by rw [htake, List.filter_append]; simpa [hmask] using h.front
      back := hback
      length := hlength }
  | true =>
    have hplaced : (state.2.take (state.1 * n)) ++ (a.get i).toList
        = (((List.finRange m).take (i.val + 1)).filter mask).flatMap fun i => (a.get i).toList := by
      rw [h.front, htake, List.filter_append]
      simp [hmask]
    have hle : state.1 * n ≤ i.val * n := Nat.mul_le_mul_right n hcount
    refine {
      count := by rw [htake, List.filter_append]; simpa [hmask] using h.count
      front := ?_
      back := ?_
      length := ?_ }
    · rw [← hplaced, if_pos rfl]
      dsimp only
      rw [Nat.succ_mul]
      split
      · rw [take_copyWithin hroom hle, h.next]
      · -- Nothing was passed over so far, so the row is in its place.
        obtain hsame : state.1 = i.val := by omega
        rw [hsame, List.take_add, h.next]
    · rw [if_pos rfl]
      dsimp only
      split
      · rw [drop_copyWithin hroom hle, hback]
        rw [Nat.succ_mul]
        omega
      · exact hback
    · rw [if_pos rfl]
      dsimp only
      split
      · rw [length_copyWithin hroom hle, hlength]
      · exact hlength

end Compacted

/-- **All rows are treated**, one after the other. -/
theorem compacted_foldl (a : Dense m n α) (mask : Fin m → Bool) {treated : ℕ} (h : treated ≤ m) :
    Compacted a mask treated
      (((List.finRange m).take treated).foldl (compactStep mask n) (0, a.flat)) := by
  induction treated with
  | zero => exact .start a mask
  | succ treated ih =>
    rw [take_finRange_succ ⟨treated, h⟩, List.foldl_concat]
    exact (ih (by omega)).step (i := ⟨treated, h⟩)

/-- An array of full rank keeps all its rows. -/
theorem independentRows_eq_finRange [Scalar α] {a : Dense m n α} (h : rank a = m) :
    independentRows a = List.finRange m :=
  List.filter_sublist.eq_of_length
    (((length_independentRows a).trans h).trans List.length_finRange.symm)

/-- **The compaction leaves the independent rows**, in their order, and as many as the mask
marks. -/
theorem compactRows_eq [Scalar α] (a : Dense m n α) :
    compactRows a = ((independenceMask a).toList.count true,
      (a.selectRows (independentRows a)).flat) := by
  have hlength := length_independentRows a
  unfold compactRows
  rw [count_independenceMask]
  split
  · rename_i hall
    rw [Dense.flat_selectRows, independentRows_eq_finRange hall, ← Dense.flat_eq, hall]
  · have hend := compacted_foldl a (independenceMask a).get (le_refl m)
    have hall : (List.finRange m).take m = List.finRange m := List.take_of_length_le (by simp)
    have hcount := hend.count
    have hfront := hend.front
    rw [hall] at hcount hfront
    have hrank : _ = rank a := hcount.trans hlength
    rw [← hrank, hfront, Dense.flat_selectRows]
    rfl

end Linear

/-! ### Reordering -/

namespace EquationSystem

variable {α : Type} [Scalar α] {R C : ℕ}

omit [Scalar α] in
/-- Entries at leading positions in a given order, and the others behind them where they are. -/
theorem toList_ofFn_place {β : Type} {rows : ℕ} (hle : rows ≤ R) {order : List (Fin rows)}
    (hlength : order.length = rows) (v : Vector β R) :
    (Vector.ofFn fun r => v.get (place hle order r)).toList
      = order.map (fun r => v.get (r.castLE hle)) ++ v.toList.drop rows := by
  refine List.ext_getElem (by simp; omega) fun i hi _ => ?_
  have hiR : i < R := by simpa using hi
  rw [List.getElem_append]
  split
  · rename_i hlt
    have hlt : i < order.length := by simpa using hlt
    simp [place_of_lt hle (r := ⟨i, hiR⟩) hlt]
  · rename_i hge
    have hge : ¬i < order.length := by simpa using hge
    simp [place_of_not_lt hle (r := ⟨i, hiR⟩) hge, Dense.get_eq_getElem]
    congr 1
    omega

/-- The order of the rows after dependent ones were moved. -/
theorem toList_rowOrder_removeDependentRows (s : EquationSystem R C α) :
    s.removeDependentRows.rowOrder.toList
      = s.moved.map (fun r => s.rowOrder.get (r.castLE s.rows_le))
        ++ s.rowOrder.toList.drop s.rows := by
  rw [removeDependentRows_eq]
  exact toList_ofFn_place s.rows_le (by simp [s.perm_moved.length_eq]) s.rowOrder

/-- The right sides go with their rows. -/
theorem toList_rhs_removeDependentRows (s : EquationSystem R C α) :
    s.removeDependentRows.rhs.toList
      = s.moved.map (fun r => s.rhs.get (r.castLE s.rows_le)) ++ s.rhs.toList.drop s.rows := by
  rw [removeDependentRows_eq]
  exact toList_ofFn_place s.rows_le (by simp [s.perm_moved.length_eq]) s.rhs

/-- **The active part is the selection of its independent rows.** -/
theorem activeCells_removeDependentRows (s : EquationSystem R C α) :
    s.removeDependentRows.activeCells
      = s.activeCells.selectRows (independentRows s.activeCells) := by
  obtain ⟨source, -, hfront, horder, -⟩ := s.exists_source
  refine Vector.ext fun r hr => Vector.ext fun c hc => ?_
  have hrow : s.removeDependentRows.rowOrder.get
      ((⟨r, hr⟩ : Fin s.removeDependentRows.rows).castLE s.removeDependentRows.rows_le)
        = s.rowOrder.get (((independentRows s.activeCells).get ⟨r, hr⟩).castLE s.rows_le) := by
    rw [horder]
    exact congrArg _ (hfront ⟨r, hr⟩)
  calc s.removeDependentRows.activeCells.entry ⟨r, hr⟩ ⟨c, hc⟩
      = s.removeDependentRows.cell ((⟨r, hr⟩ : Fin s.removeDependentRows.rows).castLE
          s.removeDependentRows.rows_le) ((⟨c, hc⟩ : Fin s.columns).castLE s.columns_le) :=
        entry_activeCells ..
    _ = s.cell (((independentRows s.activeCells).get ⟨r, hr⟩).castLE s.rows_le)
          ((⟨c, hc⟩ : Fin s.columns).castLE s.columns_le) := by
        unfold cell
        rw [hrow]
        rfl
    _ = s.activeCells.entry ((independentRows s.activeCells).get ⟨r, hr⟩) ⟨c, hc⟩ :=
        (s.entry_activeCells ..).symm
    _ = (s.activeCells.selectRows (independentRows s.activeCells)).entry ⟨r, hr⟩ ⟨c, hc⟩ := by
        unfold Dense.entry
        rw [Dense.get_selectRows]

/-- No position is lost, and none comes up twice. -/
theorem perm_rowOrder_removeDependentRows (s : EquationSystem R C α) :
    s.removeDependentRows.rowOrder.toList.Perm s.rowOrder.toList := by
  have hleading : (List.finRange s.rows).map (fun r => s.rowOrder.get (r.castLE s.rows_le))
      = s.rowOrder.toList.take s.rows := by
    refine List.ext_getElem (by simp [s.rows_le]) fun i hi _ => ?_
    simp [Dense.get_eq_getElem]
  calc s.removeDependentRows.rowOrder.toList
      = s.moved.map (fun r => s.rowOrder.get (r.castLE s.rows_le))
          ++ s.rowOrder.toList.drop s.rows := s.toList_rowOrder_removeDependentRows
    List.Perm _ (s.rowOrder.toList.take s.rows ++ s.rowOrder.toList.drop s.rows) := by
        rw [← hleading]
        exact (s.perm_moved.map _).append_right _
    _ = s.rowOrder.toList := List.take_append_drop ..

/-- A system of independent rows is left alone. -/
theorem removeDependentRows_of_full {s : EquationSystem R C α} (h : rank s.activeCells = s.rows) :
    s.removeDependentRows = s := by
  have hlength : (independentRows s.activeCells).length = s.rows :=
    (length_independentRows _).trans h
  have hmoved : s.moved = List.finRange s.rows := by
    rw [moved_eq, independentRows_eq_finRange h]
    simp
  have hplace : ∀ r : Fin R, place s.rows_le s.moved r = r := by
    intro r
    rw [hmoved]
    by_cases hr : r.val < s.rows
    · rw [place_of_lt s.rows_le (by simpa using hr)]
      exact Fin.ext (by simp)
    · rw [place_of_not_lt s.rows_le (by simpa using hr)]
  have hget : ∀ {β : Type} (v : Vector β R), (Vector.ofFn fun r => v.get r) = v := fun v =>
    Vector.ext fun i hi => by simp [Dense.get_eq_getElem]
  rw [removeDependentRows_eq]
  simp only [hplace, hget, hlength]

end EquationSystem

/-! ### Both -/

/-- **The two removals of dependent rows agree**, in every arithmetic.  Compaction in place leaves
those rows of an array that the mask marks, unmodified and in their order, as many as there are
marks.  Reordering makes them the active rows of a system, each with its right side; the rows that
are dropped come behind them, the inactive ones stay where they are, and the order of all rows stays
a permutation. -/
theorem compactions_agree {α : Type} [Scalar α] :
    (∀ {m n : ℕ} (a : Dense m n α),
      compactRows a = ((independenceMask a).toList.count true,
        (a.selectRows (independentRows a)).flat) ∧
      (a.selectRows (independentRows a)).toLists
        = ((List.finRange m).filter (independenceMask a).get).map fun r => (a.get r).toList) ∧
    ∀ {R C : ℕ} (s : EquationSystem R C α),
      (s.removeDependentRows.rows, s.removeDependentRows.activeCells.flat)
        = compactRows s.activeCells ∧
      s.removeDependentRows.cells = s.cells ∧
      s.removeDependentRows.columnOrder = s.columnOrder ∧
      s.removeDependentRows.columns = s.columns ∧
      s.removeDependentRows.rowOrder.toList
        = s.moved.map (fun r => s.rowOrder.get (r.castLE s.rows_le))
          ++ s.rowOrder.toList.drop s.rows ∧
      s.removeDependentRows.rhs.toList
        = s.moved.map (fun r => s.rhs.get (r.castLE s.rows_le)) ++ s.rhs.toList.drop s.rows ∧
      s.removeDependentRows.rowOrder.toList.Perm s.rowOrder.toList ∧
      (rank s.activeCells = s.rows → s.removeDependentRows = s) := by
  refine ⟨fun a => ⟨compactRows_eq a, Dense.toLists_selectRows a _⟩, fun s => ⟨?_, rfl, rfl, rfl,
    s.toList_rowOrder_removeDependentRows, s.toList_rhs_removeDependentRows,
    s.perm_rowOrder_removeDependentRows, EquationSystem.removeDependentRows_of_full⟩⟩
  rw [compactRows_eq, count_independenceMask, ← length_independentRows,
    EquationSystem.activeCells_removeDependentRows]
  rfl

end ElasticLayout
