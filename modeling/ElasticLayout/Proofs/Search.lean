import ElasticLayout.Proofs.NullSpace
import ElasticLayout.Proofs.WorkingSet

/-!
# What a step of the search does to the hard rows

A step keeps the independent working rows, and its length keeps the inequalities outside the working
set that it approaches fast enough.  Of the other rows nothing is known: a working row that depends
on others but for the tolerance, and an inequality that the step approaches by less than the
tolerance, may be left behind.

* `Problem.leastMultiplier_cases` -- the row that is dropped;
* `Problem.stepFrom?`, `Problem.advance_ok` -- the step of an iteration, and what it does;
* `Problem.signedValue_stepFrom?` -- the kept rows have slope zero;
* `Problem.Overlooks`, `Problem.SearchOverlooks` -- what may be left behind;
* `Problem.isSatisfied_advance`, `Problem.isSatisfied_iterate` -- nothing else is.
-/

namespace ElasticLayout

open Linear

namespace Problem

variable {p : Problem ℝ} {f : Objective p.variableCount ℝ} {s t : State p} {r : p.Row}

/-! ### The step of an iteration -/

/-- The working rows that the step of a state keeps, and the step. -/
noncomputable def stepFrom? (p : Problem ℝ) (f : Objective p.variableCount ℝ) (s : State p) :
    Option (List p.Row × p.Point) :=
  (p.workingArray? s.working).bind fun rows =>
    let kept := independentRows rows
    match descent f (rows.selectRows kept) (f.gradient s.point) with
    | .ok step => some (kept.map s.working.get, step)
    | .error _ => none

/-- Nothing is to be dropped, or an inequality with a negative multiplier. -/
theorem leastMultiplier_cases (working : List p.Row) (priced : List (Fin working.length × ℝ)) :
    p.leastMultiplier working priced = (0, none) ∨ ∃ q ∈ priced,
      (p.row (working.get q.1)).isEquality = false ∧ q.2 < 0 ∧
        p.leastMultiplier working priced = (q.2, some q.1) := by
  rw [leastMultiplier_eq]
  obtain hkept | ⟨q, hq, price, hprice, hless, htaken⟩ :=
    foldl_takeLess_cases _ Prod.fst priced (0, none)
  · exact .inl hkept
  · obtain ⟨hrow, rfl⟩ := dropPrice?_eq_some_iff.1 hprice
    exact .inr ⟨q, hq, hrow, hless, htaken⟩

/-- **What an iteration does**: it drops an inequality from the working set, or it goes a fraction
of the step and takes in the row that blocks it. -/
theorem advance_ok {move : Move p} (h : p.advance f s = .ok (some (move, t))) :
    ∃ kept step, p.stepFrom? f s = some (kept, step) ∧
      ((t.point = s.point ∧ ∃ place : Fin s.working.length,
        (p.row (s.working.get place)).isEquality = false ∧
          t.working = s.working.eraseIdx place) ∨
      (t.point = s.point.zipWith
        (fun x d => x + (p.stepLength s.point step s.working).1 * d) step ∧
          t.working = s.working ++ (p.stepLength s.point step s.working).2.toList)) := by
  obtain ⟨rows, step, hrows, hstep, hadvances⟩ := advances_of_advance h
  refine ⟨(independentRows rows).map s.working.get, step, ?_, ?_⟩
  · unfold stepFrom?
    rw [hrows, Option.bind_some]
    dsimp only
    rw [hstep]
  cases hadvances with
  | drop prices solved k isInequality => exact .inl ⟨rfl, _, isInequality, rfl⟩
  | block row blocks => exact .inr ⟨rfl, by rw [blocks]; rfl⟩
  | full free => exact .inr ⟨rfl, by rw [free]; exact (List.append_nil _).symm⟩

/-! ### Kept rows -/

theorem dot_signedCoefficients (r : p.Row) (x : List ℝ) :
    dot (p.signedCoefficients r) x = (p.row r).signedValue x := by
  unfold signedCoefficients HardRow.signedValue HardRow.value
  rw [← dot_map_mul]
  simp only [mul_comm]

/-- What a working row does to a point. -/
theorem sum_workingArray? (hfits : p.RowsFit) {working : List p.Row}
    {rows : Dense working.length p.variableCount ℝ} (h : p.workingArray? working = some rows)
    (i : Fin working.length) (x : p.Point) :
    ∑ j, rows.entry i j * x.get j = (p.row (working.get i)).signedValue x.toList := by
  obtain ⟨laid, hlaid, hentry⟩ := exists_workingArray? hfits working
  obtain rfl := Option.some.inj (h.symm.trans hlaid)
  rw [← dot_signedCoefficients, dot_getD]
  simp only [hentry]

/-- **The kept rows have slope zero.** -/
theorem signedValue_stepFrom? (hfits : p.RowsFit) {kept : List p.Row} {step : p.Point}
    (h : p.stepFrom? f s = some (kept, step)) (hr : r ∈ kept) :
    (p.row r).signedValue step.toList = 0 := by
  obtain ⟨rows, hrows, h⟩ := Option.bind_eq_some_iff.1 h
  dsimp only at h
  split at h
  · rename_i d hd
    obtain ⟨rfl, rfl⟩ := Prod.mk.inj (Option.some.inj h)
    obtain ⟨place, hplace, rfl⟩ := List.mem_map.1 hr
    obtain ⟨i, hi, rfl⟩ := List.mem_iff_getElem.1 hplace
    have hzero := descent_orthogonal hd ⟨i, hi⟩
    have hentry : ∀ j, (rows.selectRows (independentRows rows)).entry ⟨i, hi⟩ j
        = (rows.get (independentRows rows)[i]).get j := by
      intro j
      unfold Dense.entry
      rw [Dense.get_selectRows]
      rfl
    simp only [hentry] at hzero
    rw [← sum_workingArray? hfits hrows]
    exact hzero
  · exact absurd h (by simp)

/-! ### Rows left behind -/

/-- An iteration overlooks a row if it leads away from the row, and neither keeps nor watches it:
the row is in the working set, or its slope passes for zero. -/
structure Overlooks (p : Problem ℝ) (f : Objective p.variableCount ℝ) (s : State p) (r : p.Row) :
    Prop where
  unwatched : ∃ kept step, p.stepFrom? f s = some (kept, step) ∧ r ∉ kept ∧
    (r ∈ s.working ∨ Scalar.near ((p.row r).signedValue step.toList) 0 = true)
  away : ∃ move t, p.advance f s = .ok (some (move, t)) ∧
    if (p.row r).isEquality then (p.row r).excess t.point.toList ≠ (p.row r).excess s.point.toList
    else (p.row r).excess t.point.toList < (p.row r).excess s.point.toList

/-- Some iteration of the search from a state overlooks a row. -/
inductive SearchOverlooks (p : Problem ℝ) (f : Objective p.variableCount ℝ) (r : p.Row) :
    State p → Prop where
  | now {s : State p} : p.Overlooks f s r → SearchOverlooks p f r s
  | later {s t : State p} {move : Move p} : p.advance f s = .ok (some (move, t)) →
    SearchOverlooks p f r t → SearchOverlooks p f r s

/-- **An iteration keeps every row that it does not overlook.** -/
theorem isSatisfied_advance (hfull : p.IsFull) {move : Move p}
    (h : p.advance f s = .ok (some (move, t)))
    (hequality : (p.row r).isEquality = true → r ∈ s.working) (hseen : ¬p.Overlooks f s r)
    (hs : (p.row r).isSatisfied s.point.toList Scalar.tolerance = true) :
    (p.row r).isSatisfied t.point.toList Scalar.tolerance = true := by
  obtain ⟨kept, step, hstep, ⟨hpoint, -⟩ | ⟨hpoint, -⟩⟩ := advance_ok h
  · rw [hpoint]
    exact hs
  by_cases hkept : r ∈ kept
  · refine HardRow.isSatisfied_of_eq hs ?_
    rw [hpoint, HardRow.excess_move, signedValue_stepFrom? hfull.rowsFit hstep hkept, mul_zero,
      add_zero]
  by_cases hwatched : r ∈ s.working ∨ Scalar.near ((p.row r).signedValue step.toList) 0 = true
  · have htowards : ¬if (p.row r).isEquality
        then (p.row r).excess t.point.toList ≠ (p.row r).excess s.point.toList
        else (p.row r).excess t.point.toList < (p.row r).excess s.point.toList :=
      fun haway => hseen ⟨⟨kept, step, hstep, hkept, hwatched⟩, move, t, h, haway⟩
    cases hr : (p.row r).isEquality with
    | true =>
      rw [hr, if_pos rfl, not_not] at htowards
      exact HardRow.isSatisfied_of_eq hs htowards
    | false =>
      rw [hr, if_neg (by simp), not_lt] at htowards
      exact HardRow.isSatisfied_of_le hr hs htowards
  · obtain ⟨hworking, hslope⟩ := not_or.1 hwatched
    rw [hpoint]
    refine isSatisfied_of_watched ?_ hworking (by simpa using hslope) hs
    exact Bool.eq_false_iff.2 fun hr => hworking (hequality hr)

/-- **A search keeps every row that it does not overlook.** -/
theorem isSatisfied_iterate (hfull : p.IsFull) {limit iterations : ℕ} {x : p.Point}
    (h : p.iterate f limit iterations s = .ok x)
    (hequality : (p.row r).isEquality = true → r ∈ s.working) (hseen : ¬p.SearchOverlooks f r s)
    (hs : (p.row r).isSatisfied s.point.toList Scalar.tolerance = true) :
    (p.row r).isSatisfied x.toList Scalar.tolerance = true := by
  induction iterations generalizing s with
  | zero => exact absurd h (by simp [iterate])
  | succ iterations ih =>
    unfold iterate at h
    split at h
    · exact absurd h (by simp)
    · obtain rfl := Except.ok.inj h
      exact hs
    · rename_i move next hadvance
      exact ih h (fun hr => mem_working_advance hadvance hr (hequality hr))
        (fun hlater => hseen (.later hadvance hlater))
        (isSatisfied_advance hfull hadvance hequality (fun hnow => hseen (.now hnow)) hs)

/-- A search that starts at a point keeps every row that it does not overlook. -/
theorem isSatisfied_optimize (hfull : p.IsFull) {start x : p.Point} {maxIterations : ℕ}
    (hf : p.objective? = some f) (h : p.optimize start maxIterations = .ok x)
    (hseen : ¬p.SearchOverlooks f r (p.startAt start))
    (hstart : (p.row r).isSatisfied start.toList Scalar.tolerance = true) :
    (p.row r).isSatisfied x.toList Scalar.tolerance = true := by
  unfold optimize at h
  rw [hf] at h
  refine isSatisfied_iterate hfull h (fun hr => ?_) hseen hstart
  refine List.mem_filter.2 ⟨List.mem_finRange r, ?_⟩
  rw [hr, Bool.true_or]

end Problem

end ElasticLayout
