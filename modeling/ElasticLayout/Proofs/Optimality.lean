import ElasticLayout.Proofs.LowerBound
import ElasticLayout.Proofs.Multipliers

/-!
# What the search ends with

A search ends in an iteration without a step in which no multiplier calls for a row to be dropped.
If the step is exactly zero, the gradient is a combination of the kept rows, and the multipliers of
its inequalities are not negative but for the tolerance.  The objective is convex, so that no point
on the right side of the kept rows is better, again but for the tolerance.

* `Problem.finalState?`, `Problem.iterate_eq_ok_iff`, `Problem.finalState?_induction` -- the last
  iteration of a search, and what it keeps;
* `Problem.nodup_finalState?` -- the working rows are distinct in all iterations;
* `Problem.leastMultiplier_le`, `Problem.advance_eq_none` -- what an optimal point has passed;
* `Problem.exists_prices` -- the gradient of such a point;
* `Problem.value_le_of_kept` -- the objective at a point, and at others that keep the same rows;
* `Problem.optimize_value_le` -- the same for the point that a search gives;
* `propped` -- a problem whose search stays where it starts.
-/

namespace ElasticLayout

open Linear

namespace Problem

variable {p : Problem ℝ} {f : Objective p.variableCount ℝ} {s t : State p} {x : p.Point}

/-! ### The last iteration -/

/-- The state whose point is found to be optimal within a number of iterations. -/
noncomputable def finalState? (p : Problem ℝ) (f : Objective p.variableCount ℝ) :
    ℕ → State p → Option (State p)
  | 0, _ => none
  | iterations + 1, s =>
    match p.advance f s with
    | .error _ => none
    | .ok none => some s
    | .ok (some (_, next)) => finalState? p f iterations next

/-- A search gives the point of its last state. -/
theorem iterate_eq_ok_iff {limit iterations : ℕ} :
    p.iterate f limit iterations s = .ok x ↔
      ∃ t, p.finalState? f iterations s = some t ∧ t.point = x := by
  induction iterations generalizing s with
  | zero => simp [iterate, finalState?]
  | succ iterations ih =>
    unfold iterate finalState?
    cases p.advance f s with
    | error e => simp
    | ok outcome =>
      cases outcome with
      | none => simp
      | some result => exact ih

/-- **What every iteration keeps, the search keeps**, and its last iteration finds nothing to do. -/
theorem finalState?_induction {P : State p → Prop}
    (keeps : ∀ {s t : State p} {move : Move p}, p.advance f s = .ok (some (move, t)) → P s → P t)
    {iterations : ℕ} (h : p.finalState? f iterations s = some t) (hs : P s) :
    P t ∧ p.advance f t = .ok none := by
  induction iterations generalizing s with
  | zero => exact absurd h (by simp [finalState?])
  | succ iterations ih =>
    unfold finalState? at h
    split at h
    · exact absurd h (by simp)
    · rename_i hnone
      obtain rfl := Option.some.inj h
      exact ⟨hs, hnone⟩
    · rename_i move next hadvance
      exact ih h (keeps hadvance hs)

/-- The last iteration finds nothing to do. -/
theorem advance_finalState? {iterations : ℕ} (h : p.finalState? f iterations s = some t) :
    p.advance f t = .ok none :=
  (finalState?_induction (P := fun _ => True) (fun _ _ => trivial) h trivial).2

/-! ### Distinct working rows -/

/-- A search keeps the working rows distinct. -/
theorem nodup_finalState? {iterations : ℕ} (h : p.finalState? f iterations s = some t)
    (hs : s.working.Nodup) : t.working.Nodup :=
  (finalState?_induction (P := fun s => s.working.Nodup) nodup_advance h hs).1

/-- The rows that a step keeps are distinct. -/
theorem nodup_stepFrom? {kept : List p.Row} {step : p.Point} (hs : s.working.Nodup)
    (h : p.stepFrom? f s = some (kept, step)) : kept.Nodup := by
  obtain ⟨rows, -, h⟩ := Option.bind_eq_some_iff.1 h
  dsimp only at h
  split at h
  · obtain ⟨rfl, -⟩ := Prod.mk.inj (Option.some.inj h)
    exact ((List.nodup_finRange _).filter _).map (List.nodup_iff_injective_get.1 hs)
  · exact absurd h (by simp)

/-! ### Multipliers -/

/-- The least multiplier is the least one of the inequalities. -/
theorem leastMultiplier_le {working : List p.Row} {priced : List (Fin working.length × ℝ)}
    {place : Fin working.length} {price : ℝ} (hmem : (place, price) ∈ priced)
    (hrow : (p.row (working.get place)).isEquality = false) :
    (p.leastMultiplier working priced).1 ≤ price := by
  have hprice : p.dropPrice? working (place, price) = some price :=
    dropPrice?_eq_some_iff.2 ⟨hrow, rfl⟩
  rw [leastMultiplier_eq]
  exact foldl_takeLess_le hmem hprice _ _

/-- Without a row to drop the least multiplier is zero. -/
theorem leastMultiplier_eq_zero {working : List p.Row}
    {priced : List (Fin working.length × ℝ)}
    (h : (p.leastMultiplier working priced).2 = none) :
    (p.leastMultiplier working priced).1 = 0 := by
  obtain hkept | ⟨q, -, -, -, htaken⟩ := leastMultiplier_cases working priced
  · rw [hkept]
  · rw [htaken] at h
    exact absurd h (by simp)

/-- **What an optimal point has passed**: it has a step that is zero within the tolerance, and no
inequality among the kept rows has a multiplier below the tolerance. -/
theorem advance_eq_none (h : p.advance f s = .ok none) :
    ∃ rows step prices, p.workingArray? s.working = some rows ∧
      descent f (rows.selectRows (independentRows rows)) (f.gradient s.point) = .ok step ∧
      multipliers (rows.selectRows (independentRows rows)) (f.gradient s.point) = .ok prices ∧
      ∀ i, (p.row (s.working.get ((independentRows rows).get i))).isEquality = false →
        -Scalar.tolerance < prices.get i := by
  unfold advance at h
  split at h
  · exact absurd h (by simp)
  rename_i rows hrows
  obtain ⟨step, hstep, h⟩ := bind_ok h
  dsimp only at h
  split at h
  · obtain ⟨prices, hprices, h⟩ := bind_ok h
    refine ⟨rows, step, prices, hrows, hstep, hprices, fun i hi => ?_⟩
    have hpriced : ((independentRows rows).get i, prices.get i)
        ∈ (independentRows rows).zip prices.toList := by
      rw [zip_toList_eq_map]
      exact List.mem_map.2 ⟨i, List.mem_finRange i, rfl⟩
    have hle := leastMultiplier_le hpriced hi
    split at h
    · rename_i least place hleast
      split at h
      · rename_i hnear
        rw [Scalar.near_iff, sub_zero, abs_lt] at hnear
        rw [hleast] at hle
        rw [Scalar.tolerance_eq]
        linarith
      · exact absurd (Except.ok.inj h) (by simp)
    · rename_i least hleast
      rw [leastMultiplier_eq_zero (congrArg Prod.snd hleast)] at hle
      rw [Scalar.tolerance_eq]
      linarith
  · split at h <;> exact absurd (Except.ok.inj h) (by simp)

/-! ### The objective at an optimal point -/

/-- How much further than one point another is on the side of a row. -/
noncomputable def gain (p : Problem ℝ) (r : p.Row) (x y : p.Point) : ℝ :=
  (p.row r).signedValue y.toList - (p.row r).signedValue x.toList

/-- The other point keeps a row as the one point does: an equality has the same value, and an
inequality has no less. -/
def KeepsRow (p : Problem ℝ) (r : p.Row) (x y : p.Point) : Prop :=
  if (p.row r).isEquality then (p.row r).value y.toList = (p.row r).value x.toList
  else (p.row r).signedValue x.toList ≤ (p.row r).signedValue y.toList

/-- The gain on the inequalities among the rows kept. -/
noncomputable def inequalityGain (p : Problem ℝ) (kept : List p.Row) (x y : p.Point) : ℝ :=
  ∑ r ∈ kept.toFinset with (p.row r).isEquality = false, p.gain r x y

theorem KeepsRow.gain_eq_zero {r : p.Row} {y : p.Point} (h : p.KeepsRow r x y)
    (hr : (p.row r).isEquality = true) : p.gain r x y = 0 := by
  unfold KeepsRow at h
  rw [if_pos hr] at h
  unfold gain HardRow.signedValue
  rw [h, sub_self]

theorem KeepsRow.gain_nonneg {r : p.Row} {y : p.Point} (h : p.KeepsRow r x y)
    (hr : (p.row r).isEquality = false) : 0 ≤ p.gain r x y := by
  unfold KeepsRow at h
  rw [hr, if_neg (by simp)] at h
  exact sub_nonneg.2 h

/-- Distinct rows contribute once each. -/
theorem inequalityGain_eq_sum {kept : List p.Row} (hkept : kept.Nodup) (x y : p.Point) :
    p.inequalityGain kept x y
      = ∑ i : Fin kept.length, if (p.row kept[i]).isEquality then 0 else p.gain kept[i] x y := by
  unfold inequalityGain
  rw [Finset.sum_filter, List.sum_toFinset _ hkept, sum_map_eq_sum rfl]
  refine Finset.sum_congr rfl fun i _ => ?_
  cases (p.row kept[i]).isEquality <;> rfl

/-- **The gradient of an optimal point without a step**: along the way to another point it is made
up of the gains on the kept rows, with prices that are not negative on the inequalities but for the
tolerance. -/
theorem exists_prices (hfits : p.RowsFit) (h : p.advance f s = .ok none) {kept : List p.Row}
    {step : p.Point} (hstep : p.stepFrom? f s = some (kept, step))
    (hzero : ∀ j, step.get j = 0) :
    ∃ prices : Fin kept.length → ℝ,
      (∀ i, (p.row kept[i]).isEquality = false → -Scalar.tolerance < prices i) ∧
      ∀ y : p.Point, ∑ j, (f.gradient s.point).get j * (y.get j - s.point.get j)
        = ∑ i : Fin kept.length, prices i * p.gain kept[i] s.point y := by
  obtain ⟨rows, found, prices, hrows, hdescent, hprices, hleast⟩ := advance_eq_none h
  have hfound : p.stepFrom? f s = some ((independentRows rows).map s.working.get, found) := by
    unfold stepFrom?
    rw [hrows, Option.bind_some]
    dsimp only
    rw [hdescent]
  obtain ⟨rfl, rfl⟩ := Prod.mk.inj (Option.some.inj (hfound.symm.trans hstep))
  have hcount : ((independentRows rows).map s.working.get).length
      = (independentRows rows).length := List.length_map _
  refine ⟨fun i => prices.get (i.cast hcount), fun i hi => hleast _ ?_, fun y => ?_⟩
  · rw [← hi, List.get_eq_getElem, Fin.getElem_fin, List.getElem_map]
    rfl
  · have hgain : ∀ i : Fin (independentRows rows).length,
        p.gain (s.working.get ((independentRows rows).get i)) s.point y
          = ∑ j, (rows.selectRows (independentRows rows)).entry i j
              * (y.get j - s.point.get j) := by
      intro i
      unfold gain
      rw [← sum_workingArray? hfits hrows, ← sum_workingArray? hfits hrows,
        ← Finset.sum_sub_distrib]
      refine Finset.sum_congr rfl fun j _ => ?_
      rw [← mul_sub]
      unfold Dense.entry
      rw [Dense.get_selectRows]
    calc ∑ j, (f.gradient s.point).get j * (y.get j - s.point.get j)
        = ∑ j, (∑ i, (rows.selectRows (independentRows rows)).entry i j * prices.get i)
            * (y.get j - s.point.get j) := by
          simp only [sum_multipliers hdescent hzero hprices]
      _ = ∑ i, prices.get i * p.gain (s.working.get ((independentRows rows).get i)) s.point y := by
          simp only [hgain, Finset.sum_mul, Finset.mul_sum]
          rw [Finset.sum_comm]
          refine Finset.sum_congr rfl fun i _ => Finset.sum_congr rfl fun j _ => ?_
          ring
      _ = _ := by
          refine Fintype.sum_equiv (finCongr hcount.symm) _ _ fun i => ?_
          simp

/-- **An optimal point without a step is no worse than a point that keeps the same rows**, but for
the tolerance times the gain on the inequalities. -/
theorem value_le_of_kept (hfits : p.RowsFit) (hf : p.objective? = some f)
    (hworking : s.working.Nodup) (h : p.advance f s = .ok none) {kept : List p.Row}
    {step : p.Point} (hstep : p.stepFrom? f s = some (kept, step)) (hzero : ∀ j, step.get j = 0)
    {y : p.Point} (hy : ∀ r ∈ kept, p.KeepsRow r s.point y) :
    f.value s.point - Scalar.tolerance * p.inequalityGain kept s.point y ≤ f.value y := by
  obtain ⟨w, g, hg, -, hgram, -⟩ := objective?_eq hfits
  obtain rfl := Option.some.inj (hf.symm.trans hg)
  obtain ⟨prices, hleast, hslope⟩ := exists_prices hfits h hstep hzero
  have hterm : ∀ i : Fin kept.length, -(Scalar.tolerance
      * (if (p.row kept[i]).isEquality then 0 else p.gain kept[i] s.point y))
        ≤ prices i * p.gain kept[i] s.point y := by
    intro i
    have hi := hy kept[i] (List.getElem_mem _)
    cases hr : (p.row kept[i]).isEquality with
    | true => rw [hi.gain_eq_zero hr, if_pos rfl, mul_zero, mul_zero, neg_zero]
    | false =>
      rw [if_neg (by simp), ← neg_mul]
      exact mul_le_mul_of_nonneg_right (hleast i hr).le (hi.gain_nonneg hr)
  calc f.value s.point - Scalar.tolerance * p.inequalityGain kept s.point y
      = f.value s.point + ∑ i : Fin kept.length, -(Scalar.tolerance
          * (if (p.row kept[i]).isEquality then 0 else p.gain kept[i] s.point y)) := by
        rw [inequalityGain_eq_sum (nodup_stepFrom? hworking hstep), Finset.sum_neg_distrib,
          ← Finset.mul_sum, sub_eq_add_neg]
    _ ≤ f.value s.point + ∑ i : Fin kept.length, prices i * p.gain kept[i] s.point y :=
        add_le_add le_rfl (Finset.sum_le_sum fun i _ => hterm i)
    _ = f.value s.point + ∑ j, (f.gradient s.point).get j * (y.get j - s.point.get j) := by
        rw [hslope]
    _ ≤ f.value y := Objective.tangent_le_value hgram _ _

/-- **A search ends with a point that is no worse than the points that keep the same rows.**  The
rows are those that the last iteration keeps, and its step has to be zero. -/
theorem optimize_value_le (hfits : p.RowsFit) {start : p.Point} {maxIterations : ℕ}
    (h : p.optimize start maxIterations = .ok x) :
    ∃ f s kept step, p.objective? = some f ∧
      p.finalState? f maxIterations (p.startAt start) = some s ∧ s.point = x ∧
      p.stepFrom? f s = some (kept, step) ∧
      ((∀ j, step.get j = 0) → ∀ y : p.Point, (∀ r ∈ kept, p.KeepsRow r x y) →
        f.value x - Scalar.tolerance * p.inequalityGain kept x y ≤ f.value y) := by
  unfold optimize at h
  split at h
  · exact absurd h (by simp)
  rename_i f hf
  obtain ⟨s, hs, rfl⟩ := iterate_eq_ok_iff.1 h
  have hnone := advance_finalState? hs
  obtain ⟨rows, step, -, hrows, hdescent, -⟩ := advance_eq_none hnone
  have hstep : p.stepFrom? f s = some ((independentRows rows).map s.working.get, step) := by
    unfold stepFrom?
    rw [hrows, Option.bind_some]
    dsimp only
    rw [hdescent]
  have hworking : s.working.Nodup :=
    nodup_finalState? hs ((List.nodup_finRange _).filter _)
  exact ⟨f, s, _, step, hf, hs, rfl, hstep, fun hzero y hy =>
    value_le_of_kept hfits hf hworking hnone hstep hzero hy⟩

end Problem

/-- A variable that is kept at least zero and should be minus one. -/
noncomputable def propped : Problem ℝ where
  variableCount := 1
  hard := [⟨[1], .ge, 0⟩]
  soft := [⟨[1], -1, 1⟩]

namespace Problem

/-- The row that keeps the variable up. -/
def prop : propped.Row := (0 : Fin 1)

theorem rowsFit_propped : propped.RowsFit where
  hard := by simp [propped]
  soft := by simp [propped]

theorem signedValue_prop (x : propped.Point) :
    (propped.row prop).signedValue x.toList = x.get (0 : Fin 1) :=
  signedValue_foot (b := 0) x

/-- The objective does not lead away from the row at zero. -/
theorem gradient_propped {f : Objective propped.variableCount ℝ}
    (hf : propped.objective? = some f) (j : Fin propped.variableCount) :
    0 ≤ (f.gradient (Vector.replicate propped.variableCount 0)).get j := by
  refine gradient_nonneg_of_one rowsFit_propped rfl (fun row hrow => ?_) hf (fun j => ?_) j
  · rw [List.mem_singleton.1 hrow]
    norm_num
  · simp [Vector.get]

theorem startAt_propped : propped.startAt (Vector.replicate propped.variableCount 0)
    = ⟨Vector.replicate propped.variableCount 0, [prop]⟩ :=
  startAt_above (b := 0)

theorem optimize_propped : propped.optimize (Vector.replicate propped.variableCount 0) 1
    = .ok (Vector.replicate propped.variableCount 0) := by
  refine optimize_above (b := 0) le_rfl rowsFit_propped (fun row hrow => ?_) 0
  rw [List.mem_singleton.1 hrow]
  norm_num

/-- At zero the objective is no worse than at what is larger, but for the tolerance. -/
theorem optimize_value_le_propped : propped.RowsFit ∧
    propped.optimize (Vector.replicate propped.variableCount 0) 1
      = .ok (Vector.replicate propped.variableCount 0) ∧
    ∃ f, propped.objective? = some f ∧ ∀ y : propped.Point, 0 ≤ y.get (0 : Fin 1) →
      f.value (Vector.replicate propped.variableCount 0)
        - Scalar.tolerance * y.get (0 : Fin 1) ≤ f.value y := by
  refine ⟨rowsFit_propped, optimize_propped, ?_⟩
  obtain ⟨f, s, kept, step, hf, hs, -, hstep, hle⟩ :=
    optimize_value_le rowsFit_propped optimize_propped
  obtain ⟨hzero, hnone⟩ := advance_of_one (r := prop) rowsFit_propped rfl (one_mul 1) f
    (Vector.replicate propped.variableCount 0)
  have hs' : s = ⟨Vector.replicate propped.variableCount 0, [prop]⟩ := by
    rw [startAt_propped] at hs
    unfold finalState? at hs
    rw [hnone (.inr (gradient_propped hf))] at hs
    exact (Option.some.inj hs).symm
  rw [hs', hzero] at hstep
  obtain ⟨rfl, rfl⟩ := Prod.mk.inj (Option.some.inj hstep)
  refine ⟨f, hf, fun y hy => ?_⟩
  have hgain : propped.gain prop (Vector.replicate propped.variableCount 0) y
      = y.get (0 : Fin 1) := by
    unfold gain
    rw [signedValue_prop, signedValue_prop]
    exact sub_zero _
  have hequality : (propped.row prop).isEquality = false := rfl
  have hsum : propped.inequalityGain [prop] (Vector.replicate propped.variableCount 0) y
      = y.get (0 : Fin 1) := by
    rw [inequalityGain_eq_sum (List.nodup_singleton _), ← hgain]
    exact (Fin.sum_univ_one _).trans (if_neg (by simp [hequality]))
  rw [← hsum]
  refine hle (fun j => by simp) y fun r hr => ?_
  rw [List.mem_singleton.1 hr]
  unfold KeepsRow
  rw [hequality, if_neg (by simp), signedValue_prop, signedValue_prop]
  exact hy

end Problem

end ElasticLayout
