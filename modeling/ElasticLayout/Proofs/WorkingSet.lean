import ElasticLayout.Proofs.RowLayout
import ElasticLayout.Proofs.Shapes
import ElasticLayout.Proofs.StepLength

/-!
# The working set

A search carries positions around: the working rows in the order in which they came in, the mask of
the independent ones, and a multiplier for each row that the mask keeps.  What is said here of rows
and positions holds in every arithmetic, however scalars compare, so also where a coefficient is not
a number.

* `strictMono_independentRows` -- the places that a mask keeps, in their order;
* `exists_system_of_multipliers` -- the unknowns of the system that multipliers solve;
* `Problem.Aligned`, `Problem.aligned_of_multipliers` -- each multiplier belongs to a kept row;
* `Problem.Advances`, `Problem.advances_of_advance` -- what an iteration does;
* `State.Proper`, `State.Proper.advance`, `State.Proper.stateAt?` -- the invariant;
* `Problem.stateAt?`, `Problem.iterate_add` -- the state at the top of an iteration;
* `Problem.working_set_aligned` -- the main result.
-/

namespace ElasticLayout

open Linear

variable {α : Type} [Scalar α]

/-! ### Kept rows -/

namespace Linear

variable {m n : ℕ}

/-- The independent rows keep their order. -/
theorem strictMono_independentRows (a : Dense m n α) : StrictMono (independentRows a).get :=
  fun i j hij =>
    List.pairwise_iff_get.1 ((List.pairwise_lt_finRange m).filter (independenceMask a).get) i j hij

end Linear

/-- The multipliers of the rows of an array solve a system with one unknown for each row.  Its
equations are taken from as many columns. -/
theorem exists_system_of_multipliers {k n : ℕ} {a : Dense k n α} {gradient : Vector α n}
    {prices : Vector α k} (h : multipliers a gradient = .ok prices) :
    ∃ (columns : Fin k → Fin n) (system : Dense k k α) (rhs : Vector α k), StrictMono columns ∧
      solve system rhs = .ok prices ∧ (∀ i l, system.entry i l = a.entry l (columns i)) ∧
      ∀ i, rhs.get i = gradient.get (columns i) := by
  unfold multipliers at h
  dsimp only at h
  split at h
  · rename_i hcount
    refine ⟨fun i => (independentRows a.transpose).get (i.cast hcount), _, _, fun i j hij => ?_, h,
      fun i l => ?_, fun i => ?_⟩
    · exact strictMono_independentRows a.transpose hij
    · refine Eq.trans ?_ (Dense.entry_transpose a l _)
      simp [Dense.entry, Dense.get_eq_getElem]
    · simp [Dense.get_eq_getElem]
  · exact absurd h (by simp)

namespace Problem

variable {p : Problem α} {f : Objective p.variableCount α} {s t : State p} {r : p.Row}

/-! ### The drop test -/

/-- The price at which the row of a multiplier may be dropped: that of an inequality. -/
def dropPrice? (p : Problem α) (working : List p.Row) (q : Fin working.length × α) : Option α :=
  if (p.row (working.get q.1)).isEquality then none else some q.2

omit [Scalar α] in
theorem dropPrice?_eq_some_iff {working : List p.Row} {q : Fin working.length × α} {price : α} :
    p.dropPrice? working q = some price
      ↔ (p.row (working.get q.1)).isEquality = false ∧ q.2 = price := by
  unfold dropPrice?
  cases (p.row (working.get q.1)).isEquality <;> simp

theorem leastMultiplier_eq (working : List p.Row) (priced : List (Fin working.length × α)) :
    p.leastMultiplier working priced
      = priced.foldl (takeLess (p.dropPrice? working) Prod.fst) (0, none) := by
  unfold leastMultiplier
  refine congrArg (fun g => priced.foldl g (0, none)) (funext₂ fun best q => ?_)
  unfold takeLess dropPrice?
  dsimp only
  split
  · rfl
  · rfl

/-- The drop test takes nothing, or an inequality with its own multiplier. -/
theorem leastMultiplier_mem (working : List p.Row) (priced : List (Fin working.length × α)) :
    p.leastMultiplier working priced = (0, none) ∨ ∃ q ∈ priced,
      (p.row (working.get q.1)).isEquality = false ∧
        p.leastMultiplier working priced = (q.2, some q.1) := by
  rw [leastMultiplier_eq]
  obtain hkept | ⟨q, hq, price, hprice, htaken⟩ :=
    foldl_takeLess_mem (p.dropPrice? working) Prod.fst priced (0, none)
  · exact .inl hkept
  · obtain ⟨hrow, rfl⟩ := dropPrice?_eq_some_iff.1 hprice
    exact .inr ⟨q, hq, hrow, htaken⟩

/-- A list and as many values, entry by entry. -/
theorem zip_toList_eq_map {ι β : Type} (is : List ι) (values : Vector β is.length) :
    is.zip values.toList = (List.finRange is.length).map fun k => (is.get k, values.get k) := by
  refine List.ext_getElem (by simp) fun k hk _ => ?_
  simp [Dense.get_eq_getElem]

/-- The multipliers of a drop test belong to the working rows that the mask keeps, one by one. -/
structure Aligned (p : Problem α) (f : Objective p.variableCount α) (s : State p)
    (rows : Dense s.working.length p.variableCount α)
    (prices : Vector α (independentRows rows).length) : Prop where
  /-- At each place of the array stand the coefficients of the working row at that place. -/
  coefficients : ∀ place (j : Fin p.variableCount) c,
    (p.signedCoefficients (s.working.get place))[j.val]? = some c → rows.entry place j = c
  /-- The kept places are those that the mask keeps. -/
  kept : ∀ place, place ∈ independentRows rows ↔ (independenceMask rows).get place = true
  /-- They keep their order. -/
  ascending : StrictMono (independentRows rows).get
  /-- The `k`-th multiplier is the unknown whose coefficients are entries of the `k`-th kept row. -/
  system : ∃ (columns : Fin (independentRows rows).length → Fin p.variableCount)
    (system : Dense _ (independentRows rows).length α) (rhs : Vector α _), StrictMono columns ∧
    Linear.solve system rhs = .ok prices ∧
    (∀ i k, system.entry i k = rows.entry ((independentRows rows).get k) (columns i)) ∧
    ∀ i, rhs.get i = (f.gradient s.point).get (columns i)
  /-- The test compares them in this order, each as the price of its own row, and passes over the
  equalities. -/
  scan : p.leastMultiplier s.working ((independentRows rows).zip prices.toList)
    = (List.finRange (independentRows rows).length).foldl (takeLess (fun k =>
        if (p.row (s.working.get ((independentRows rows).get k))).isEquality then none
        else some (prices.get k)) (independentRows rows).get) (0, none)

/-- **Every multiplier belongs to its row**, for every mask and every order of the working rows. -/
theorem aligned_of_multipliers {rows : Dense s.working.length p.variableCount α}
    (hrows : p.workingArray? s.working = some rows)
    {prices : Vector α (independentRows rows).length}
    (hprices : multipliers (rows.selectRows (independentRows rows)) (f.gradient s.point)
      = .ok prices) : p.Aligned f s rows prices where
  coefficients _ _ _ hc := entry_workingArray? hrows hc
  kept _ := mem_independentRows_iff
  ascending := strictMono_independentRows rows
  system := by
    obtain ⟨columns, system, rhs, hcolumns, hsolve, hsystem, hrhs⟩ :=
      exists_system_of_multipliers hprices
    refine ⟨columns, system, rhs, hcolumns, hsolve, fun i k => ?_, hrhs⟩
    rw [hsystem]
    unfold Dense.entry
    rw [Dense.get_selectRows]
  scan := by
    rw [leastMultiplier_eq, zip_toList_eq_map, List.foldl_map]
    rfl

/-! ### One iteration -/

/-- Only an inequality outside the working set blocks a step. -/
theorem free_of_blocking {point step : p.Point} {working : List p.Row}
    (h : (p.stepLength point step working).2 = some r) :
    (p.row r).isEquality = false ∧ r ∉ working := by
  have hscan : (p.leastRoom point step working).2 = some r := h
  obtain hkept | ⟨q, hq, _, -, htaken⟩ := foldl_takeLess_mem
    (fun r => roomFor? (p.row r) point.toList step.toList) id
    ((List.finRange p.hard.length).filter fun r =>
      !((p.row r).isEquality || working.contains r)) (1, none)
  · rw [leastRoom, hkept] at hscan
    exact absurd hscan (by simp)
  · rw [leastRoom, htaken] at hscan
    obtain rfl := Option.some.inj hscan
    exact mem_free.1 hq

/-- What an iteration does to a state, given the array of its working rows and its step. -/
inductive Advances (p : Problem α) (f : Objective p.variableCount α) (s : State p)
    (rows : Dense s.working.length p.variableCount α) (step : p.Point) :
    Move p → State p → Prop where
  /-- The inequality of one of the multipliers leaves the working set. -/
  | drop (prices : Vector α (independentRows rows).length)
      (solved : multipliers (rows.selectRows (independentRows rows)) (f.gradient s.point)
        = .ok prices) (k : Fin (independentRows rows).length)
      (isInequality :
        (p.row (s.working.get ((independentRows rows).get k))).isEquality = false) :
      Advances p f s rows step
        (.drop (s.working.get ((independentRows rows).get k)) (prices.get k))
        ⟨s.point, s.working.eraseIdx ((independentRows rows).get k)⟩
  /-- An inequality outside the working set blocks the step and comes in. -/
  | block (row : p.Row) (blocks : (p.stepLength s.point step s.working).2 = some row) :
      Advances p f s rows step (.block row (p.stepLength s.point step s.working).1)
        ⟨s.point.zipWith (fun x d => x + (p.stepLength s.point step s.working).1 * d) step,
          s.working ++ [row]⟩
  /-- Nothing blocks the step. -/
  | full (free : (p.stepLength s.point step s.working).2 = none) :
      Advances p f s rows step .full
        ⟨s.point.zipWith (fun x d => x + (p.stepLength s.point step s.working).1 * d) step,
          s.working⟩

/-- **What an iteration does.** -/
theorem advances_of_advance {move : Move p} (h : p.advance f s = .ok (some (move, t))) :
    ∃ rows step, p.workingArray? s.working = some rows ∧
      descent f (rows.selectRows (independentRows rows)) (f.gradient s.point) = .ok step ∧
      p.Advances f s rows step move t := by
  unfold advance at h
  split at h
  · exact absurd h (by simp)
  rename_i rows hrows
  obtain ⟨step, hstep, h⟩ := bind_ok h
  refine ⟨rows, step, hrows, hstep, ?_⟩
  dsimp only at h
  split at h
  · obtain ⟨prices, hprices, h⟩ := bind_ok h
    split at h
    · rename_i least place hleast
      split at h
      · exact absurd (Except.ok.inj h) (by simp)
      · obtain ⟨rfl, rfl⟩ := Prod.mk.inj (Option.some.inj (Except.ok.inj h))
        obtain hkept | ⟨q, hq, hrow, htaken⟩ := leastMultiplier_mem s.working
          ((independentRows rows).zip prices.toList)
        · exact absurd (hleast.symm.trans hkept) (by simp)
        · rw [zip_toList_eq_map] at hq
          obtain ⟨k, -, rfl⟩ := List.mem_map.1 hq
          obtain ⟨rfl, hplace⟩ := Prod.mk.inj (hleast.symm.trans htaken)
          obtain rfl := Option.some.inj hplace
          exact .drop prices hprices k hrow
    · exact absurd (Except.ok.inj h) (by simp)
  · generalize hlength : p.stepLength s.point step s.working = length at h
    obtain ⟨fraction, blocking⟩ := length
    dsimp only at h
    cases blocking with
    | some row =>
      obtain ⟨rfl, rfl⟩ := Prod.mk.inj (Option.some.inj (Except.ok.inj h))
      have hblock : p.Advances f s rows step _ _ := .block row (congrArg Prod.snd hlength)
      rwa [hlength] at hblock
    | none =>
      obtain ⟨rfl, rfl⟩ := Prod.mk.inj (Option.some.inj (Except.ok.inj h))
      have hfull : p.Advances f s rows step _ _ := .full (congrArg Prod.snd hlength)
      rwa [hlength] at hfull

/-- An iteration whose step is zero within the tolerance is the last one if nothing is to be
dropped. -/
theorem advance_of_optimal {rows : Dense s.working.length p.variableCount α}
    (hrows : p.workingArray? s.working = some rows) {step : p.Point}
    (hstep : descent f (rows.selectRows (independentRows rows)) (f.gradient s.point) = .ok step)
    (hzero : step.all (Scalar.near · 0) = true) {prices : Vector α (independentRows rows).length}
    (hprices : multipliers (rows.selectRows (independentRows rows)) (f.gradient s.point)
      = .ok prices)
    (hleast : p.leastMultiplier s.working ((independentRows rows).zip prices.toList)
      = (0, none)) : p.advance f s = .ok none := by
  unfold advance
  rw [hrows]
  dsimp only
  rw [hstep]
  show (if _ then _ else _) = _
  rw [if_pos hzero, hprices]
  dsimp only [bind, Except.bind]
  rw [hleast]
  rfl

/-! ### The invariant -/

/-- The working rows are distinct, and no equality is missing. -/
structure State.Proper (s : State p) : Prop where
  /-- The working rows are distinct. -/
  nodup : s.working.Nodup
  /-- Every equality is a working row. -/
  equalities : ∀ r, (p.row r).isEquality = true → r ∈ s.working

theorem proper_startAt (x : p.Point) : (p.startAt x).Proper where
  nodup := (List.nodup_finRange _).filter _
  equalities r hr := List.mem_filter.2 ⟨List.mem_finRange r, by rw [hr, Bool.true_or]⟩

/-- Equalities stay in the working set. -/
theorem mem_working_advance {move : Move p} (h : p.advance f s = .ok (some (move, t)))
    (hr : (p.row r).isEquality = true) (hmem : r ∈ s.working) : r ∈ t.working := by
  obtain ⟨rows, step, -, -, hadvances⟩ := advances_of_advance h
  cases hadvances with
  | drop prices solved k isInequality =>
    refine List.mem_eraseIdx_iff_getElem.2 ?_
    obtain ⟨i, hi, rfl⟩ := List.mem_iff_getElem.1 hmem
    refine ⟨i, hi, ?_, rfl⟩
    rintro rfl
    exact absurd (hr.symm.trans isInequality) (by simp)
  | block row blocks => exact List.mem_append_left _ hmem
  | full free => exact hmem

/-- An iteration keeps the working rows distinct. -/
theorem nodup_advance {move : Move p} (h : p.advance f s = .ok (some (move, t)))
    (hs : s.working.Nodup) : t.working.Nodup := by
  obtain ⟨rows, step, -, -, hadvances⟩ := advances_of_advance h
  cases hadvances with
  | drop prices solved k isInequality => exact hs.sublist (List.eraseIdx_sublist ..)
  | block row blocks =>
    refine List.nodup_append.2 ⟨hs, List.nodup_singleton row, ?_⟩
    rintro q hq r hr rfl
    exact (free_of_blocking blocks).2 (List.mem_singleton.1 hr ▸ hq)
  | full free => exact hs

theorem State.Proper.advance (hs : s.Proper) {move : Move p}
    (h : p.advance f s = .ok (some (move, t))) : t.Proper :=
  ⟨nodup_advance h hs.nodup, fun r hr => mem_working_advance h hr (hs.equalities r hr)⟩

/-! ### Iterations -/

/-- The state at the top of an iteration, the first one being zero; none if the search ends
before. -/
def stateAt? (p : Problem α) (f : Objective p.variableCount α) : ℕ → State p → Option (State p)
  | 0, s => some s
  | n + 1, s =>
    match p.advance f s with
    | .ok (some (_, next)) => stateAt? p f n next
    | _ => none

/-- A search goes on from the state at the top of an iteration; if there is none, it has ended
before, and more iterations make no difference. -/
theorem iterate_add (limit n m : ℕ) (s : State p) :
    p.iterate f limit (n + m) s = match p.stateAt? f n s with
      | some t => p.iterate f limit m t
      | none => p.iterate f limit n s := by
  induction n generalizing s with
  | zero => rw [Nat.zero_add]; rfl
  | succ n ih =>
    rw [Nat.succ_add, iterate, stateAt?]
    cases hadvance : p.advance f s with
    | error e => simp only [iterate, hadvance]
    | ok outcome =>
      cases outcome with
      | none => simp only [iterate, hadvance]
      | some result =>
        simpa only [iterate, hadvance] using ih result.2

theorem State.Proper.stateAt? (hs : s.Proper) {n : ℕ} (h : p.stateAt? f n s = some t) :
    t.Proper := by
  induction n generalizing s with
  | zero => exact Option.some.inj h ▸ hs
  | succ n ih =>
    unfold Problem.stateAt? at h
    split at h
    · rename_i hadvance
      exact ih (hs.advance hadvance) h
    · exact absurd h (by simp)

/-- **Rows, masks and multipliers stay aligned**, in every search and however scalars compare.  At
the top of each iteration the working rows are distinct rows of the problem, and among them is every
equality.  In the drop test the `k`-th multiplier is that of the `k`-th working row that the mask
keeps; a row that leaves is an inequality, dropped for its own multiplier, and a row that comes in
is an inequality that was not in the working set. -/
theorem working_set_aligned (p : Problem α) (f : Objective p.variableCount α) (start : p.Point)
    (n : ℕ) {s : State p} (h : p.stateAt? f n (p.startAt start) = some s) :
    (∀ limit m, p.iterate f limit (n + m) (p.startAt start) = p.iterate f limit m s) ∧
    s.working.Nodup ∧ (∀ r ∈ s.working, p.hard[r.val]? = some (p.row r)) ∧
    (∀ r, (p.row r).isEquality = true → r ∈ s.working) ∧
    (∀ rows prices, p.workingArray? s.working = some rows →
      multipliers (rows.selectRows (independentRows rows)) (f.gradient s.point) = .ok prices →
      p.Aligned f s rows prices) ∧
    (∀ row price t, p.advance f s = .ok (some (.drop row price, t)) →
      (p.row row).isEquality = false ∧ t.working = s.working.erase row ∧
      ∃ rows prices k, p.workingArray? s.working = some rows ∧
        multipliers (rows.selectRows (independentRows rows)) (f.gradient s.point) = .ok prices ∧
        row = s.working.get ((independentRows rows).get k) ∧ price = prices.get k) ∧
    (∀ row fraction t, p.advance f s = .ok (some (.block row fraction, t)) →
      (p.row row).isEquality = false ∧ row ∉ s.working ∧ t.working = s.working ++ [row]) ∧
    ∀ t, p.advance f s = .ok (some (.full, t)) → t.working = s.working := by
  have hproper := (proper_startAt start).stateAt? h
  refine ⟨fun limit m => ?_, hproper.nodup, fun r _ => List.getElem?_eq_getElem r.isLt,
    hproper.equalities, fun rows prices hrows => aligned_of_multipliers hrows,
    fun row price t hadvance => ?_, fun row fraction t hadvance => ?_, fun t hadvance => ?_⟩
  · rw [iterate_add, h]
  · obtain ⟨rows, step, hrows, -, hadvances⟩ := advances_of_advance hadvance
    cases hadvances with
    | drop prices solved k isInequality =>
      exact ⟨isInequality, (hproper.nodup.erase_getElem _ _).symm, rows, prices, k, hrows, solved,
        rfl, rfl⟩
  · obtain ⟨rows, step, -, -, hadvances⟩ := advances_of_advance hadvance
    cases hadvances with
    | block row blocks =>
      exact ⟨(free_of_blocking blocks).1, (free_of_blocking blocks).2, rfl⟩
  · obtain ⟨rows, step, -, -, hadvances⟩ := advances_of_advance hadvance
    cases hadvances with
    | full free => rfl

/-- The row that an iteration drops. -/
def dropped? : Except SolveError (Option (Move p × State p)) → Option p.Row
  | .ok (some (.drop row _, _)) => some row
  | _ => none

omit [Scalar α] in
theorem exists_of_dropped? {result : Except SolveError (Option (Move p × State p))} {row : p.Row}
    (h : dropped? result = some row) : ∃ price t, result = .ok (some (.drop row price, t)) := by
  unfold dropped? at h
  split at h
  · obtain rfl := Option.some.inj h
    exact ⟨_, _, rfl⟩
  · exact absurd h (by simp)

/-- The places that the mask keeps, where there are multipliers. -/
def pricedPlaces? (p : Problem α) (f : Objective p.variableCount α) (s : State p) :
    Option (List ℕ) := do
  let rows ← p.workingArray? s.working
  match multipliers (rows.selectRows (independentRows rows)) (f.gradient s.point) with
  | .ok _ => some ((independentRows rows).map Fin.val)
  | .error _ => none

theorem exists_of_pricedPlaces? {places : List ℕ} (h : p.pricedPlaces? f s = some places) :
    ∃ rows prices, p.workingArray? s.working = some rows ∧
      multipliers (rows.selectRows (independentRows rows)) (f.gradient s.point) = .ok prices ∧
      (independentRows rows).map Fin.val = places := by
  obtain ⟨rows, hrows, hplaces⟩ := Option.bind_eq_some_iff.1 h
  refine ⟨rows, ?_⟩
  split at hplaces
  · rename_i prices hprices
    exact ⟨prices, hrows, hprices, Option.some.inj hplaces⟩
  · exact absurd hplaces (by simp)

/-- An equality, an inequality with the same left side twice over, a bound that holds back the only
soft row, and one that the search runs into once it is free of that. -/
def leaning : Problem Float where
  variableCount := 2
  hard := [⟨[1, 1], .eq, 4⟩, ⟨[2, 2], .ge, 8⟩, ⟨[0, 1], .le, 2⟩, ⟨[1], .le, 2.5⟩]
  soft := [⟨[0, 1], 1, 1⟩]

/-- The objective of that problem. -/
def leaningObjective : Objective leaning.variableCount Float :=
  leaning.objective?.get (by decide +kernel)

/-- Where the first three rows bind. -/
def corner : leaning.Point := (#v[2, 2] : Vector Float 2)

/-- The mask passes over the equality, so that the second multiplier is that of the third working
row, which is dropped.  After a blocked step the fourth row is in its place, and the second
multiplier is that row's. -/
theorem working_set_aligned_leaning :
    leaning.stateAt? leaningObjective 0 (leaning.startAt corner) = some (leaning.startAt corner) ∧
    (leaning.startAt corner).working.map Fin.val = [0, 1, 2] ∧
    leaning.pricedPlaces? leaningObjective (leaning.startAt corner) = some [1, 2] ∧
    (∃ row price t, leaning.advance leaningObjective (leaning.startAt corner)
        = .ok (some (.drop row price, t)) ∧
      row.val = 2 ∧ (leaning.row row).isEquality = false ∧
      t.working = (leaning.startAt corner).working.erase row) ∧
    ∃ s, leaning.stateAt? leaningObjective 2 (leaning.startAt corner) = some s ∧
      s.working.map Fin.val = [0, 1, 3] ∧ s.working.Nodup ∧
      ∃ rows prices, leaning.workingArray? s.working = some rows ∧
        multipliers (rows.selectRows (independentRows rows)) (leaningObjective.gradient s.point)
          = .ok prices ∧
        (independentRows rows).map Fin.val = [1, 2] ∧
        leaning.Aligned leaningObjective s rows prices := by
  have hdropped : (dropped? (leaning.advance leaningObjective (leaning.startAt corner))).map
      Fin.val = some 2 := by decide +kernel
  obtain ⟨row, hrow, hval⟩ := Option.map_eq_some_iff.1 hdropped
  obtain ⟨price, t, hadvance⟩ := exists_of_dropped? hrow
  obtain ⟨-, -, -, -, -, hleaves, -⟩ := working_set_aligned leaning leaningObjective corner 0
    (s := leaning.startAt corner) rfl
  obtain ⟨hinequality, hworking, -⟩ := hleaves row price t hadvance
  have hlater : (leaning.stateAt? leaningObjective 2 (leaning.startAt corner)).map (fun s =>
      (s.working.map Fin.val, leaning.pricedPlaces? leaningObjective s))
      = some ([0, 1, 3], some [1, 2]) := by decide +kernel
  obtain ⟨s, hs, hstate⟩ := Option.map_eq_some_iff.1 hlater
  obtain ⟨hrows, hplaces⟩ := Prod.mk.inj hstate
  obtain ⟨rows, prices, harray, hprices, hkept⟩ := exists_of_pricedPlaces? hplaces
  obtain ⟨-, hnodup, -, -, haligned, -⟩ :=
    working_set_aligned leaning leaningObjective corner 2 hs
  exact ⟨rfl, by decide +kernel, by decide +kernel,
    ⟨row, price, t, hadvance, hval, hinequality, hworking⟩, s, hs, hrows, hnodup, rows, prices,
    harray, hprices, hkept, haligned rows prices harray hprices⟩

end Problem

end ElasticLayout
