import Mathlib.Data.List.FinRange
import Mathlib.Data.List.Perm.Basic
import ElasticLayout.EquationSystem
import ElasticLayout.Linear.Elimination
import ElasticLayout.Linear.Householder

/-!
# Shapes in elimination

What elimination does to the number of rows and of coefficients, in every arithmetic.

* `firstLargest_lt`, `pivot?_perm` -- the choice of a pivot gives a row, and loses none;
* `Square`, `Square.reduce` -- square systems, and what one step of elimination leaves of them;
* `Reduction.perm_step`, `perm_reduceRows` -- a reduction neither loses nor repeats a row;
* `mem_independentRows_iff`, `count_independenceMask` -- the rows that the mask marks;
* `length_independentRows`, `perm_kept_dropped` -- there are as many independent rows as pivots, and
  with the others they are all rows;
* `le_of_factor_ok` -- an array that is factored is not wider than it is high;
* `EquationSystem.rows_dropUnused` -- dropping columns drops no rows.
-/

namespace ElasticLayout

variable {α : Type} [Scalar α]

namespace Linear

/-! ### Pivots -/

/-- The exchange with the first entry loses nothing. -/
theorem swapToFront?_perm {β : Type} {xs : List β} {k : ℕ} {front : β} {rest : List β}
    (h : swapToFront? xs k = some (front, rest)) : (front :: rest).Perm xs := by
  cases xs with
  | nil => exact absurd h (by simp [swapToFront?])
  | cons x xs =>
    cases k with
    | zero =>
      obtain ⟨rfl, rfl⟩ := Prod.mk.inj (Option.some.inj h)
      exact .refl _
    | succ k =>
      unfold swapToFront? at h
      dsimp only at h
      split at h
      · rename_i y hy
        obtain ⟨rfl, rfl⟩ := Prod.mk.inj (Option.some.inj h)
        obtain ⟨hk, rfl⟩ := List.getElem?_eq_some_iff.1 hy
        rw [List.set_eq_take_append_cons_drop, if_pos hk]
        -- The entry and the first one change places across the entries between them.
        calc xs[k] :: (xs.take k ++ x :: xs.drop (k + 1))
          List.Perm _ (xs[k] :: x :: (xs.take k ++ xs.drop (k + 1))) := .cons _ List.perm_middle
          List.Perm _ (x :: xs[k] :: (xs.take k ++ xs.drop (k + 1))) := .swap ..
          List.Perm _ (x :: (xs.take k ++ xs[k] :: xs.drop (k + 1))) :=
            .cons _ List.perm_middle.symm
          _ = x :: xs := by rw [← List.drop_eq_getElem_cons hk, List.take_append_drop]
      · obtain ⟨rfl, rfl⟩ := Prod.mk.inj (Option.some.inj h)
        exact .refl _

theorem pivot?_perm {β : Type} {entry : β → α} {rows : List β} {front : β}
    {rest : List β} (h : pivot? entry rows = some (front, rest)) : (front :: rest).Perm rows :=
  swapToFront?_perm h

/-- Among rows there is a pivot. -/
theorem exists_pivot? {β : Type} {rows : List β} (h : rows ≠ []) (entry : β → α) :
    ∃ chosen, pivot? entry rows = some chosen := by
  cases rows with
  | nil => exact absurd rfl h
  | cons row rows =>
    unfold pivot?
    cases firstLargest ((row :: rows).map fun row => Scalar.abs (entry row)) with
    | zero => exact ⟨_, rfl⟩
    | succ k =>
      unfold swapToFront?
      dsimp only
      cases rows[k]? with
      | none => exact ⟨_, rfl⟩
      | some other => exact ⟨_, rfl⟩

/-- The first of the largest entries is one of the entries. -/
theorem firstLargest_lt {xs : List α} (h : xs ≠ []) : firstLargest xs < xs.length := by
  have hscan : ∀ (xs : List α) (largest : α) (index next : ℕ), index < next →
      firstLargest.go largest index next xs < next + xs.length := by
    intro xs
    induction xs with
    | nil => exact fun _ index next hindex => hindex
    | cons x xs ih =>
      intro largest index next hindex
      unfold firstLargest.go
      rw [List.length_cons, show next + (xs.length + 1) = next + 1 + xs.length by omega]
      split
      · exact ih x next (next + 1) (Nat.lt_succ_self next)
      · exact ih largest index (next + 1) (Nat.lt_succ_of_lt hindex)
  cases xs with
  | nil => exact absurd rfl h
  | cons x xs =>
    rw [List.length_cons, Nat.add_comm]
    exact hscan xs x 0 1 Nat.one_pos

/-! ### Equations -/

namespace Equation

variable {e pivot : Equation α} {n : ℕ}

omit [Scalar α] in
theorem length_tail (h : e.coefficients.length = n + 1) : e.tail.length = n := by
  unfold tail
  rw [List.length_tail, h, Nat.add_sub_cancel]

theorem length_reduce (he : e.coefficients.length = n + 1)
    (hpivot : pivot.coefficients.length = n + 1) :
    (pivot.reduce e).coefficients.length = n := by
  unfold reduce
  dsimp only
  split
  · exact length_tail he
  · rw [List.length_zipWith, length_tail he, length_tail hpivot, min_self]

end Equation

/-- There are as many equations as unknowns, with a coefficient for each unknown. -/
structure Square (n : ℕ) (equations : List (Equation α)) : Prop where
  /-- The number of equations. -/
  length : equations.length = n
  /-- The number of coefficients. -/
  coefficients : ∀ e ∈ equations, e.coefficients.length = n

omit [Scalar α] in
theorem square_rows {n : ℕ} (a : Dense n n α) (b : Vector α n) :
    Square n ((List.finRange n).map fun i => ⟨(a.get i).toList, b.get i⟩) where
  length := by rw [List.length_map, List.length_finRange]
  coefficients := by
    intro e he
    obtain ⟨i, -, rfl⟩ := List.mem_map.1 he
    exact Vector.length_toList

namespace Square

variable {n : ℕ} {equations others : List (Equation α)} {pivot : Equation α}

theorem length_of_pivot (h : Square (n + 1) equations)
    (hpivot : pivot? Equation.lead equations = some (pivot, others)) :
    ∀ e ∈ pivot :: others, e.coefficients.length = n + 1 :=
  fun e he => h.coefficients e ((pivot?_perm hpivot).mem_iff.1 he)

/-- **One step of elimination leaves one equation fewer, over one unknown fewer.** -/
theorem reduce (h : Square (n + 1) equations)
    (hpivot : pivot? Equation.lead equations = some (pivot, others)) :
    Square n (others.map pivot.reduce) where
  length := by
    have hcount := (pivot?_perm hpivot).length_eq
    rw [h.length, List.length_cons] at hcount
    rw [List.length_map]
    omega
  coefficients := by
    have hlength := h.length_of_pivot hpivot
    rw [List.forall_mem_map]
    exact fun e he => Equation.length_reduce (hlength e (List.mem_cons_of_mem _ he))
      (hlength pivot List.mem_cons_self)

end Square

/-! ### Independent rows -/

variable {m n : ℕ}

/-- A step neither loses nor repeats a row. -/
theorem Reduction.perm_step (s : Reduction m n α) (column : Fin n) :
    ((s.step column).chosen ++ (s.step column).rest).Perm (s.chosen ++ s.rest) := by
  unfold step
  split
  · exact .refl _
  · rename_i p others hpivot
    split
    · exact .refl _
    · rw [List.append_assoc, List.singleton_append]
      exact (pivot?_perm hpivot).append_left _

/-- A reduction neither loses nor repeats a row. -/
theorem perm_reduceRows (a : Dense m n α) :
    ((reduceRows a).chosen ++ (reduceRows a).rest).Perm (List.finRange m) := by
  refine List.foldlRecOn (motive := fun s : Reduction m n α =>
    (s.chosen ++ s.rest).Perm (List.finRange m)) _ _ (.refl _) fun s hs column _ => ?_
  exact (s.perm_step column).trans hs

/-- **There are as many independent rows as pivots.** -/
theorem length_independentRows (a : Dense m n α) :
    (independentRows a).length = rank a := by
  have hnodup : (reduceRows a).chosen.Nodup :=
    (List.nodup_append.1 ((perm_reduceRows a).nodup_iff.2 (List.nodup_finRange m))).1
  have hperm : (independentRows a).Perm (reduceRows a).chosen := by
    refine (List.perm_ext_iff_of_nodup ((List.nodup_finRange m).filter _) hnodup).2 fun r => ?_
    unfold independenceMask
    simp [Dense.get_eq_getElem]
  exact hperm.length_eq

theorem nodup_independentRows {a : Dense m n α} : (independentRows a).Nodup :=
  (List.nodup_finRange m).filter _

/-- The independent rows are those that the mask marks. -/
theorem mem_independentRows_iff {a : Dense m n α} {r : Fin m} :
    r ∈ independentRows a ↔ (independenceMask a).get r = true := by
  unfold independentRows
  rw [List.mem_filter]
  exact and_iff_right (List.mem_finRange r)

omit [Scalar α] in
theorem toList_eq_map_get (v : Vector α n) : v.toList = (List.finRange n).map v.get :=
  List.ext_getElem (by simp) fun i hi _ => by simp [Dense.get_eq_getElem]

/-- There are as many marks as pivots. -/
theorem count_independenceMask (a : Dense m n α) :
    (independenceMask a).toList.count true = rank a := by
  rw [← length_independentRows, toList_eq_map_get, List.count_eq_countP, List.countP_map,
    List.countP_eq_length_filter]
  congr 1
  exact List.filter_congr fun r _ => by simp

/-- The chosen rows and the others are those that the mask marks and those that it does not. -/
theorem kept_append_dropped (a : Dense m n α) :
    (independentRows a ++ (List.finRange m).filter fun r => !(independentRows a).contains r)
      = (List.finRange m).filter (independenceMask a).get ++
        (List.finRange m).filter fun r => !(independenceMask a).get r := by
  refine congrArg (_ ++ ·) (List.filter_congr fun r _ => ?_)
  simp [mem_independentRows_iff]

/-- The chosen rows and the others are all rows. -/
theorem perm_kept_dropped (a : Dense m n α) :
    (independentRows a ++ (List.finRange m).filter fun r => !(independentRows a).contains r).Perm
      (List.finRange m) := by
  rw [kept_append_dropped]
  exact List.filter_append_perm _ _

/-! ### Factors -/

/-- An array that is factored has no more columns than rows. -/
theorem le_of_factor_ok {a : Dense m n α} {f : Factors m α} (h : factor a = .ok f) : n ≤ m := by
  unfold factor at h
  split at h
  · exact absurd h (by simp)
  · omega

end Linear

/-! ### Equation systems -/

/-- Dropping columns drops no rows. -/
theorem EquationSystem.rows_dropUnused {R C : ℕ} (s : EquationSystem R C α) (c count : ℕ) :
    (s.dropUnused c count).rows = s.rows := by
  induction count generalizing s c with
  | zero => rfl
  | succ count ih =>
    unfold dropUnused
    split
    · dsimp only
      split
      · exact ih s _
      · exact ih _ _
    · rfl

end ElasticLayout
