import ElasticLayout.Proofs.Shapes

/-!
# Checked linear algebra

The algorithms once more, with a check wherever they rely on an index, a length or a difference that
no type vouches for.  A checked algorithm gives none where the access does not exist.  In every
arithmetic all accesses exist, and the checked algorithms are the others: the shapes do not depend
on the numbers, not even on how they compare.

* `Checked` -- computations that may fail, or reach an access that does not exist;
* `Checked.Matches` -- a checked computation that reaches no such access;
* `Checked.pivot` -- the choice among rows of which there has to be one;
* `Checked.solveEquations`, `Checked.solve`, `Checked.matches_solve` -- square systems;
* `Checked.factor`, `Checked.matches_factor` -- orthogonal factors;
* `Checked.independentRows`, `Checked.independentRows_eq` -- independent rows.
-/

namespace ElasticLayout

open Linear

/-- A computation that may fail; none if it reaches an access that does not exist. -/
abbrev Checked (β : Type) := ExceptT SolveError Option β

namespace Checked

variable {β γ : Type}

/-- Go on with what is found at an index. -/
def found (o : Option β) : Checked β := ExceptT.mk (o.map .ok)

/-- Go on if an index, a length or a difference is what it has to be. -/
def need (c : Prop) [Decidable c] : Checked Unit := found (if c then some () else none)

/-- All accesses of the checked computation exist, and it gives what the unchecked computation
gives.  That one reports no row that is too long. -/
structure Matches (x : Checked β) (r : Except SolveError β) : Prop where
  /-- The results are the same. -/
  run_eq : x.run = some r
  /-- No row is too long. -/
  ne : r ≠ .error .malformedRow

theorem found_bind {o : Option β} {a : β} (h : o = some a) (f : β → Checked γ) :
    found o >>= f = f a := by
  rw [h]
  rfl

theorem need_bind {c : Prop} [Decidable c] (h : c) (f : Unit → Checked γ) :
    need c >>= f = f () :=
  found_bind (if_pos h) f

theorem Matches.pure (a : β) : Matches (Pure.pure a) (.ok a) :=
  ⟨rfl, fun h => nomatch h⟩

/-- A computation that relies on types alone. -/
def ofExcept (r : Except SolveError β) : Checked β := ExceptT.mk (some r)

theorem Matches.ofExcept {r : Except SolveError β} (h : r ≠ .error .malformedRow) :
    Matches (ofExcept r) r :=
  ⟨rfl, h⟩

theorem Matches.throw {e : SolveError} (h : e ≠ .malformedRow) :
    Matches (throw e : Checked β) (.error e) :=
  ⟨rfl, fun heq => h (Except.error.inj heq)⟩

/-- Where a computation goes on, the accesses of both parts exist. -/
theorem Matches.bind {x : Checked β} {r : Except SolveError β} {f : β → Checked γ}
    {g : β → Except SolveError γ} (hx : x.Matches r)
    (hf : ∀ a, r = .ok a → (f a).Matches (g a)) : (x >>= f).Matches (r >>= g) := by
  cases r with
  | error e =>
    refine ⟨?_, fun heq => hx.ne (congrArg Except.error (Except.error.inj heq))⟩
    show (x.run >>= ExceptT.bindCont f) = _
    rw [hx.run_eq]
    rfl
  | ok a =>
    have hstep : (x >>= f).run = (f a).run := by
      show (x.run >>= ExceptT.bindCont f) = _
      rw [hx.run_eq]
      rfl
    exact ⟨hstep.trans (hf a rfl).run_eq, (hf a rfl).ne⟩

end Checked

variable {α : Type} [Scalar α]

/-! ### Square systems -/

namespace Checked

/-- The choice of a pivot, among rows of which there has to be one. -/
def pivot {β : Type} (entry : β → α) (rows : List β) : Option (β × List β) :=
  if firstLargest (rows.map fun row => Scalar.abs (entry row)) < rows.length then
    pivot? entry rows
  else none

theorem pivot_eq {β : Type} {entry : β → α} {rows : List β} (h : rows ≠ []) :
    pivot entry rows = pivot? entry rows := by
  have hne : (rows.map fun row => Scalar.abs (entry row)) ≠ [] := by simpa using h
  have hlt := firstLargest_lt hne
  rw [List.length_map] at hlt
  exact if_pos hlt

/-- Solve a list of equations, of which each has a coefficient for every unknown. -/
def solveEquations : (n : ℕ) → List (Equation α) → Checked (Vector α n)
  | 0, _ => return .ofFn Fin.elim0
  | n + 1, equations => do
    need (∀ e ∈ equations, e.coefficients.length = n + 1)
    let (first, others) ← found (pivot Equation.lead equations)
    if Scalar.near (Scalar.abs first.lead) 0 then throw .singularSystem
    else do
      let values ← solveEquations n (others.map first.reduce)
      return (Vector.singleton (first.leadValue values.toList) ++ values).cast (Nat.one_add n)

/-- Solve the square system `a x = b`. -/
def solve {n : ℕ} (a : Dense n n α) (b : Vector α n) : Checked (Vector α n) :=
  solveEquations n ((List.finRange n).map fun i => ⟨(a.get i).toList, b.get i⟩)

/-- As many equations as unknowns, with a coefficient for each, can be solved without a missing
access.  The reduced equations are one fewer, over one unknown fewer. -/
theorem matches_solveEquations {n : ℕ} {equations : List (Equation α)}
    (hsquare : Square n equations) :
    (solveEquations n equations).Matches (Linear.solveEquations n equations) := by
  induction n generalizing equations with
  | zero => exact .pure _
  | succ n ih =>
    unfold solveEquations Linear.solveEquations
    have hne := List.ne_nil_of_length_eq_add_one hsquare.length
    obtain ⟨⟨first, others⟩, hpivot⟩ := exists_pivot? hne Equation.lead
    rw [need_bind hsquare.coefficients, pivot_eq hne, found_bind hpivot, hpivot]
    dsimp only
    split
    · exact .throw (by simp)
    · exact (ih (hsquare.reduce hpivot)).bind fun values _ => .pure _

theorem matches_solve {n : ℕ} (a : Dense n n α) (b : Vector α n) :
    (solve a b).Matches (Linear.solve a b) :=
  matches_solveEquations (square_rows a b)

/-! ### Orthogonal factors -/

variable {m n : ℕ}

/-- Reduce columns one after the other; there has to be a pivot position for each. -/
def factorColumns (q : Dense m m α) : List (Fin m) → List (Vector α m) → Checked (Factors m α)
  | position :: positions, column :: columns =>
    match Reflector.ofColumn? position column with
    | none => throw .qrDecomposition
    | some r => do
      let f ← factorColumns (q.map r.applyRow) positions (columns.map r.applyColumn)
      return { f with diagonal := r.diagonal :: f.diagonal }
  | [], _ :: _ => found none
  | _, [] => return ⟨q, []⟩

/-- Factor an array. -/
def factor (a : Dense m n α) : Checked (Factors m α) :=
  if m < n then throw .qrDecomposition
  else factorColumns Dense.identity (List.finRange m) a.transpose.toList

theorem matches_factorColumns {q : Dense m m α} {positions : List (Fin m)}
    {columns : List (Vector α m)} (h : columns.length ≤ positions.length) :
    (factorColumns q positions columns).Matches (Linear.factorColumns q positions columns) := by
  induction positions generalizing q columns with
  | nil =>
    obtain rfl := List.length_eq_zero_iff.1 (Nat.le_zero.1 h)
    exact .pure _
  | cons position positions ih =>
    cases columns with
    | nil => exact .pure _
    | cons column columns =>
      unfold factorColumns Linear.factorColumns
      cases Reflector.ofColumn? position column with
      | none => exact .throw (by simp)
      | some r =>
        refine (ih ?_).bind fun f _ => .pure _
        rw [List.length_map]
        exact Nat.le_of_succ_le_succ h

theorem matches_factor (a : Dense m n α) : (factor a).Matches (Linear.factor a) := by
  unfold factor Linear.factor
  split
  · exact .throw (by simp)
  · refine matches_factorColumns ?_
    rw [Vector.length_toList, List.length_finRange]
    omega

/-! ### Independent rows -/

/-- Treat one column, as long as there is a row left. -/
def reductionStep (s : Reduction m n α) (column : Fin n) : Option (Reduction m n α) :=
  if s.rest.isEmpty then some s
  else (pivot (fun r => s.cells.entry r column) s.rest).map fun _ => s.step column

/-- The independent rows, of which there have to be as many as pivots. -/
def independentRows (a : Dense m n α) : Option (List (Fin m)) := do
  let s ← (List.finRange n).foldlM reductionStep (.ofDense a)
  let kept := (List.finRange m).filter fun r => s.chosen.contains r
  if kept.length = s.chosen.length then some kept else none

theorem reductionStep_eq (s : Reduction m n α) (column : Fin n) :
    reductionStep s column = some (s.step column) := by
  unfold reductionStep
  cases hrest : s.rest with
  | nil =>
    unfold Reduction.step
    rw [hrest]
    rfl
  | cons r rest =>
    rw [if_neg (by simp), pivot_eq (by simp)]
    obtain ⟨chosen, hchosen⟩ :=
      exists_pivot? (List.cons_ne_nil r rest) fun r => s.cells.entry r column
    rw [hchosen]
    rfl

theorem foldlM_reductionStep (columns : List (Fin n)) (s : Reduction m n α) :
    columns.foldlM reductionStep s = some (columns.foldl Reduction.step s) := by
  induction columns generalizing s with
  | nil => rfl
  | cons column columns ih =>
    rw [List.foldlM_cons, reductionStep_eq]
    exact ih _

/-- All accesses of the choice of independent rows exist. -/
theorem independentRows_eq (a : Dense m n α) :
    independentRows a = some (Linear.independentRows a) := by
  have hkept : (List.finRange m).filter (fun r => (reduceRows a).chosen.contains r)
      = Linear.independentRows a := by
    unfold Linear.independentRows independenceMask
    exact List.filter_congr fun r _ => by simp [Dense.get_eq_getElem]
  have hlength : ((List.finRange m).filter fun r => (reduceRows a).chosen.contains r).length
      = (reduceRows a).chosen.length := by
    rw [hkept]
    exact length_independentRows a
  unfold independentRows
  rw [foldlM_reductionStep]
  exact (if_pos hlength).trans (congrArg some hkept)

end Checked

end ElasticLayout
