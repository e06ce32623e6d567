import ElasticLayout.Proofs.CheckedSearch
import ElasticLayout.Proofs.CheckedStores
import ElasticLayout.Proofs.Step

/-!
# Checked specifications

Solving a specification and asking it for a size, with all checks of the checked algorithms and of
the checked stores.  The rows of a specification fit, and its stores are tidy after every history of
calls, so that no check fails.

* `Spec.rowsFit_problem`, `Spec.tidy_run` -- why no check fails;
* `Checked.solveSpec`, `Checked.solveSpec_eq` -- solving;
* `Checked.sizeQuery`, `Checked.sizeQuery_eq` -- size queries;
* `Checked.all_accesses_exist` -- the main result.
-/

namespace ElasticLayout

variable {α : Type} [Scalar α]

namespace Spec

/-- Every row of a specification has one coefficient per column. -/
theorem rowsFit_problem (s : Spec α) : s.problem.RowsFit where
  hard := by
    intro row hrow
    obtain ⟨c, -, rfl⟩ := List.mem_map.1 hrow
    exact (List.length_map _).le
  soft := by
    intro row hrow
    obtain ⟨c, -, rfl⟩ := List.mem_map.1 hrow
    exact (List.length_map _).le

/-- The stores are tidy after every history, also when the handles have run out. -/
theorem tidy_run (options : Options α) (history : List (Operation α)) :
    (({ options } : Spec α).run history).Tidy :=
  (evolves_run history _).tidy ⟨SlotStore.tidy_empty, SlotStore.tidy_empty⟩

end Spec

namespace Checked

/-! ### Specifications -/

/-- Solve a specification, and write the values of the columns back. -/
def solveSpec (s : Spec α) : Option (Spec α) := do
  match ← (solveProblem s.problem s.options.maxIterations).run with
  | .ok x => return { s.assign (s.columns.zip x.toList) with result := .optimal }
  | .error e => return { s with result := e.resultCode }

/-- Pull a variable towards a target, as strongly as the options say. -/
def pin (s : Spec α) (id : VariableId) (target : α) : Option (ConstraintId × Spec α) :=
  register s (.fresh [⟨1, id⟩] .eq target s.options.sizePenalty s.options.sizePenalty .user)

/-- Suspend the soft constraints, and pin the height and the width. -/
def pinned (s : Spec α) (width height : VariableId) (target : α) :
    Option ((ConstraintId × ConstraintId) × Spec α) := do
  let s := s.suspendable.foldl (Spec.setSuspended true) s
  let (heightPin, s) ← pin s height target
  let (widthPin, s) ← pin s width target
  return ((heightPin, widthPin), s)

/-- Solve with two variables pulled towards a target, and restore the constraints. -/
def sizeQuery (s : Spec α) (width height : VariableId) (target : α) (unbounded : Size α) :
    Option (Except (SpecError α) (Size α × Spec α)) :=
  if (s.getVariable? width).isNone then some (.error (.invalidVariable width))
  else if (s.getVariable? height).isNone then some (.error (.invalidVariable height))
  else do
    let suspended := s.suspendable
    let ((heightPin, widthPin), s) ← pinned s width height target
    let s ← solveSpec s
    let s ← drop s heightPin
    let s ← drop s widthPin
    let s := suspended.foldl (Spec.setSuspended false) s
    let value (id : VariableId) := (s.value? id).getD Scalar.nan
    let size := if s.result = .unbounded then unbounded else ⟨value width, value height⟩
    return .ok (size, s)

/-- The smallest width and height that the hard constraints allow. -/
def minSize (s : Spec α) (width height : VariableId) :
    Option (Except (SpecError α) (Size α × Spec α)) :=
  sizeQuery s width height 0 Size.zero

/-- The largest width and height that the hard constraints allow. -/
def maxSize (s : Spec α) (width height : VariableId) :
    Option (Except (SpecError α) (Size α × Spec α)) :=
  sizeQuery s width height s.options.largestSize Size.unbounded

theorem solveSpec_eq (s : Spec α) : solveSpec s = some s.solve := by
  have hrun := (matches_solveProblem s.rowsFit_problem s.options.maxIterations).run_eq
  unfold solveSpec
  rw [hrun]
  unfold Spec.solve Spec.outcome
  cases s.problem.solve s.options.maxIterations with
  | ok x => rfl
  | error e => rfl

theorem pinned_eq {s : Spec α} (hs : s.Tidy) (width height : VariableId) (target : α) :
    pinned s width height target = some (s.pinned width height target) := by
  have hsuspended := (Spec.Evolves.foldl_zero (Spec.evolves_setSuspended true)
    s.suspendable s).tidy hs
  unfold pinned pin
  dsimp only
  rw [register_eq hsuspended]
  dsimp only [Option.bind_eq_bind, Option.bind_some]
  rw [register_eq ((Spec.evolves_register _ _).tidy hsuspended)]
  rfl

theorem sizeQuery_eq {s : Spec α} (hs : s.Tidy) (width height : VariableId) (target : α)
    (unbounded : Size α) : sizeQuery s width height target unbounded
      = some (s.sizeQuery width height target unbounded) := by
  unfold sizeQuery Spec.sizeQuery
  split
  · rfl
  · split
    · rfl
    · dsimp only
      rw [pinned_eq hs]
      dsimp only [Option.bind_eq_bind, Option.bind_some]
      have hsolved := ((s.evolves_pinned width height target).trans (Spec.evolves_solve _)).tidy hs
      rw [solveSpec_eq]
      dsimp only [Option.bind_some]
      rw [drop_eq hsolved]
      dsimp only [Option.bind_some]
      rw [drop_eq ((Spec.evolves_drop _ _).tidy hsolved)]
      rfl

/-! ### Solving and asking -/

/-- **All accesses exist**, in every arithmetic, whatever its comparisons answer.  A problem whose
rows fit is solved without a missing access; the result is an error or a value for each variable.
So is, after every history of calls, a specification that is solved or asked for a size. -/
theorem all_accesses_exist :
    (∀ p : Problem α, p.RowsFit → ∀ maxIterations : ℕ,
      ∃ r : Except SolveError p.Point,
        (solveProblem p maxIterations).run = some r ∧ p.solve maxIterations = r ∧
        ((∃ e, r = .error e ∧ e ≠ .malformedRow) ∨
          ∃ x, r = .ok x ∧ x.toList.length = p.variableCount)) ∧
    ∀ (options : Options α) (history : List (Operation α)) (s : Spec α),
      ({ options } : Spec α).run history = s →
        solveSpec s = some s.solve ∧ ∀ width height : VariableId,
          minSize s width height = some (s.minSize width height) ∧
          maxSize s width height = some (s.maxSize width height) := by
  refine ⟨fun p hfits maxIterations => ?_, ?_⟩
  · have hmatches := matches_solveProblem hfits maxIterations
    refine ⟨p.solve maxIterations, hmatches.run_eq, rfl, ?_⟩
    have hne := hmatches.ne
    cases hsolve : p.solve maxIterations with
    | error e =>
      rw [hsolve] at hne
      exact .inl ⟨e, rfl, fun h => hne (congrArg _ h)⟩
    | ok x => exact .inr ⟨x, rfl, x.length_toList⟩
  · rintro options history s rfl
    have htidy := Spec.tidy_run options history
    exact ⟨solveSpec_eq _, fun width height =>
      ⟨sizeQuery_eq htidy _ _ _ _, sizeQuery_eq htidy _ _ _ _⟩⟩

-- A target with a coefficient but no variable: laying it into the array of the objective fails.
example : (solveProblem (⟨0, [], [⟨[1], 0, 1⟩]⟩ : Problem Float) 1).run = none := by decide

/-- A problem with a coefficient that is no number, and with a row that has no coefficient. -/
def blurred : Problem Float where
  variableCount := 2
  hard := [⟨[Scalar.nan], .le, 1⟩, ⟨[], .ge, 0⟩]
  soft := [⟨[1, Scalar.nan], -1, 1⟩]

/-- A problem with short rows and something that is no number, and a specification with an elastic
constraint: all accesses exist. -/
theorem all_accesses_exist_blurred :
    blurred.RowsFit ∧
    (∃ r, (solveProblem blurred 10).run = some r ∧ blurred.solve 10 = r ∧
      ((∃ e, r = .error e ∧ e ≠ .malformedRow) ∨ ∃ x, r = .ok x ∧ x.toList.length = 2)) ∧
    ∃ s : Spec Float, ({ options := .default } : Spec Float).run
        [.addVariable none, .addConstraint [1] [⟨⟨0, 0⟩⟩] .le 100 4 0, .solve] = s ∧
      solveSpec s = some s.solve ∧
      minSize s ⟨⟨0, 0⟩⟩ ⟨⟨0, 0⟩⟩ = some (s.minSize ⟨⟨0, 0⟩⟩ ⟨⟨0, 0⟩⟩) ∧
      maxSize s ⟨⟨0, 0⟩⟩ ⟨⟨0, 0⟩⟩ = some (s.maxSize ⟨⟨0, 0⟩⟩ ⟨⟨0, 0⟩⟩) := by
  have hfits : blurred.RowsFit := ⟨by simp [blurred], by simp [blurred]⟩
  obtain ⟨hsolve, hspec⟩ := all_accesses_exist (α := Float)
  obtain ⟨hsolved, hsizes⟩ := hspec .default _ _ rfl
  exact ⟨hfits, hsolve blurred hfits 10, _, rfl, hsolved, hsizes ⟨⟨0, 0⟩⟩ ⟨⟨0, 0⟩⟩⟩

end Checked

end ElasticLayout
