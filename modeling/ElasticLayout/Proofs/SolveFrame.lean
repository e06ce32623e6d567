import ElasticLayout.Proofs.Imprint
import ElasticLayout.Proofs.Values

/-!
# What a solve leaves alone

A solve writes the values of the columns if it succeeds, and none if it fails.  Apart from the
values and the outcome it changes nothing: not the constraints, nor the options, nor the store of
the variables with its vacant slots, so that the next handles are the same as without the solve.

* `SlotCell.map`, `SlotStore.map` -- a store seen through a function of its entries;
* `SlotStore.map_modify` -- a change that the function does not see;
* `Spec.frame`, `Spec.frame_solve` -- all but the values and the outcome;
* `Spec.solve_of_error`, `Spec.result_solve_eq_optimal_iff` -- failures, and how to tell;
* `Spec.Reachable.solve_writes_columns` -- the main result.
-/

namespace ElasticLayout

/-! ### Stores seen through a function -/

variable {α β : Type}

/-- A cell seen through a function of its entry. -/
def SlotCell.map (view : α → β) : SlotCell α → SlotCell β
  | .occupied generation a => .occupied generation (view a)
  | .vacant generation => .vacant generation

/-- A store seen through a function of its entries: the slots and the order of the vacant ones are
the same. -/
def SlotStore.map (view : α → β) (s : SlotStore α) : SlotStore β :=
  ⟨s.cells.map (·.map view), s.free, s.size⟩

/-- A change that the function does not see. -/
theorem SlotStore.map_modify {view : α → β} {f : α → α} (h : ∀ a, view (f a) = view a)
    (s : SlotStore α) (slot : Slot) : (s.modify slot f).map view = s.map view := by
  unfold modify
  split
  · rename_i a ha
    have hcell := (s.get?_eq_some_iff slot a).1 ha
    refine congrArg (SlotStore.mk · s.free s.size) (Array.ext_getElem? fun i => ?_)
    rw [Array.getElem?_map, Array.getElem?_map, Array.getElem?_setIfInBounds]
    split
    · rename_i hi
      obtain rfl := hi
      rw [if_pos (Array.getElem?_eq_some_iff.1 hcell).1, hcell]
      show some (SlotCell.occupied slot.generation (view (f a)))
        = some (.occupied slot.generation (view a))
      rw [h]
    · rfl
  · rfl

/-- All of a specification but the values of variables and the outcome of the last solve. -/
structure Frame (α : Type) where
  /-- The variables without their values, in their slots. -/
  standings : SlotStore (Standing α)
  /-- The constraints in their slots. -/
  constraintStore : SlotStore (Constraint α)
  /-- The options. -/
  options : Options α

namespace Spec

/-- What a specification is but for the values and the outcome. -/
def frame (s : Spec α) : Frame α :=
  ⟨s.variableStore.map Variable.standing, s.constraintStore, s.options⟩

theorem frame_modifyVariable (s : Spec α) (id : VariableId) {f : Variable α → Variable α}
    (h : ∀ v, (f v).standing = v.standing) : (s.modifyVariable id f).frame = s.frame :=
  congrArg (Frame.mk · s.constraintStore s.options) (s.variableStore.map_modify h id.slot)

/-- Writing values is not seen. -/
theorem frame_assign (s : Spec α) (values : List (VariableId × α)) :
    (s.assign values).frame = s.frame := by
  unfold assign
  refine foldl_keeps frame (fun s entry => ?_) values s
  exact s.frame_modifyVariable entry.1 fun _ => rfl

variable [Scalar α] {s : Spec α}

/-- **A solve changes nothing but values and the outcome.** -/
theorem frame_solve (s : Spec α) : s.solve.frame = s.frame :=
  solve_keeps frame frame_assign (fun _ _ => rfl) s

/-! ### Outcomes -/

/-- A solve that fails changes the outcome alone. -/
theorem solve_of_error {e : SolveError} (h : s.outcome = .error e) :
    s.solve = { s with result := e.resultCode } := by
  unfold solve
  rw [h]

/-- A solve is optimal exactly if its problem has been solved. -/
theorem result_solve_eq_optimal_iff :
    s.solve.result = .optimal ↔ ∃ x : s.problem.Point, s.outcome = .ok x := by
  cases hx : s.outcome with
  | ok x =>
    refine iff_of_true ?_ ⟨x, rfl⟩
    rw [result_solve, solution_of_outcome hx]
  | error e =>
    refine iff_of_false (fun hoptimal => ?_) (by simp)
    rw [solve_of_error hx] at hoptimal
    have hfails := (resultCode_fails e).1
    rw [show e.resultCode = .optimal from hoptimal] at hfails
    exact absurd hfails (by decide)

/-- A point that is stored gives each column its entry. -/
theorem StoresPoint.map_columns {x : s.problem.Point} (h : s.StoresPoint x) :
    s.columns.map s.solve.value? = x.toList.map some := by
  have hlength : x.toList.length = s.columns.length := Vector.length_toList
  refine List.ext_getElem (by simpa using hlength.symm) fun k hcolumn hentry => ?_
  rw [List.length_map] at hcolumn hentry
  rw [List.getElem_map, List.getElem_map, ← List.getElem?_eq_getElem hentry]
  exact h.value k _ (List.getElem?_eq_getElem hcolumn)

/-! ### Main result -/

/-- **A solve writes the columns, or nothing.**  After every history of calls it changes nothing but
values and the outcome.  The code that it answers is the outcome, and is optimal exactly if the
problem has been solved.  Then each column's variable gets the entry of its column and every other
variable keeps its value; with any other code no value changes. -/
theorem Reachable.solve_writes_columns [RangeScalar α] (hs : s.Reachable) :
    ∃ t code, s.perform .solve = (t, .solved code) ∧ t.result = code ∧ t.frame = s.frame ∧
      (code = .optimal ↔ ∃ x, s.problem.solve s.options.maxIterations = .ok x) ∧
      (code ≠ .optimal → t = { s with result := code }) ∧
      (code = .optimal → ∃ x, s.problem.solve s.options.maxIterations = .ok x ∧
        s.columns.map t.value? = x.toList.map some ∧
        ∀ id, id ∉ s.columns → t.value? id = s.value? id) := by
  refine ⟨s.solve, s.solve.result, rfl, rfl, s.frame_solve, result_solve_eq_optimal_iff,
    fun hfails => ?_, fun hoptimal => ?_⟩
  · cases hx : s.outcome with
    | ok x => exact absurd (result_solve_eq_optimal_iff.2 ⟨x, hx⟩) hfails
    | error e => rw [solve_of_error hx]
  · obtain ⟨x, hx⟩ := result_solve_eq_optimal_iff.1 hoptimal
    have hstores := storesPoint (fun id => isSome_of_mem_columns hs.tidy_owned.2 hs.1) hx
    exact ⟨x, hx, hstores.map_columns, hstores.others⟩

/-- The first slot is reused, the second variable is not mentioned, and an inequality is elastic. -/
def reused : List (Operation Float) :=
  [.addVariable none, .addVariable none, .removeVariable ⟨⟨0, 0⟩⟩, .addVariable none,
    .addConstraint [1] [⟨⟨0, 1⟩⟩] .eq 3 0 0, .addConstraint [1] [⟨⟨0, 1⟩⟩] .ge 5 1 1]

/-- The new occupant of the first slot and the slack get the entries of the point, `3` and `2`; the
variable that no constraint mentions keeps its value. -/
theorem solve_writes_columns_reused : ∃ s : Spec Float, s.Reachable ∧
    ∃ t, s.perform .solve = (t, .solved .optimal) ∧ t.frame = s.frame ∧
      (∃ values : List Float, (values == [3, 2]) = true ∧
        [t.value? ⟨⟨0, 1⟩⟩, t.value? ⟨⟨2, 0⟩⟩] = values.map some) ∧
      t.value? ⟨⟨1, 0⟩⟩ = s.value? ⟨⟨1, 0⟩⟩ := by
  obtain ⟨s, hs⟩ : ∃ s, s = ({ options := .default } : Spec Float).run reused := ⟨_, rfl⟩
  have hreachable : s.Reachable := by
    rw [hs]
    exact reachable_run _ (by decide)
  have hcolumns : s.columns = [⟨⟨0, 1⟩⟩, ⟨⟨2, 0⟩⟩] := by
    rw [hs]
    decide +kernel
  have hpoint : s.outcome.toOption.any (fun x => x.toList == [3, 2]) = true := by
    rw [hs]
    decide +kernel
  have hoptimal : s.solve.result = .optimal := by
    rw [hs]
    decide +kernel
  obtain ⟨t, code, hperform, hcode, hframe, -, -, hstores⟩ := hreachable.solve_writes_columns
  obtain ⟨rfl, -⟩ := Prod.mk.inj hperform
  obtain rfl : code = .optimal := hcode.symm.trans hoptimal
  obtain ⟨x, hx, hvalues, hothers⟩ := hstores rfl
  rw [show s.outcome = .ok x from hx] at hpoint
  rw [hcolumns] at hvalues hothers
  exact ⟨s, hreachable, _, hperform, hframe, ⟨x.toList, hpoint, hvalues⟩, hothers _ (by decide)⟩

end Spec

end ElasticLayout
