import ElasticLayout.Proofs.SharpSystems

/-!
# Nonsingular systems

A square system that is solved is nonsingular: the solution is the only one, and the determinant is
not zero.  Elimination fails for one reason only, so that a singular array always gives the same
error, whatever the right side.

* `eq_singularSystem_of_solveEquations` -- elimination has one way to fail;
* `det_ne_zero_of_solve` -- an array whose systems are solved is nonsingular;
* `solve_decides` -- what a solution says, and what a singular array gives;
* `crossed`, `parallel`, `solve_decides_crossed` -- a system that needs an exchange of rows, and a
  singular one.
-/

namespace ElasticLayout.Linear

open Matrix

variable {n : ℕ}

/-- **Elimination has one way to fail.**  The induction is on the number of unknowns. -/
theorem eq_singularSystem_of_solveEquations {equations : List (Equation ℝ)} {e : SolveError}
    (h : solveEquations n equations = .error e) : e = .singularSystem := by
  induction n generalizing equations e with
  | zero => exact absurd h (by simp [solveEquations])
  | succ n ih =>
    unfold solveEquations at h
    split at h
    · exact (Except.error.inj h).symm
    · rename_i pivot others _
      split at h
      · exact (Except.error.inj h).symm
      · cases hvalues : solveEquations n (others.map pivot.reduce) with
        | error e' =>
          rw [hvalues] at h
          exact (Except.error.inj h) ▸ ih hvalues
        | ok values =>
          rw [hvalues] at h
          exact absurd h (by simp [bind, Except.bind, pure, Except.pure])

variable {a : Dense n n ℝ} {b x : Vector ℝ n}

/-- The solutions of a square system that is solved. -/
theorem matrix_mulVec_eq_iff_of_solve (h : solve a b = .ok x) (y : Fin n → ℝ) :
    a.matrix *ᵥ y = b.get ↔ y = x.get := by
  have hcells : (a.mulVec (Vector.ofFn y)).get = a.matrix *ᵥ y := by
    funext i
    rw [Dense.get_mulVec, Dense.matrix_mulVec]
    simp only [get_ofFn]
  have hvalues : (Vector.ofFn y).get = y := funext (get_ofFn y)
  have hiff := mulVec_eq_iff_of_solve h (Vector.ofFn y)
  constructor
  · intro hy
    have hsame := hiff.1 (vector_ext fun i => by rw [hcells, hy])
    rw [← hsame, hvalues]
  · intro hy
    have hsame := hiff.2 (vector_ext fun i => by rw [hvalues, hy])
    rw [← hcells, hsame]

/-- **An array whose systems are solved is nonsingular.** -/
theorem det_ne_zero_of_solve (h : solve a b = .ok x) : a.matrix.det ≠ 0 := by
  intro hdet
  obtain ⟨v, hv, hzero⟩ := Matrix.exists_mulVec_eq_zero_iff.2 hdet
  refine hv (funext fun j => ?_)
  exact eq_zero_of_solve h (fun i => congrFun hzero i) j

/-- **A solution is the only one, and the array is nonsingular**; singular arrays give an error. -/
theorem solve_decides (a : Dense n n ℝ) (b : Vector ℝ n) :
    (∀ x, solve a b = .ok x → a.matrix *ᵥ x.get = b.get ∧ a.matrix.det ≠ 0 ∧
      ∀ y, a.matrix *ᵥ y = b.get → y = x.get) ∧
      (a.matrix.det = 0 → solve a b = .error .singularSystem) := by
  refine ⟨fun x h => ?_, fun hdet => ?_⟩
  · have hiff := matrix_mulVec_eq_iff_of_solve h
    exact ⟨(hiff x.get).2 rfl, det_ne_zero_of_solve h, fun y => (hiff y).1⟩
  · cases hsolve : solve a b with
    | error e => rw [eq_singularSystem_of_solveEquations hsolve]
    | ok x => exact absurd hdet (det_ne_zero_of_solve hsolve)

/-! ### Two systems in two unknowns -/

attribute [local instance] atLeastTwo_two

/-- The first equation does not mention the first unknown. -/
def crossed : Dense 2 2 ℝ := #v[#v[0, -1], #v[2, 1]]

/-- The second equation is twice the first one. -/
def parallel : Dense 2 2 ℝ := #v[#v[1, -1], #v[2, -2]]

theorem matrix_crossed : crossed.matrix = !![0, -1; 2, 1] := by
  ext i j
  fin_cases i <;> fin_cases j <;> rfl

theorem matrix_parallel : parallel.matrix = !![1, -1; 2, -2] := by
  ext i j
  fin_cases i <;> fin_cases j <;> rfl

/-- The pivot is in the second equation, and the first one has the lead `-1` without it. -/
theorem sharpSystem_crossed : SharpSystem crossed #v[-3, 7] := by
  intro pivot others hpivot
  have hperm : (pivot :: others).Perm [⟨[0, -1], -3⟩, ⟨[2, 1], 7⟩] := pivot?_perm hpivot
  have hlarge : |(2 : ℝ)| ≤ |pivot.lead| :=
    abs_le_pivot? hpivot (List.mem_cons_of_mem _ List.mem_cons_self)
  obtain rfl : pivot = ⟨[2, 1], 7⟩ := by
    obtain rfl | hpivot := List.mem_cons.1 (hperm.mem_iff.1 List.mem_cons_self)
    · exact absurd hlarge (by norm_num [Equation.lead])
    · exact List.mem_singleton.1 hpivot
  obtain rfl : others = [⟨[0, -1], -3⟩] :=
    List.perm_singleton.1 ((hperm.trans (.swap _ _ [])).cons_inv)
  refine ⟨sharp_of_le (le_trans (by norm_num) hlarge), fun last _ hlast => ⟨?_, trivial⟩⟩
  have hmem := (pivot?_perm hlast).mem_iff.1 List.mem_cons_self
  obtain rfl : last = ⟨[-1], -3⟩ := by
    simpa [Equation.reduce, Equation.lead, Equation.tail] using hmem
  exact sharp_of_le (by norm_num [Equation.lead])

/-- The crossed system has one solution, and it is found; the parallel ones fail. -/
theorem solve_decides_crossed : (∃ x, solve crossed #v[-3, 7] = .ok x ∧
    x.get 0 = 2 ∧ x.get 1 = 3) ∧ solve parallel #v[1, 2] = .error .singularSystem := by
  have hinjective : ∀ v, crossed.matrix *ᵥ v = 0 → v = 0 := by
    intro v hv
    have hfirst : ∑ j, crossed.entry 0 j * v j = 0 := congrFun hv 0
    have hsecond : ∑ j, crossed.entry 1 j * v j = 0 := congrFun hv 1
    rw [Fin.sum_univ_two] at hfirst hsecond
    change 0 * v 0 + -1 * v 1 = 0 at hfirst
    change 2 * v 0 + 1 * v 1 = 0 at hsecond
    have hone : v 1 = 0 := by linarith
    have hzero : v 0 = 0 := by linarith
    funext j
    fin_cases j
    · exact hzero
    · exact hone
  obtain ⟨x, hx⟩ := exists_solve sharpSystem_crossed hinjective
  obtain ⟨-, -, hunique⟩ := (solve_decides crossed #v[-3, 7]).1 x hx
  have hsolution : crossed.matrix *ᵥ ![2, 3] = (#v[-3, 7] : Vector ℝ 2).get := by
    rw [matrix_crossed]
    funext i
    fin_cases i
    · show _ = (-3 : ℝ)
      norm_num [Matrix.mulVec, dotProduct, Fin.sum_univ_two]
    · show _ = (7 : ℝ)
      norm_num [Matrix.mulVec, dotProduct, Fin.sum_univ_two]
  have hvalues := hunique _ hsolution
  refine ⟨⟨x, hx, ?_, ?_⟩, (solve_decides parallel #v[1, 2]).2 ?_⟩
  · rw [← hvalues]
    rfl
  · rw [← hvalues]
    rfl
  · rw [matrix_parallel, Matrix.det_fin_two_of]
    norm_num

end ElasticLayout.Linear
