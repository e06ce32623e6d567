import ElasticLayout.Proofs.Search
import ElasticLayout.Proofs.Shapes

/-!
# Square systems in exact arithmetic

Elimination either fails or finds the only solution: every pivot is far from zero, so that each
equation can be taken back from its reduced form.

* `Equation.Holds` -- an equation at values of its unknowns;
* `Equation.holds_reduce`, `Equation.holds_iff_leadValue` -- elimination and substitution;
* `solveEquations_spec` -- by induction on the number of unknowns, the values found solve the
  equations, and no others do;
* `mulVec_eq_iff_of_solve`, `eq_zero_of_solve` -- the same for arrays.
-/

namespace ElasticLayout.Linear

/-! ### Inner products -/

theorem dot_comm (xs ys : List ℝ) : dot xs ys = dot ys xs := by
  rw [dot_eq, dot_eq, List.zipWith_comm]
  simp only [mul_comm]

theorem dot_cons (x y : ℝ) (xs ys : List ℝ) : dot (x :: xs) (y :: ys) = x * y + dot xs ys := by
  rw [dot_eq, dot_eq, List.zipWith_cons_cons, List.sum_cons]

theorem foldl_sub_eq (xs : List ℝ) (a : ℝ) : xs.foldl (· - ·) a = a - xs.sum := by
  induction xs generalizing a with
  | nil => rw [List.foldl_nil, List.sum_nil, sub_zero]
  | cons x xs ih => rw [List.foldl_cons, ih, List.sum_cons, sub_sub]

/-! ### One equation -/

namespace Equation

/-- The equation holds at values of its unknowns. -/
def Holds (e : Equation ℝ) (ys : List ℝ) : Prop := dot e.coefficients ys = e.rhs

variable {e pivot : Equation ℝ} {n : ℕ} {y : ℝ} {ys : List ℝ}

/-- The lead of an equation with the coefficients of a row. -/
theorem lead_row (v : Vector ℝ (n + 1)) (b : ℝ) : lead ⟨v.toList, b⟩ = v.get 0 := by
  show v.toList.headD 0 = v.get 0
  rw [List.headD_eq_head?_getD, List.head?_eq_getElem?, Vector.getElem?_toList,
    Vector.getElem?_eq_getElem (Nat.succ_pos n)]
  rfl

/-- The first unknown counts with the lead. -/
theorem dot_cons_eq (h : e.coefficients.length = n + 1) (y : ℝ) (ys : List ℝ) :
    dot e.coefficients (y :: ys) = e.lead * y + dot e.tail ys := by
  unfold lead tail
  obtain ⟨c, cs, hcs⟩ := List.exists_cons_of_length_eq_add_one h
  rw [hcs]
  exact dot_cons c y cs ys

/-- What the reduction takes from the left side. -/
theorem dot_coefficients_reduce (he : e.coefficients.length = n + 1)
    (hpivot : pivot.coefficients.length = n + 1) (ys : List ℝ) :
    dot (pivot.reduce e).coefficients ys
      = dot e.tail ys + -e.lead / pivot.lead * dot pivot.tail ys := by
  unfold reduce
  dsimp only
  split
  · rename_i hzero
    rw [Scalar.beq_iff] at hzero
    rw [hzero, zero_mul, add_zero]
  · have hcomm : List.zipWith (fun a p => a + p * (-e.lead / pivot.lead)) e.tail pivot.tail
        = List.zipWith (fun a p => a + -e.lead / pivot.lead * p) e.tail pivot.tail := by
      simp only [mul_comm]
    dsimp only
    rw [hcomm, dot_comm, dot_zipWith_move ys (by rw [length_tail he, length_tail hpivot]),
      dot_comm ys, dot_comm ys]

/-- What the reduction takes from the right side. -/
theorem rhs_reduce (pivot e : Equation ℝ) :
    (pivot.reduce e).rhs = e.rhs + -e.lead / pivot.lead * pivot.rhs := by
  unfold reduce
  dsimp only
  split
  · rename_i hzero
    rw [Scalar.beq_iff] at hzero
    rw [hzero, zero_mul, add_zero]
  · rw [mul_comm pivot.rhs]

/-- What the reduction takes from the two sides. -/
theorem dot_reduce (he : e.coefficients.length = n + 1)
    (hpivot : pivot.coefficients.length = n + 1) (ys : List ℝ) :
    dot (pivot.reduce e).coefficients ys - (pivot.reduce e).rhs
      = dot e.tail ys - e.rhs + -e.lead / pivot.lead * (dot pivot.tail ys - pivot.rhs) := by
  rw [dot_coefficients_reduce he hpivot, rhs_reduce]
  ring

/-- **Where the pivot equation holds, an equation holds if and only if its reduced form does.** -/
theorem holds_reduce (he : e.coefficients.length = n + 1)
    (hpivot : pivot.coefficients.length = n + 1) (hlead : pivot.lead ≠ 0)
    (hholds : pivot.Holds (y :: ys)) : (pivot.reduce e).Holds ys ↔ e.Holds (y :: ys) := by
  have hzero : dot pivot.tail ys - pivot.rhs = -(pivot.lead * y) := by
    unfold Holds at hholds
    rw [dot_cons_eq hpivot] at hholds
    linarith
  have hreduce := dot_reduce he hpivot ys
  rw [hzero] at hreduce
  have hquotient : -e.lead / pivot.lead * -(pivot.lead * y) = e.lead * y := by
    field_simp
  unfold Holds
  rw [← sub_eq_zero, hreduce, hquotient, ← sub_eq_zero (b := e.rhs), dot_cons_eq he]
  constructor <;> intro h <;> linarith

/-- The value of the first unknown is the one at which the equation holds. -/
theorem holds_iff_leadValue (he : e.coefficients.length = n + 1) (hlead : e.lead ≠ 0) :
    e.Holds (y :: ys) ↔ y = e.leadValue ys := by
  unfold Holds leadValue
  rw [dot_cons_eq he, foldl_sub_eq, ← dot_eq, eq_div_iff hlead]
  constructor <;> intro h <;> linarith

end Equation

/-! ### Systems -/

/-- **One step of elimination**: equations hold if and only if the pivot equation does and the
others do in their reduced form. -/
theorem forall_holds_cons_iff {n : ℕ} {pivot : Equation ℝ} {others : List (Equation ℝ)}
    (hcoefficients : ∀ e ∈ pivot :: others, e.coefficients.length = n + 1)
    (hlead : pivot.lead ≠ 0) (y : ℝ) (ys : List ℝ) :
    (∀ e ∈ pivot :: others, e.Holds (y :: ys)) ↔
      y = pivot.leadValue ys ∧ ∀ e ∈ others.map pivot.reduce, e.Holds ys := by
  have hpivot := hcoefficients pivot List.mem_cons_self
  rw [List.forall_mem_cons, List.forall_mem_map, ← Equation.holds_iff_leadValue hpivot hlead]
  refine and_congr_right fun hholds => forall₂_congr fun e he => ?_
  exact (Equation.holds_reduce (hcoefficients e (List.mem_cons_of_mem _ he)) hpivot hlead
    hholds).symm

/-- **The values found solve the equations, and no others do.**  The induction is on the number of
unknowns; the reduced equations are one fewer, over one unknown fewer. -/
theorem solveEquations_spec {n : ℕ} {equations : List (Equation ℝ)} {x : Vector ℝ n}
    (hsquare : Square n equations) (h : solveEquations n equations = .ok x) {ys : List ℝ}
    (hys : ys.length = n) :
    (∀ e ∈ equations, e.Holds ys) ↔ ys = x.toList := by
  induction n generalizing equations ys with
  | zero =>
    have hnone : equations = [] := List.length_eq_zero_iff.1 hsquare.length
    have hx : x.toList = [] := List.length_eq_zero_iff.1 Vector.length_toList
    rw [hnone, List.length_eq_zero_iff.1 hys, hx]
    simp
  | succ n ih =>
    unfold solveEquations at h
    split at h
    · exact absurd h (by simp)
    rename_i pivot others hpivot
    split at h
    · exact absurd h (by simp)
    rename_i hfar
    obtain ⟨values, hvalues, h⟩ := bind_ok h
    have hx : x.toList = pivot.leadValue values.toList :: values.toList := by
      rw [← Except.ok.inj h]
      change (#v[pivot.leadValue values.toList] ++ values).toArray.toList = _
      rw [Vector.toArray_append, Array.toList_append]
      rfl
    obtain ⟨y, rest, rfl⟩ := List.exists_cons_of_length_eq_add_one hys
    have hall : (∀ e ∈ equations, e.Holds (y :: rest)) ↔
        ∀ e ∈ pivot :: others, e.Holds (y :: rest) :=
      forall_congr' fun e => by rw [(pivot?_perm hpivot).mem_iff]
    rw [hall, forall_holds_cons_iff (hsquare.length_of_pivot hpivot)
      (Scalar.ne_zero_of_not_near_abs hfar), hx, List.cons.injEq,
      ih (hsquare.reduce hpivot) hvalues (by simpa using hys)]
    exact and_congr_left fun hrest => by rw [hrest]

/-- **A square system that is solved has one solution.** -/
theorem mulVec_eq_iff_of_solve {n : ℕ} {a : Dense n n ℝ} {b x : Vector ℝ n}
    (h : solve a b = .ok x) (y : Vector ℝ n) : a.mulVec y = b ↔ y = x := by
  have hspec := solveEquations_spec (square_rows a b) h (y.length_toList)
  rw [List.forall_mem_map, Vector.toList_inj] at hspec
  rw [← hspec]
  constructor
  · rintro rfl i -
    show dot _ _ = (a.mulVec y).get i
    unfold Dense.mulVec
    rw [get_ofFn]
  · intro hall
    refine vector_ext fun i => ?_
    have hi : dot (a.get i).toList y.toList = b.get i := hall i (List.mem_finRange i)
    unfold Dense.mulVec
    rw [get_ofFn, hi]

/-- A square array whose systems are solved annihilates nothing but zero. -/
theorem eq_zero_of_solve {n : ℕ} {a : Dense n n ℝ} {b x : Vector ℝ n} (h : solve a b = .ok x)
    {c : Fin n → ℝ} (hc : ∀ i, ∑ j, a.entry i j * c j = 0) (j : Fin n) : c j = 0 := by
  have hx : a.mulVec x = b := (mulVec_eq_iff_of_solve h x).2 rfl
  have hmoved : a.mulVec (Vector.ofFn fun j => x.get j + c j) = b := by
    rw [← hx]
    refine vector_ext fun i => ?_
    rw [Dense.get_mulVec, Dense.get_mulVec]
    simp only [get_ofFn, mul_add, Finset.sum_add_distrib, hc, add_zero]
  have hsame := congrArg (fun v => Vector.get v j) ((mulVec_eq_iff_of_solve h _).1 hmoved)
  rw [get_ofFn] at hsame
  linarith

end ElasticLayout.Linear
